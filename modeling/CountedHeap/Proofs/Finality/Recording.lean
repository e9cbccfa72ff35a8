import CountedHeap.Proofs.Finality.Events
import CountedHeap.Proofs.Sparing

/-!
# Operations whose events are recorded

Passes and drains that keep a record in the state of the host: when they run a finalizer, and when
they free a composite cell. When the record is erased, operations do what they do without it.

* `record`: an entry is made.
* `settleRecorded`, `passRecorded`, `Engine.recorded`: passes and drains that make entries.
* `Engine.erases_recorded`: they do what they do otherwise.
-/

namespace CountedHeap

variable {σ : Type} {host : Host σ} {fuel : ℕ}

/-- Makes entries about the heap. -/
def record (look : Heap → List Event) : Action (σ × List Event) Unit :=
  fun w => some ((), ⟨w.heap, w.host.1, w.host.2 ++ look w.heap⟩)

/-- The entry of a cell that is freed. Where finalizers are not skipped it is due that the cell has been
finalized, if it resolves a finalizer. -/
def Heap.freeing (h : Heap) (skip : Bool) (i : ℕ) : Event :=
  .freed (h.arena.handleAt i) (!skip && h.hasFinalizer (h.arena.handleAt i))

/-- Deals with the head of the queue. -/
def settleRecorded (call : Caller (σ × List Event)) (i : ℕ) :
    Action (σ × List Event) Departure := do
  match ← query (·.headFinalizer i) with
  | some f =>
    let r ← query (·.arena.handleAt i)
    record fun _ => [.finalized r]
    modifyHeap (·.beginFinalizer i)
    runFinalizer call r f
    let keep ← change (·.endHeadFinalizer i)
    record fun h => if keep then [] else [h.freeing false i]
    change (·.leaveQueue i keep)
  | none =>
    record fun h => [h.freeing false i]
    change (·.leaveQueue i false)

/-- Works the queue off. -/
def drainRecorded (call : Caller (σ × List Event)) (collect : Action (σ × List Event) Bool)
    (fuel : ℕ) : Action (σ × List Event) Unit := do
  modifyHeap ({ · with draining := true })
  workOff (settleRecorded call) collect fuel 0
  modifyHeap ({ · with draining := false })

/-- Runs the finalizers of the cells that were set aside. -/
def runRecorded (call : Caller (σ × List Event)) : List ℕ → Action (σ × List Event) ℕ
  | [] => pure 0
  | i :: rest => do
    match ← query (·.dueFinalizer i) with
    | none => runRecorded call rest
    | some (r, f) =>
      record fun _ => [.finalized r]
      modifyHeap (·.beginFinalizer i)
      runFinalizer call r f
      modifyHeap (·.endFinalizer i)
      let n ← runRecorded call rest
      return n + 1

/-- A pass, up to the point where what it has queued is worked off. -/
def bodyRecorded (call : Caller (σ × List Event)) (o : PassOptions) : Action (σ × List Event) ℕ := do
  record fun h => (h.garbage o).map (h.freeing o.skipFinalizers)
  let start ← change (·.beginPass o)
  let finalized ← runRecorded call start.pending
  if finalized > 0 then modifyHeap (·.settle start.pending)
  change (·.finishPass o start finalized)

/-- A tracing pass. -/
def passRecorded (call : Caller (σ × List Event)) (drain : Action (σ × List Event) Unit)
    (o : PassOptions) : Action (σ × List Event) Bool := do
  let requeued ← bodyRecorded call o
  if requeued > 0 then drain
  return true

/-- The native functions of a host, which make no entries themselves. -/
abbrev Host.recorded (host : Host σ) : Host (σ × List Event) :=
  host.noting fun _ => []

/-- While the queue is worked off. -/
def Engine.inDrainRecorded (host : Host σ) : Engine (σ × List Event) where
  drain := pure ()
  collect := passRecorded (inPass.caller host.recorded) (pure ())
  slack := 0

/-- Outside of passes and drains. -/
def Engine.recorded (host : Host σ) (fuel : ℕ) : Engine (σ × List Event) :=
  let drain := drainRecorded ((inDrainRecorded host).caller host.recorded)
    ((inDrainRecorded host).collect {}) fuel
  { drain := drain
    collect := passRecorded (inPass.caller host.recorded) drain
    slack := fuel }

/-! ## Without the record -/

section

variable {α : Type} {call' : Caller (σ × List Event)} {call : Caller σ}
  {drain' : Action (σ × List Event) Unit} {drain : Action σ Unit} {l : List ℕ} {i : ℕ}
  {o : PassOptions} {look : Heap → List Event}

/-- Entries are made by the way. -/
theorem erases_record {x' : Action (σ × List Event) α} {x : Action σ α} (hx : Erases Prod.fst x' x) :
    Erases Prod.fst (record look >>= fun _ => x') x :=
  erases_jot hx

theorem erases_settleRecorded (hcall : ∀ id v, Erases Prod.fst (call' id v) (call id v)) :
    Erases Prod.fst (settleRecorded call' i) (settleHead call i) := by
  let S := erasing (Prod.fst : σ × List Event → σ)
  have hS : S.Withering := withering_erasing _
  have hleave : ∀ keep, Erases (Prod.fst : σ × List Event → σ) (change (·.leaveQueue i keep))
      (change (·.leaveQueue i keep)) := fun _ _ => rfl
  refine S.bind (S.query Heap.blind_headFinalizer) fun found => ?_
  cases found with
  | none => exact erases_record (hleave false)
  | some f =>
    exact S.bind (S.query fun _ _ => rfl) fun r =>
      erases_record <| S.bind (hS.modify (fun _ _ => rfl) fun _ => .beginFinalizer) fun _ =>
      S.bind (hS.runFinalizer hcall) fun _ =>
      S.bind (hS.change Heap.oblivious_endHeadFinalizer fun _ => .endHeadFinalizer) fun keep =>
      erases_record (hleave keep)

theorem erases_runRecorded (hcall : ∀ id v, Erases Prod.fst (call' id v) (call id v)) :
    Erases Prod.fst (runRecorded call' l) (runPending call l) := by
  let S := erasing (Prod.fst : σ × List Event → σ)
  have hS : S.Withering := withering_erasing _
  induction l with
  | nil => exact S.pure
  | cons i l ih =>
    refine S.bind (S.query Heap.blind_pending) fun found => ?_
    cases found with
    | none => exact ih
    | some found =>
      exact erases_record <| S.bind (hS.modify (fun _ _ => rfl) fun _ => .beginFinalizer) fun _ =>
        S.bind (hS.runFinalizer hcall) fun _ =>
        S.bind (hS.modify (fun _ _ => rfl) fun _ => .endFinalizer) fun _ =>
        S.bind ih fun _ => S.pure

theorem erases_bodyRecorded (hcall : ∀ id v, Erases Prod.fst (call' id v) (call id v)) :
    Erases Prod.fst (bodyRecorded call' o) (passBody call o) := by
  let S := erasing (Prod.fst : σ × List Event → σ)
  have hS : S.Withering := withering_erasing _
  have hfinish : ∀ p n, S.rel (change (·.finishPass o p n)) (change (·.finishPass o p n)) :=
    fun _ _ => hS.change Heap.oblivious_finishPass fun _ => .finishPass
  refine erases_record <| S.bind (hS.change Heap.oblivious_beginPass fun _ => .beginPass) fun p =>
    S.bind (erases_runRecorded hcall) fun n => ?_
  exact S.ite (S.bind (hS.modify Heap.neutral_settle fun _ => .settle) fun _ => hfinish p n)
    (hfinish p n)

theorem erases_passRecorded (hcall : ∀ id v, Erases Prod.fst (call' id v) (call id v))
    (hdrain : Erases Prod.fst drain' drain) :
    Erases Prod.fst (passRecorded call' drain' o) (pass call drain o) := by
  let S := erasing (Prod.fst : σ × List Event → σ)
  rw [pass_eq]
  exact S.bind (erases_bodyRecorded hcall) fun n => S.ite (S.bind hdrain fun _ => S.pure) S.pure

end

theorem Engine.erases_inDrainRecorded :
    Engine.Erases Prod.fst (inDrainRecorded host) (inDrain host) where
  drain := (erasing _).pure
  collect _ := erases_passRecorded (fun _ _ => erases_inPass.run_noting _) (erasing _).pure
  slack := rfl

theorem Engine.erases_recorded_drain :
    CountedHeap.Erases Prod.fst (recorded host fuel).drain (top host fuel).drain := by
  let S := erasing (Prod.fst : σ × List Event → σ)
  refine S.bind (S.modifyHeap (fun _ _ => rfl) fun _ => trivial) fun _ => S.bind ?_ fun _ =>
    S.modifyHeap (fun _ _ => rfl) fun _ => trivial
  rw [drainLoop_eq]
  exact (withering_erasing _).workOff
    (fun i => erases_settleRecorded fun _ _ => erases_inDrainRecorded.run_noting _)
    (erases_inDrainRecorded.collect {})

/-- Operations whose events are recorded do what they do otherwise. -/
theorem Engine.erases_recorded : Engine.Erases Prod.fst (recorded host fuel) (top host fuel) where
  drain := erases_recorded_drain
  collect _ := erases_passRecorded (fun _ _ => erases_inPass.run_noting _) erases_recorded_drain
  slack := rfl

end CountedHeap
