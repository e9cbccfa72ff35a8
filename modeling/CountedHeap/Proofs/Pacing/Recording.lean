import CountedHeap.Proofs.Erasure
import CountedHeap.Proofs.Pacing.Beats

/-!
# Operations whose passes are recorded

Passes and drains that keep a record in the state of the host: when a drain frees a cell and when it finds
the queue empty, and when a pass begins and when it sets the trigger counter. When the record is erased,
operations do what they do without it.

* `drainTimed`, `passTimed`, `Engine.timed`: drains and passes that make entries.
* `Engine.erases_timed`: they do what they do otherwise.
-/

namespace CountedHeap

variable {σ : Type} {host : Host σ} {fuel : ℕ}

/-- Works the queue off, where `freed` cells have been freed in the round that is under way. -/
def loopTimed (call : Caller (σ × List Beat)) (collect : Action (σ × List Beat) Bool) :
    ℕ → ℕ → Action (σ × List Beat) Unit
  | 0, _ => fun _ => none
  | fuel + 1, freed => do
    match ← query (·.arena.queue.head) with
    | some i =>
      match ← settleHead call i with
      | .freed =>
        jot fun _ => [.freed]
        loopTimed call collect fuel (freed + 1)
      | .rescued => loopTimed call collect fuel freed
    | none =>
      jot fun _ => [.emptied]
      let paced ← query (·.config.voluntary)
      if freed = 0 || !paced then pure ()
      else
        modifyHeap (·.spendTrigger freed)
        let exhausted ← query fun h => decide (h.trigger ≤ 0)
        if exhausted then
          let _ ← collect
          let queued ← query (·.arena.queue.head.isSome)
          if queued then loopTimed call collect fuel 0

/-- Works the queue off until it is empty. -/
def drainTimed (call : Caller (σ × List Beat)) (collect : Action (σ × List Beat) Bool) (fuel : ℕ) :
    Action (σ × List Beat) Unit := do
  modifyHeap ({ · with draining := true })
  loopTimed call collect fuel 0
  modifyHeap ({ · with draining := false })

/-- A pass, up to the point where what it has queued is worked off. -/
def bodyTimed (voluntary : Bool) (call : Caller (σ × List Beat)) (o : PassOptions) :
    Action (σ × List Beat) ℕ := do
  jot fun _ => [.pass voluntary]
  let requeued ← passBody call o
  jot fun h => [.reset h.arena.compositeCount]
  return requeued

/-- A tracing pass. -/
def passTimed (voluntary : Bool) (call : Caller (σ × List Beat)) (drain : Action (σ × List Beat) Unit)
    (o : PassOptions) : Action (σ × List Beat) Bool := do
  let requeued ← bodyTimed voluntary call o
  if requeued > 0 then drain
  return true

/-- The native functions of a host, which make no entries themselves. -/
abbrev Host.timed (host : Host σ) : Host (σ × List Beat) :=
  host.noting fun _ => []

/-- While the queue is worked off. -/
def Engine.inDrainTimed (host : Host σ) : Engine (σ × List Beat) where
  drain := pure ()
  collect := passTimed false (inPass.caller host.timed) (pure ())
  slack := 0

/-- Outside of passes and drains. The passes that drains begin are voluntary. -/
def Engine.timed (host : Host σ) (fuel : ℕ) : Engine (σ × List Beat) :=
  let drain := drainTimed ((inDrainTimed host).caller host.timed)
    (passTimed true (inPass.caller host.timed) (pure ()) {}) fuel
  { drain := drain
    collect := passTimed false (inPass.caller host.timed) drain
    slack := fuel }

/-! ## Without the record -/

section

variable {call' : Caller (σ × List Beat)} {call : Caller σ}
  {collect' : Action (σ × List Beat) Bool} {collect : Action σ Bool}
  {drain' : Action (σ × List Beat) Unit} {drain : Action σ Unit} {n : ℕ} {v : Bool} {o : PassOptions}

theorem erases_loopTimed (hcall : ∀ r f, Erases Prod.fst (runFinalizer call' r f) (runFinalizer call r f))
    (hcollect : Erases Prod.fst collect' collect) :
    Erases Prod.fst (loopTimed call' collect' fuel n) (drainLoop call collect fuel n) := by
  let S := erasing (Prod.fst : σ × List Beat → σ)
  have hS : S.Withering := withering_erasing _
  induction fuel generalizing n with
  | zero => exact S.stop
  | succ fuel ih =>
    refine S.bind (S.query fun _ _ => rfl) fun head => ?_
    cases head with
    | some i =>
      refine S.bind (hS.settleHead hcall) fun d => ?_
      cases d with
      | freed => exact erases_jot ih
      | rescued => exact ih
    | none =>
      refine erases_jot <| S.bind (S.query fun _ _ => rfl) fun paced => S.ite S.pure ?_
      refine S.bind (hS.modify (fun _ _ => rfl) fun _ => .spendTrigger) fun _ =>
        S.bind (S.query fun _ _ => rfl) fun _ => S.ite ?_ S.pure
      exact S.bind hcollect fun _ => S.bind (S.query fun _ _ => rfl) fun _ => S.ite ih S.pure

theorem erases_passTimed (hcall : ∀ r f, Erases Prod.fst (runFinalizer call' r f) (runFinalizer call r f))
    (hdrain : Erases Prod.fst drain' drain) :
    Erases Prod.fst (passTimed v call' drain' o) (pass call drain o) := by
  let S := erasing (Prod.fst : σ × List Beat → σ)
  have hbody : S.rel (passBody call' o) (passBody call o) := (withering_erasing _).passBody hcall
  have hbeat : S.rel (do
      let requeued ← passBody call' o
      jot fun h => [.reset h.arena.compositeCount]
      return requeued) (passBody call o) := by
    rw [← bind_pure (passBody call o)]
    exact S.bind hbody fun _ => erases_jot S.pure
  rw [pass_eq]
  exact S.bind (erases_jot hbeat) fun _ => S.ite (S.bind hdrain fun _ => S.pure) S.pure

end

theorem erases_runFinalizer_timed {E' : Engine (σ × List Beat)} {E : Engine σ}
    (h : Engine.Erases Prod.fst E' E) (r : Handle) (f : Heap.Finalizer) :
    Erases Prod.fst (runFinalizer (E'.caller host.timed) r f) (runFinalizer (E.caller host) r f) :=
  (withering_erasing _).runFinalizer (erases_noting h)

theorem Engine.erases_inDrainTimed :
    Engine.Erases Prod.fst (inDrainTimed host) (inDrain host) where
  drain := (erasing _).pure
  collect _ := erases_passTimed (erases_runFinalizer_timed erases_inPass) (erasing _).pure
  slack := rfl

theorem Engine.erases_timed_drain :
    CountedHeap.Erases Prod.fst (timed host fuel).drain (top host fuel).drain := by
  let S := erasing (Prod.fst : σ × List Beat → σ)
  refine S.bind (S.modifyHeap (fun _ _ => rfl) fun _ => trivial) fun _ => S.bind ?_ fun _ =>
    S.modifyHeap (fun _ _ => rfl) fun _ => trivial
  exact erases_loopTimed (erases_runFinalizer_timed erases_inDrainTimed)
    (erases_passTimed (erases_runFinalizer_timed erases_inPass) (erasing _).pure)

/-- Operations whose passes are recorded do what they do otherwise. -/
theorem Engine.erases_timed : Engine.Erases Prod.fst (timed host fuel) (top host fuel) where
  drain := erases_timed_drain
  collect _ := erases_passTimed (erases_runFinalizer_timed erases_inPass) erases_timed_drain
  slack := rfl

end CountedHeap
