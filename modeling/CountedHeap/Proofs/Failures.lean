import CountedHeap.Proofs.Erasure
import CountedHeap.Proofs.Invariance

/-!
# Finalizers that fail

Whether a finalizer returns, fails or panics is only counted. Two runs whose native functions do the same
and only end differently therefore go through the same heaps, but for this number: no count stays taken,
no mark stays set and no other cell is passed over because a finalizer has failed, wherever it has run.

* `Heap.Twin`, `World.Twin`: heaps that differ in the number at most, and worlds with such heaps.
* `Program.Alike`: programs that do the same and may end differently.
* `twin`, `Alike.run`, `finalizes_twin`: operations and finalizers lead from twins to twins.
* `Host.called`: a host that records the calls of its native functions.
* `Twins`: the worlds that two runs of the same operations lead to.
* `failures_invisible`: all that can be seen of them is the same.
-/

namespace CountedHeap

variable {σ τ α β : Type} {R : τ → σ → Prop}

/-- Heaps that differ at most in how many finalizers have failed. -/
def Heap.Twin (h' h : Heap) : Prop :=
  h'.withErrors 0 = h.withErrors 0

/-- Worlds of such heaps. The states of the hosts are related. -/
structure World.Twin (R : τ → σ → Prop) (w' : World τ) (w : World σ) : Prop where
  heap : w'.heap.Twin w.heap
  host : R w'.host w.host

namespace Heap.Twin

variable {h' h : Heap}

theorem blind {f : Heap → α} (hf : Blind f) (hh : h'.Twin h) : f h' = f h := by
  rw [← hf h' 0, hh, hf h 0]

theorem oblivious {f : Heap → Heap × α} (hf : Oblivious f) (hh : h'.Twin h) :
    (f h').1.Twin (f h).1 ∧ (f h').2 = (f h).2 := by
  have hsame : ((f h').1.withErrors 0, (f h').2) = ((f h).1.withErrors 0, (f h).2) := by
    rw [← hf h' 0, hh, hf h 0]
  exact Prod.mk.inj hsame

end Heap.Twin

/-! ## Actions that lead from twins to twins -/

/-- Related results go on to related results. -/
theorem rel_bind {α' β' : Type} {P : α' → α → Prop} {Q : β' → β → Prop} {x' : Option α'} {x : Option α}
    {f' : α' → Option β'} {f : α → Option β} (hx : Option.Rel P x' x)
    (hf : ∀ a' a, P a' a → Option.Rel Q (f' a') (f a)) : Option.Rel Q (x'.bind f') (x.bind f) := by
  cases hx with
  | none => exact .none
  | some ha => exact hf _ _ ha

theorem rel_mono {α' : Type} {P Q : α' → α → Prop} {x' : Option α'} {x : Option α}
    (hx : Option.Rel P x' x) (h : ∀ a' a, P a' a → Q a' a) : Option.Rel Q x' x := by
  cases hx with
  | none => exact .none
  | some ha => exact .some (h _ _ ha)

/-- From twins to twins with the same answer, or to no result. -/
def twin (R : τ → σ → Prop) : Simulation τ σ where
  rel x' x := ∀ w' w, w'.Twin R w →
    Option.Rel (fun p' p => p'.1 = p.1 ∧ p'.2.Twin R p.2) (x' w') (x w)
  step _ _ := True
  pure _ _ hw := .some ⟨rfl, hw⟩
  bind := by
    intro α β x' x f' f hx hf w' w hw
    refine rel_bind (hx w' w hw) ?_
    rintro ⟨a', v'⟩ ⟨a, v⟩ ⟨ha, hv⟩
    obtain rfl : a' = a := ha
    exact hf _ v' v hv
  change hf _ _ _ hw :=
    have hsame := hw.heap.oblivious hf
    .some ⟨hsame.2, hsame.1, hw.host⟩
  query hf _ _ hw := .some ⟨hw.heap.blind hf, hw⟩
  fail _ _ _ hw := .some ⟨rfl, hw.heap, hw.host⟩
  stop _ _ _ := .none

theorem withering_twin : (twin R).Withering :=
  fun _ _ _ => trivial

theorem turning_twin : (twin R).Turning :=
  fun _ _ _ => trivial

/-! ## Programs that do the same -/

/-- Programs that perform the same operations, whatever these answer and whatever number of finalizers has
failed in the heaps that they look at. They may end differently. -/
inductive Program.Alike (R : τ → σ → Prop) : Program τ Ending → Program σ Ending → Prop where
  | done (e' e : Ending) : Alike R (.done e') (.done e)
  | perform {β : Type} (op : Operation β) {next' : Except HeapError β → Program τ Ending}
      {next : Except HeapError β → Program σ Ending} :
      (∀ answer, Alike R (next' answer) (next answer)) → Alike R (.perform op next') (.perform op next)
  | readHeap {next' : Heap → Program τ Ending} {next : Heap → Program σ Ending} :
      (∀ h' h, h'.Twin h → Alike R (next' h') (next h)) → Alike R (.readHeap next') (.readHeap next)
  | readHost {next' : τ → Program τ Ending} {next : σ → Program σ Ending} :
      (∀ s' s, R s' s → Alike R (next' s') (next s)) → Alike R (.readHost next') (.readHost next)
  | modifyHost {f' : τ → τ} {f : σ → σ} {next' : Unit → Program τ Ending}
      {next : Unit → Program σ Ending} :
      (∀ s' s, R s' s → R (f' s') (f s)) → Alike R (next' ()) (next ()) →
      Alike R (.modifyHost f' next') (.modifyHost f next)

theorem Program.run_perform {perform : {β : Type} → Operation β → Attempt σ β} {op : Operation β}
    {next : Except HeapError β → Program σ α} {w : World σ} :
    (Program.perform op next).run perform w =
      ((perform op).run w).bind fun p => (next p.1).run perform p.2 := by
  rw [Program.run]
  cases (perform op).run w <;> rfl

/-- They lead from twins to twins wherever operations do. -/
theorem Program.Alike.run {E' : Engine τ} {E : Engine σ} (hE : (twin R).Agree E' E)
    {p' : Program τ Ending} {p : Program σ Ending} (hp : p'.Alike R p) :
    ∀ w' w, w'.Twin R w →
      Option.Rel (fun q' q => q'.2.Twin R q.2) (p'.run E'.perform w') (p.run E.perform w) := by
  induction hp with
  | done e' e => exact fun _ _ hw => .some hw
  | perform op _ ih =>
    intro w' w hw
    rw [Program.run_perform, Program.run_perform]
    refine rel_bind (hE.perform_all turning_twin op w' w hw) ?_
    rintro ⟨a', v'⟩ ⟨a, v⟩ ⟨ha, hv⟩
    obtain rfl : a' = a := ha
    exact ih _ v' v hv
  | readHeap _ ih => exact fun w' w hw => ih _ _ hw.heap w' w hw
  | readHost _ ih => exact fun w' w hw => ih _ _ hw.host w' w hw
  | modifyHost hf _ ih => exact fun w' w hw => ih _ _ ⟨hw.heap, hf _ _ hw.host⟩

/-! ## Engines -/

section

variable {host' : Host τ} {host : Host σ} (hhosts : ∀ id v, (host' id v).Alike R (host id v))
include hhosts

/-- A finalizer may end in any way. -/
theorem finalizes_twin : (twin R).Finalizes .plain .plain host' host := by
  intro E' E hE r f
  -- Only the number changes after the call.
  have hcounted : ∀ (e' e : Ending) (w' : World τ) (w : World σ), w'.Twin R w →
      Option.Rel (fun p' p => p'.1 = p.1 ∧ p'.2.Twin R p.2)
        ((if e' ≠ .returned then modifyHeap Heap.countFailure else pure ()) w')
        ((if e ≠ .returned then modifyHeap Heap.countFailure else pure ()) w) := by
    intro e' e w' w hw
    split <;> split <;> exact .some ⟨rfl, hw.heap, hw.host⟩
  refine (twin R).bind ((twin R).modifyHeap (fun _ _ => rfl) fun _ => trivial) fun _ =>
    (twin R).bind ((twin R).query fun _ _ => rfl) fun found => ?_
  cases found with
  | some id =>
    intro w' w hw
    exact rel_bind ((hhosts id _).run hE w' w hw) fun p' p hp => hcounted p'.1 p.1 p'.2 p.2 hp
  | none => exact hcounted .failed .failed

theorem agree_twin {fuel : ℕ} : (twin R).Agree (Engine.top host' fuel) (Engine.top host fuel) := by
  have hdrain : (twin R).rel (Engine.top host' fuel).drain (Engine.top host fuel).drain :=
    Simulation.rel_drain withering_twin (finalizes_twin hhosts) fun _ _ => trivial
  exact Simulation.agree_top withering_twin (finalizes_twin hhosts) hdrain

/-- Operations at the top lead from twins to twins, and have the same answers. -/
theorem perform_twin (fuel : ℕ) (op : Operation β) {w' : World τ} {w : World σ} (hw : w'.Twin R w) :
    Option.Rel (fun p' p => p'.1 = p.1 ∧ p'.2.Twin R p.2)
      (((Engine.top host' fuel).perform op).run w') (((Engine.top host fuel).perform op).run w) :=
  (agree_twin hhosts).perform_all turning_twin op w' w hw

end

/-! ## Runs that record the calls of native functions -/

/-- A native function that is called, and the value that it is called with. -/
structure Call where
  function : NativeId
  value : Value
deriving DecidableEq

/-- A host that records the calls of its native functions, which otherwise do the same. -/
def Host.called (host : Host σ) : Host (σ × List Call) :=
  fun id v => .modifyHost (fun s => (s.1, s.2 ++ [⟨id, v⟩])) fun _ =>
    (host id v).logging fun _ _ _ _ => []

theorem erases_called {host : Host σ} : Host.Erases Prod.fst host.called host := by
  intro E' E hE id v w
  have hlogged : Host.Erases Prod.fst (host.logging fun _ _ _ _ => ([] : List Call)) host :=
    erases_logging
  exact hlogged hE id v ⟨w.heap, w.host.1, w.host.2 ++ [⟨id, v⟩]⟩

/-- The states of the hosts are related, and the same calls have been recorded. -/
def Recorded (R : τ → σ → Prop) (s' : τ × List Call) (s : σ × List Call) : Prop :=
  R s'.1 s.1 ∧ s'.2 = s.2

theorem Program.Alike.logging {p' : Program τ Ending} {p : Program σ Ending} (hp : p'.Alike R p) :
    (p'.logging fun _ _ _ _ => []).Alike (Recorded R) (p.logging fun _ _ _ _ => []) := by
  induction hp with
  | done e' e => exact .done e' e
  | perform op _ ih =>
    refine .readHeap fun _ _ _ => .perform op fun answer => .readHeap fun _ _ _ => ?_
    exact .modifyHost (fun s' s hs => ⟨hs.1, by rw [hs.2]⟩) (ih answer)
  | readHeap _ ih => exact .readHeap ih
  | readHost _ ih => exact .readHost fun s' s hs => ih _ _ hs.1
  | modifyHost hf _ ih => exact .modifyHost (fun s' s hs => ⟨hf _ _ hs.1, hs.2⟩) ih

theorem alike_called {host' : Host τ} {host : Host σ}
    (hhosts : ∀ id v, (host' id v).Alike R (host id v)) (id : NativeId) (v : Value) :
    (host'.called id v).Alike (Recorded R) (host.called id v) :=
  .modifyHost (fun _ _ hs => ⟨hs.1, by rw [hs.2]⟩) (hhosts id v).logging

/-- The worlds that two runs of the same operations lead to, from the same heap. Meanwhile the clients may
do what they like with the states of their hosts, as long as these go on to be related. -/
inductive Twins (R : τ → σ → Prop) (host' : Host τ) (host : Host σ) :
    World (τ × List Call) → World (σ × List Call) → Prop where
  | start (h : Heap) {s' : τ} {s : σ} : R s' s → Twins R host' host ⟨h, s', []⟩ ⟨h, s, []⟩
  | perform {β : Type} {op : Operation β} {fuel : ℕ} {w' v' : World (τ × List Call)}
      {w v : World (σ × List Call)} {answer' answer : Except HeapError β} :
      Twins R host' host w' w →
      ((Engine.top host'.called fuel).perform op).run w' = some (answer', v') →
      ((Engine.top host.called fuel).perform op).run w = some (answer, v) → Twins R host' host v' v
  | host {w' : World (τ × List Call)} {w : World (σ × List Call)} {s' : τ} {s : σ} :
      Twins R host' host w' w → R s' s →
      Twins R host' host ⟨w'.heap, s', w'.host.2⟩ ⟨w.heap, s, w.host.2⟩

section

variable {host' : Host τ} {host : Host σ} (hhosts : ∀ id v, (host' id v).Alike R (host id v))
  {w' : World (τ × List Call)} {w : World (σ × List Call)}
include hhosts

theorem Twins.twin (hw : Twins R host' host w' w) : w'.Twin (Recorded R) w := by
  induction hw with
  | start h hs => exact ⟨rfl, hs, rfl⟩
  | @perform β op fuel w' v' w v answer' answer _ e' e ih =>
    have hop := perform_twin (alike_called hhosts) fuel op ih
    rw [e', e] at hop
    cases hop with
    | some hv => exact hv.2
  | host _ hs ih => exact ⟨ih.heap, hs, ih.host.2⟩

/-- That finalizers fail or panic cannot be seen. Let the native functions of two hosts perform the same
operations and end in whatever way. In two runs of the same operations from the same heap all heaps are the
same, but for the number of finalizers that have failed, and so are all answers, and the finalizers that
have been called with the cells that they were called for, in their order. Recording these makes no other
difference. -/
theorem failures_invisible (hw : Twins R host' host w' w) :
    w'.heap.withErrors 0 = w.heap.withErrors 0 ∧ w'.host.2 = w.host.2 ∧
    ∀ fuel (β : Type) (op : Operation β),
      Erases Prod.fst ((Engine.top host'.called fuel).perform op).run
        ((Engine.top host' fuel).perform op).run ∧
      Erases Prod.fst ((Engine.top host.called fuel).perform op).run
        ((Engine.top host fuel).perform op).run ∧
      Option.Rel (fun p' p => p'.1 = p.1 ∧ p'.2.heap.withErrors 0 = p.2.heap.withErrors 0 ∧
          p'.2.host.2 = p.2.host.2)
        (((Engine.top host'.called fuel).perform op).run w')
        (((Engine.top host.called fuel).perform op).run w) := by
  have htwin := hw.twin hhosts
  refine ⟨htwin.heap, htwin.host.2, fun fuel β op => ⟨(erases_top erases_called).perform op,
    (erases_top erases_called).perform op, ?_⟩⟩
  exact rel_mono (perform_twin (alike_called hhosts) fuel op htwin) fun _ _ hp =>
    ⟨hp.1, hp.2.heap, hp.2.host.2⟩

theorem Twins.advance (hw : Twins R host' host w' w) (fuel : ℕ) (op : Operation β) :
    Twins R host' host (advance host'.called fuel op w') (advance host.called fuel op w) := by
  have hop := perform_twin (alike_called hhosts) fuel op (hw.twin hhosts)
  unfold CountedHeap.advance
  cases e' : ((Engine.top host'.called fuel).perform op).run w' <;>
    cases e : ((Engine.top host.called fuel).perform op).run w <;> rw [e', e] at hop
  · exact hw
  · cases hop
  · cases hop
  · exact .perform hw e' e

end

/-- The host whose native functions make a buffer and then end in a certain way. -/
def Host.ending (e : Ending) : Host Unit :=
  fun _ _ => .perform (.allocBuffer 1 false) fun _ => .done e

theorem alike_ending (e' e : Ending) (id : NativeId) (v : Value) :
    (Host.ending e' id v).Alike (fun _ _ => True) (Host.ending e id v) :=
  .perform _ fun _ => .done e' e

/-- Two objects with finalizers have been dropped. The second one refers to itself, so that only a pass
finalizes it. -/
def dismissed (e : Ending) : World (Unit × List Call) :=
  let host := (Host.ending e).called
  let w := advance host 5 .registerNative ⟨.empty {}, (), []⟩
  let w := advance host 5 (.allocObject none) w
  let w := advance host 5 (.setFinalizer ⟨0, 0⟩ (.native ⟨0⟩)) w
  let w := advance host 5 (.allocObject none) w
  let w := advance host 5 (.setFinalizer ⟨2, 0⟩ (.native ⟨0⟩)) w
  let w := advance host 5 (.intern "k" false) w
  let w := advance host 5 (.putProp ⟨2, 0⟩ ⟨3, 0⟩ (.ref ⟨2, 0⟩)) w
  let w := advance host 5 (.release (.ref ⟨0, 0⟩)) w
  let w := advance host 5 (.release (.ref ⟨2, 0⟩)) w
  advance host 5 (.collect {}) w

theorem twins_dismissed (e' e : Ending) : Twins (fun _ _ => True) (.ending e') (.ending e)
    (dismissed e') (dismissed e) := by
  unfold dismissed
  repeat' refine Twins.advance (alike_ending e' e) ?_ _ _
  exact .start _ trivial

/-- Whether the finalizers of both objects panic or return, the heaps are the same but for the number. -/
theorem failures_invisible_dismissed :
    Twins (fun _ _ => True) (.ending .panicked) (.ending .returned) (dismissed .panicked)
      (dismissed .returned) ∧
    (dismissed .panicked).heap.withErrors 0 = (dismissed .returned).heap.withErrors 0 ∧
    (dismissed .panicked).host.2 = [⟨⟨0⟩, .ref ⟨0, 0⟩⟩, ⟨⟨0⟩, .ref ⟨2, 0⟩⟩] ∧
    (dismissed .panicked).heap.counters.finalizerErrors = 2 ∧
    (dismissed .returned).heap.counters.finalizerErrors = 0 :=
  have htwins := twins_dismissed .panicked .returned
  ⟨htwins, (failures_invisible (alike_ending .panicked .returned) htwins).1, by decide +kernel,
    by decide +kernel, by decide +kernel⟩

end CountedHeap
