import CountedHeap.Proofs.Simulation

/-!
# Erasing a part of the host's state

Where the state of a host is only carried along, an operation does the same to the heap whatever that
state is. An engine may therefore keep notes in the state of its host: when these are erased, every
operation does what it does without them.

* `World.erase`: a world whose host has less of a state.
* `Erases`, `erasing`: an action does what another one does when a part of the state is erased.
* `Erases.run`, `Erases.exists_run`: what is done with that part is done without it, and the other way round.
* `Engine.Erases.perform`: engines that agree in this way make all operations agree.
* `jot`: takes notes by the way.
* `Program.noting`: a program that takes notes wherever it could look at the heap, and otherwise does
  the same.
* `Program.logging`: a program that logs what its operations do, and otherwise does the same.
* `erases_inPass`, `erases_inDrain`, `erases_top`: the engines agree if the native functions do.
-/

namespace CountedHeap

variable {σ τ α β ε : Type} {π : τ → σ}

/-- A world whose host has less of a state. -/
def World.erase (π : τ → σ) (w : World τ) : World σ :=
  ⟨w.heap, π w.host⟩

/-- An action does what another one does when a part of the state of the host is erased. -/
def Erases (π : τ → σ) (x' : Action τ α) (x : Action σ α) : Prop :=
  ∀ w, (x' w).map (fun p => (p.1, p.2.erase π)) = x (w.erase π)

/-- Erasing a part of the state respects any change of the heap. -/
def erasing (π : τ → σ) : Simulation τ σ where
  rel := Erases π
  step _ _ := True
  pure _ := rfl
  bind := by
    intro α β x' x f' f hx hf w
    have hb : (x >>= f) (w.erase π) = (x (w.erase π)).bind fun p => f p.1 p.2 := rfl
    have hb' : (x' >>= f') w = (x' w).bind fun p => f' p.1 p.2 := rfl
    rw [hb, hb', ← hx w]
    cases x' w with
    | none => rfl
    | some p => exact hf p.1 p.2
  change _ _ _ := rfl
  query _ _ := rfl
  fail _ _ := rfl
  stop _ := rfl

theorem withering_erasing (π : τ → σ) : (erasing π).Withering :=
  fun _ _ _ => trivial

section

variable {x' : Action τ α} {x : Action σ α} {w : World τ} {a : α} {Q : α → World σ → Prop}

/-- What is done with a part of the state is done without it. -/
theorem Erases.run {w' : World τ} (hx : Erases π x' x) (e : x' w = some (a, w')) :
    x (w.erase π) = some (a, w'.erase π) := by
  rw [← hx w, e]
  rfl

/-- What is done without a part of the state is done with it. -/
theorem Erases.exists_run {w₁ : World σ} (hx : Erases π x' x) (e : x (w.erase π) = some (a, w₁)) :
    ∃ w', x' w = some (a, w') ∧ w'.erase π = w₁ := by
  rw [← hx w] at e
  obtain ⟨⟨a', w'⟩, e', he⟩ := Option.map_eq_some_iff.mp e
  cases he
  exact ⟨w', e', rfl⟩

/-- What holds when a part of the state is there holds without it. -/
theorem Erases.after (hx : Erases π x' x) (hQ : After x' w fun a w' => Q a (w'.erase π)) :
    After x (w.erase π) Q := by
  intro a w₂ e
  obtain ⟨w', e', rfl⟩ := hx.exists_run e
  exact hQ a w' e'

/-- What holds without a part of the state holds when it is there. -/
theorem Erases.lift (hx : Erases π x' x) (hQ : After x (w.erase π) Q) :
    After x' w fun a w' => Q a (w'.erase π) :=
  fun _ _ e => hQ _ _ (hx.run e)

end

/-- An engine that keeps notes in the state of its host and otherwise does what another one does. -/
structure Engine.Erases (π : τ → σ) (E' : Engine τ) (E : Engine σ) : Prop where
  drain : CountedHeap.Erases π E'.drain E.drain
  collect : ∀ o, CountedHeap.Erases π (E'.collect o) (E.collect o)
  slack : E'.slack = E.slack

/-- Every operation does what it does when notes are erased. -/
theorem Engine.Erases.perform {E' : Engine τ} {E : Engine σ} (h : Engine.Erases π E' E)
    (op : Operation β) : CountedHeap.Erases π (E'.perform op).run (E.perform op).run := by
  have hagree : (erasing π).Agree E' E :=
    ⟨fun _ => (erasing π).bind ((erasing π).change Heap.oblivious_release fun _ => trivial) fun _ =>
      (erasing π).ite h.drain (erasing π).pure, h.collect, h.slack⟩
  exact hagree.perform_all (fun _ _ _ => trivial) op

/-! ## Actions and programs that take notes -/

/-- Takes notes of the heap. -/
def jot (look : Heap → List ε) : Action (σ × List ε) Unit :=
  fun w => some ((), ⟨w.heap, w.host.1, w.host.2 ++ look w.heap⟩)

section

variable {look : Heap → List ε}

/-- Notes are taken by the way. -/
theorem erases_jot {x' : Action (σ × List ε) α} {x : Action σ α} (hx : Erases Prod.fst x' x) :
    Erases Prod.fst (jot look >>= fun _ => x') x :=
  fun w => hx ⟨w.heap, w.host.1, w.host.2 ++ look w.heap⟩

@[simp] theorem after_jot {w : World (σ × List ε)} {Q : Unit → World (σ × List ε) → Prop} :
    After (jot look) w Q ↔ Q () ⟨w.heap, w.host.1, w.host.2 ++ look w.heap⟩ := by
  constructor
  · intro h
    exact h _ _ rfl
  · intro h a w' e
    cases e
    exact h

end

/-- Takes notes of the heap, and goes on. -/
def Program.note (look : Heap → List ε) (p : Program (σ × List ε) α) : Program (σ × List ε) α :=
  .readHeap fun h => .modifyHost (fun s => (s.1, s.2 ++ look h)) fun _ => p

/-- A program that takes notes of the heap at each of its steps, and otherwise does the same. -/
def Program.noting (look : Heap → List ε) : Program σ α → Program (σ × List ε) α
  | .done a => note look (.done a)
  | .perform op next => note look (.perform op fun answer => (next answer).noting look)
  | .readHeap next => note look (.readHeap fun h => (next h).noting look)
  | .readHost next => note look (.readHost fun s => (next s.1).noting look)
  | .modifyHost f next =>
    note look (.modifyHost (fun s => (f s.1, s.2)) fun u => (next u).noting look)

/-- A host whose native functions take notes of the heap at each of their steps. -/
def Host.noting (look : Heap → List ε) (host : Host σ) : Host (σ × List ε) :=
  fun id v => (host id v).noting look

variable {look : Heap → List ε} {host : Host σ}

theorem Engine.Erases.run_noting {E' : Engine (σ × List ε)} {E : Engine σ}
    (h : Engine.Erases Prod.fst E' E) (p : Program σ α) :
    CountedHeap.Erases Prod.fst ((p.noting look).run E'.perform) (p.run E.perform) := by
  induction p with
  | done a => exact fun _ => rfl
  | perform op next ih =>
    rintro ⟨heap, s, notes⟩
    have hop := h.perform op ⟨heap, s, notes ++ look heap⟩
    simp only [Program.noting, Program.note, Program.run]
    rw [show World.erase Prod.fst ⟨heap, s, notes⟩ =
      World.erase Prod.fst ⟨heap, s, notes ++ look heap⟩ from rfl, ← hop]
    cases (E'.perform op).run ⟨heap, s, notes ++ look heap⟩ with
    | none => rfl
    | some p => exact ih p.1 p.2
  | readHeap next ih => exact fun w => ih w.heap ⟨w.heap, w.host.1, w.host.2 ++ look w.heap⟩
  | readHost next ih => exact fun w => ih w.host.1 ⟨w.heap, w.host.1, w.host.2 ++ look w.heap⟩
  | modifyHost f next ih => exact fun w => ih () ⟨w.heap, f w.host.1, w.host.2 ++ look w.heap⟩

/-- The native functions of a host do what those of another one do when notes are erased. -/
def Host.Erases (π : τ → σ) (host' : Host τ) (host : Host σ) : Prop :=
  ∀ ⦃E' : Engine τ⦄ ⦃E : Engine σ⦄, Engine.Erases π E' E → ∀ id v,
    CountedHeap.Erases π (E'.caller host' id v) (E.caller host id v)

theorem erases_noting : Host.Erases Prod.fst (host.noting look) host :=
  fun _ _ h _ _ => h.run_noting _

/-! ## Programs that log their operations -/

/-- A program that logs what its operations do, and otherwise does the same. -/
def Program.logging (look : ∀ {β : Type}, Operation β → Heap → Except HeapError β → Heap → List ε) :
    Program σ α → Program (σ × List ε) α
  | .done a => .done a
  | .perform op next => .readHeap fun h => .perform op fun answer => .readHeap fun h' =>
    .modifyHost (fun s => (s.1, s.2 ++ look op h answer h')) fun _ => (next answer).logging look
  | .readHeap next => .readHeap fun h => (next h).logging look
  | .readHost next => .readHost fun s => (next s.1).logging look
  | .modifyHost f next => .modifyHost (fun s => (f s.1, s.2)) fun u => (next u).logging look

/-- A host whose native functions log what their operations do. -/
def Host.logging (look : ∀ {β : Type}, Operation β → Heap → Except HeapError β → Heap → List ε)
    (host : Host σ) : Host (σ × List ε) :=
  fun id v => (host id v).logging look

theorem erases_logging
    {look : ∀ {β : Type}, Operation β → Heap → Except HeapError β → Heap → List ε} :
    Host.Erases Prod.fst (host.logging look) host := by
  intro E' E h id v
  change CountedHeap.Erases Prod.fst (((host id v).logging look).run E'.perform)
    ((host id v).run E.perform)
  induction host id v with
  | done a => exact fun _ => rfl
  | perform op next ih =>
    intro w
    have hop := h.perform op w
    simp only [Program.logging, Program.run]
    rw [← hop]
    cases (E'.perform op).run w with
    | none => rfl
    | some p => exact ih p.1 _
  | readHeap next ih => exact fun w => ih w.heap w
  | readHost next ih => exact fun w => ih w.host.1 w
  | modifyHost f next ih => exact fun w => ih () ⟨w.heap, f w.host.1, w.host.2⟩

/-! ## The engines -/

section

variable {host' : Host τ} {fuel : ℕ}

theorem erases_inPass : Engine.Erases π Engine.inPass Engine.inPass where
  drain := (erasing π).pure
  collect _ := (erasing π).pure
  slack := rfl

theorem Host.Erases.runFinalizer {E' : Engine τ} {E : Engine σ} (hh : Host.Erases π host' host)
    (h : Engine.Erases π E' E) (r : Handle) (f : Heap.Finalizer) :
    CountedHeap.Erases π (runFinalizer (E'.caller host') r f) (runFinalizer (E.caller host) r f) :=
  (withering_erasing π).runFinalizer (hh h)

theorem erases_inDrain (hh : Host.Erases π host' host) :
    Engine.Erases π (Engine.inDrain host') (Engine.inDrain host) where
  drain := (erasing π).pure
  collect _ := (withering_erasing π).pass (hh.runFinalizer erases_inPass) (erasing π).pure
  slack := rfl

theorem erases_top (hh : Host.Erases π host' host) :
    Engine.Erases π (Engine.top host' fuel) (Engine.top host fuel) := by
  have hdrain : CountedHeap.Erases π (Engine.top host' fuel).drain (Engine.top host fuel).drain :=
    (withering_erasing π).drainQueue (hh.runFinalizer (erases_inDrain hh)) (fun _ _ => trivial)
      ((erases_inDrain hh).collect {})
  exact ⟨hdrain, fun _ => (withering_erasing π).pass (hh.runFinalizer erases_inPass) hdrain, rfl⟩

end

end CountedHeap
