import CountedHeap.Program

/-!
# Actions

An action changes a heap and the state of its host. It has no result only where a bound on the
number of steps is used up. An attempt may be refused, and then keeps what it has changed so far.

* `Action`, `Attempt`: the two kinds of steps.
* `check`, `change`: an attempt reads the heap before it changes it.
* `surely`: an action within an attempt.
* `outcome`: the answer of an attempt, or why it was refused.
* `Program.run`: a program, given what its operations do.
-/

namespace CountedHeap

/-- A heap and the state of its host. -/
structure World (σ : Type) where
  heap : Heap
  host : σ

/-- A step that changes a heap and the state of its host. -/
abbrev Action (σ : Type) : Type → Type :=
  StateT (World σ) Option

/-- A step that may be refused. -/
abbrev Attempt (σ : Type) : Type → Type :=
  ExceptT HeapError (Action σ)

variable {σ α : Type}

/-- Changes the heap and answers something about the change. -/
def change (f : Heap → Heap × α) : Action σ α :=
  fun ⟨h, s⟩ =>
    let (h, a) := f h
    some (a, ⟨h, s⟩)

/-- Changes the heap. -/
def modifyHeap (f : Heap → Heap) : Action σ Unit :=
  fun ⟨h, s⟩ => some ((), ⟨f h, s⟩)

/-- Reads something off the heap. -/
def query (f : Heap → α) : Action σ α :=
  fun w => some (f w.heap, w)

/-- Reads something off the heap, or refuses. Nothing is changed. -/
def check (f : Heap → Except HeapError α) : Attempt σ α :=
  ExceptT.mk (query f)

/-- Refuses. -/
def refuse (e : HeapError) : Attempt σ α :=
  ExceptT.mk (pure (.error e))

/-- An action as an attempt that is never refused. -/
def surely (x : Action σ α) : Attempt σ α :=
  ExceptT.lift x

/-- Makes an attempt, and goes on whether or not it is refused. -/
def outcome (x : Attempt σ α) : Attempt σ (Except HeapError α) :=
  ExceptT.lift x.run

/-- Runs a program, given what each operation does. -/
def Program.run (perform : {β : Type} → Operation β → Attempt σ β) :
    Program σ α → World σ → Option (α × World σ)
  | .done a, w => some (a, w)
  | .perform op next, w =>
    match (perform op).run w with
    | none => none
    | some (answer, w) => (next answer).run perform w
  | .readHeap next, w => (next w.heap).run perform w
  | .readHost next, w => (next w.host).run perform w
  | .modifyHost f next, ⟨h, s⟩ => (next ()).run perform ⟨h, f s⟩

end CountedHeap
