import CountedHeap.Operation

/-!
# Programs

A native function is a program: a finite tree of operations, of looks at the heap, and of looks at
and changes to a state of the host's own. Whatever a finalizer may do to a heap is one of these.

* `Program.bind`: one program after another.
* `Host`: the programs of the registered native functions.
-/

namespace CountedHeap

/-- A program of a host with state `σ` whose result has type `α`. -/
inductive Program (σ : Type) (α : Type) : Type 1 where
  /-- Ends with a result. -/
  | done (a : α) : Program σ α
  /-- Performs an operation and goes on with its answer. -/
  | perform {β : Type} (op : Operation β) (next : Except HeapError β → Program σ α) : Program σ α
  /-- Looks at the heap. -/
  | readHeap (next : Heap → Program σ α) : Program σ α
  /-- Looks at the state of the host. -/
  | readHost (next : σ → Program σ α) : Program σ α
  /-- Changes the state of the host. -/
  | modifyHost (f : σ → σ) (next : Unit → Program σ α) : Program σ α

namespace Program

/-- One program, then another one that depends on its result. -/
def bind {σ α β : Type} : Program σ α → (α → Program σ β) → Program σ β
  | done a, f => f a
  | perform op next, f => perform op fun r => (next r).bind f
  | readHeap next, f => readHeap fun h => (next h).bind f
  | readHost next, f => readHost fun s => (next s).bind f
  | modifyHost g next, f => modifyHost g fun u => (next u).bind f

instance {σ : Type} : Monad (Program σ) where
  pure := done
  bind := bind

/-- Performs one operation. -/
def ofOperation {σ β : Type} (op : Operation β) : Program σ (Except HeapError β) :=
  perform op done

/-- Performs one operation, and ends if it is refused. -/
def attempt {σ β : Type} (op : Operation β) : ExceptT HeapError (Program σ) β :=
  ExceptT.mk (ofOperation op)

/-- Reads something off the heap. -/
def ofQuery {σ α : Type} (f : Heap → α) : Program σ α :=
  readHeap fun h => done (f h)

/-- The state of the host, as far as a function tells. -/
def ofState {σ α : Type} (f : σ → α) : Program σ α :=
  readHost fun s => done (f s)

/-- Changes the state of the host. -/
def modifyState {σ : Type} (f : σ → σ) : Program σ Unit :=
  modifyHost f done

end Program

/-- How a call of a native function ends. -/
inductive Ending where
  | returned
  | failed
  | panicked
deriving DecidableEq

/-- What each registered native function does when it is called with a value. -/
abbrev Host (σ : Type) : Type 1 :=
  NativeId → Value → Program σ Ending

end CountedHeap
