import CountedHeap.Reclaim.Release

/-!
# Roots

A root holds a value, and one count if the value is a reference. The number of a removed root is
given out again.

* `addRoot`, `Engine.setRoot`, `Engine.removeRoot`: make, overwrite and remove a root.
-/

namespace CountedHeap

namespace Heap

/-- Holds a value in the root that was removed last, or in a new one; its number. -/
def holdRoot (h : Heap) (v : Value) : Heap × Nat :=
  let h := h.retainAll v.refs
  match h.freeRoots with
  | n :: rest => ({ h with roots := h.roots.setIfInBounds n (some v), freeRoots := rest }, n)
  | [] =>
    let n := h.roots.size
    ({ h with roots := h.roots.push (some v) }, n)

/-- Whether there is a root; the value it holds. -/
def checkRoot (h : Heap) (n : Nat) : Except HeapError Value :=
  match h.root? n with
  | some v => .ok v
  | none => .error .invalidHandle

/-- Overwrites a root. -/
def storeRoot (h : Heap) (n : Nat) (v : Value) : Heap :=
  { h with roots := h.roots.setIfInBounds n (some v) }.retainAll v.refs

/-- Removes a root; the value it held. -/
def dropRoot (h : Heap) (n : Nat) : Heap × Option Value :=
  match h.root? n with
  | some v => ({ h with roots := h.roots.setIfInBounds n none, freeRoots := n :: h.freeRoots }, some v)
  | none => (h, none)

end Heap

variable {σ : Type}

/-- Holds a value in a root; its number. -/
def addRoot (v : Value) : Attempt σ Nat := do
  check (·.checkValue v)
  surely (change (·.holdRoot v))

namespace Engine

/-- Overwrites a root. -/
def setRoot (E : Engine σ) (n : Nat) (v : Value) : Attempt σ Unit := do
  check (·.checkValue v)
  let old ← check (·.checkRoot n)
  surely (modifyHeap (·.storeRoot n v))
  surely (E.releaseAll old.refs)

/-- Removes a root; the value it held, which it counts no longer. -/
def removeRoot (E : Engine σ) (n : Nat) : Attempt σ (Option Value) := do
  let old ← surely (change (·.dropRoot n))
  surely (E.releaseAll (old.elim [] Value.refs))
  return old

end Engine

end CountedHeap
