import CountedHeap.Reclaim.Release

/-!
# Running finalizers

A finalizer is called with the dying cell as its only argument. Whether it fails or panics, the
caller goes on; failures are only counted.
-/

namespace CountedHeap

variable {σ : Type}

/-- Calls a native function with a value. -/
abbrev Caller (σ : Type) : Type :=
  NativeId → Value → Action σ Ending

/-- Runs the finalizer of a cell. A value that cannot be called counts as a failure. -/
def runFinalizer (call : Caller σ) (r : Handle) (f : Heap.Finalizer) : Action σ Unit := do
  modifyHeap (·.modifyCounters fun c => { c with finalizerRuns := c.finalizerRuns + 1 })
  let ending ←
    match ← query (·.nativeOf f.function) with
    | some id => call id (.ref r)
    | none => pure .failed
  if ending ≠ .returned then
    modifyHeap (·.modifyCounters fun c => { c with finalizerErrors := c.finalizerErrors + 1 })

/-- The cell in slot `i` gets the mark of a finalized cell and one count that its finalizer holds. -/
def Heap.beginFinalizer (h : Heap) (i : Nat) : Heap :=
  h.modifyAt i fun c =>
    (c.modifyMarks ({ · with finalized := true })).modifyHeader .acquire

/-- Takes the count of the finalizer back; nothing is freed here. -/
def Heap.endFinalizer (h : Heap) (i : Nat) : Heap :=
  h.modifyAt i (·.modifyHeader .release)

end CountedHeap
