import CountedHeap.Mutation.Allocation

/-!
# Writing and resizing buffers

* `bufferWrite`: one byte.
* `Engine.bufferResize`: another length, for which the bytes of the heap have to suffice.
-/

namespace CountedHeap

namespace Heap

/-- Whether a handle names a buffer that can be resized. -/
def checkDynamic (h : Heap) (r : Handle) : Except HeapError Unit := do
  let b ← h.buffer r
  if b.dynamic then pure () else throw (.misuse .bufferNotDynamic)

/-- Gives a buffer another length, and accounts it. -/
def resizeBuffer (h : Heap) (r : Handle) (length : Nat) : Heap :=
  (h.modifyArena (·.account r.index (Body.cellBytes + length))).modifyBuffer r (·.resize length)

end Heap

variable {σ : Type}

/-- Writes one byte; whether the position is within the buffer. -/
def bufferWrite (r : Handle) (i : Nat) (byte : UInt8) : Attempt σ Bool := do
  let size ← check fun h => (h.buffer r).map Buffer.size
  if i < size then
    surely (modifyHeap (·.modifyBuffer r (·.write i byte)))
    return true
  else return false

/-- Gives a dynamic buffer another length. When the heap is full an emergency pass runs first, which
may free the buffer itself. -/
def Engine.bufferResize (E : Engine σ) (r : Handle) (length : Nat) : Attempt σ Unit := do
  check (·.checkDynamic r)
  let fits (h : Heap) : Bool := h.arena.canResize r.index (Body.cellBytes + length)
  if !(← surely (query fits)) then
    let _ ← surely (E.collect { emergency := true })
    let _ ← check (·.cell r)
    if !(← surely (query fits)) then refuse .outOfMemory
  surely (modifyHeap (·.resizeBuffer r length))

end CountedHeap
