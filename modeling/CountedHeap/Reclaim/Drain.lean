import CountedHeap.Reclaim.Finalize

/-!
# Working off the queue

The queue is worked off from its head. The finalizer of a cell runs, if it has not run, while the
cell is still the head; a cell that something counts afterwards is rescued, and any other is freed
and gives its references back, which may queue further cells. When the queue is empty and the cells
freed have used up the trigger counter, a voluntary pass runs, and the queue is worked off again.

* `settleHead`: deals with one cell.
* `drainQueue`: deals with all of them.
-/

namespace CountedHeap

/-- What became of a cell that left the queue. -/
inductive Departure where
  | freed
  | rescued
deriving DecidableEq

namespace Heap

/-- Empties the slot of a composite cell that is on no list, and gives its references back. -/
def freeComposite (h : Heap) (i : Nat) : Heap :=
  match h.arena.cellAt? i with
  | none => h
  | some c =>
    let h := (h.forgetCurrent i).modifyArena (·.release i)
    let h := h.modifyCounters fun c => { c with queueFrees := c.queueFrees + 1 }
    h.releaseQuietly c.body.refs

/-- The finalizer of the queue's head, unless it has run. -/
def headFinalizer (h : Heap) (i : Nat) : Option Finalizer :=
  match h.arena.cellAt? i with
  | some c =>
    if c.header.marks.finalized then none else h.resolveFinalizer (h.arena.handleAt i)
  | none => h.resolveFinalizer (h.arena.handleAt i)

/-- Takes back the count of the finalizer; whether something else counts the cell. -/
def endHeadFinalizer (h : Heap) (i : Nat) : Heap × Bool :=
  match h.arena.cellAt? i with
  | some c => (h.endFinalizer i, !c.header.isLast)
  | none => (h, false)

/-- Takes a cell off the queue: back to the allocated list if it is kept, else out of the heap. -/
def leaveQueue (h : Heap) (i : Nat) (keep : Bool) : Heap × Departure :=
  let h := h.modifyArena (·.unlink i)
  if keep then
    let h := h.modifyAt i (·.modifyMarks ({ · with finalized := false }))
    let h := h.modifyArena (·.linkHead .allocated i)
    (h.modifyCounters fun c => { c with rescues := c.rescues + 1 }, .rescued)
  else (h.freeComposite i, .freed)

/-- Counts freed cells off the trigger counter, which has 64 bits. -/
def spendTrigger (h : Heap) (freed : Nat) : Heap :=
  { h with trigger := Int.bmod (h.trigger - freed) (Nat.pow 2 64) }

end Heap

variable {σ : Type}

/-- Deals with the head of the queue, which is in slot `i`. -/
def settleHead (call : Caller σ) (i : Nat) : Action σ Departure := do
  match ← query (·.headFinalizer i) with
  | some f =>
    let r ← query (·.arena.handleAt i)
    modifyHeap (·.beginFinalizer i)
    runFinalizer call r f
    let keep ← change (·.endHeadFinalizer i)
    change (·.leaveQueue i keep)
  | none => change (·.leaveQueue i false)

/-- Works the queue off, where `freed` cells have been freed since the last voluntary pass, and runs
a voluntary pass whenever one is due. No more than `fuel` cells and passes are dealt with. -/
def drainLoop (call : Caller σ) (collect : Action σ Bool) : Nat → Nat → Action σ Unit
  | 0, _ => fun _ => none
  | fuel + 1, freed => do
    match ← query (·.arena.queue.head) with
    | some i =>
      match ← settleHead call i with
      | .freed => drainLoop call collect fuel (freed + 1)
      | .rescued => drainLoop call collect fuel freed
    | none =>
      let paced ← query (·.config.voluntary)
      if freed = 0 || !paced then pure ()
      else
        modifyHeap (·.spendTrigger freed)
        let exhausted ← query fun h => decide (h.trigger ≤ 0)
        if exhausted then
          let _ ← collect
          let queued ← query (·.arena.queue.head.isSome)
          if queued then drainLoop call collect fuel 0

/-- Works the queue off until it is empty. -/
def drainQueue (call : Caller σ) (collect : Action σ Bool) (fuel : Nat) : Action σ Unit := do
  modifyHeap ({ · with draining := true })
  drainLoop call collect fuel 0
  modifyHeap ({ · with draining := false })

end CountedHeap
