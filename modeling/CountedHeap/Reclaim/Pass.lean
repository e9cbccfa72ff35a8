import CountedHeap.Heap.Marking
import CountedHeap.Reclaim.Finalize

/-!
# Tracing passes

A pass finds the composite cells that nothing outside holds and frees them, cycles included.

1. Mark what is reached from outside.
2. Set aside unmarked cells with a finalizer that has not run, and mark what they reach.
3. Sweep: the cells still unmarked give back their references, then their slots are emptied.
4. Run the finalizers of the cells set aside, and see which of them are reachable again.
5. Queue the cells whose count went to zero on the way, and set the trigger counter anew.

* `Heap.beginPass`: steps 1 to 3.
* `runPending`: step 4.
* `Heap.finishPass`: step 5.
* `pass`: all of it.
-/

namespace CountedHeap

/-- What a pass remembers until it is over: the cells whose finalizers it runs, and what its report
compares. -/
structure PassStart where
  pending : List Nat
  objectsBefore : Nat
  bytesBefore : Nat

namespace Heap

/-- Whether the cell in a slot is marked as reached. -/
def isReached (h : Heap) (i : Nat) : Bool :=
  match h.arena.cellAt? i with
  | some c => c.header.marks.reachable
  | none => true

/-- The cell may be finalized again when it is next found dead. -/
def clearFinalized (h : Heap) (i : Nat) : Heap :=
  h.modifyAt i (·.modifyMarks ({ · with finalized := false }))

/-- The unreached cells whose finalizer has not run. -/
def findFinalizable (h : Heap) (slots : List Nat) : List Nat :=
  slots.filter fun i =>
    match h.arena.cellAt? i with
    | some c =>
      !c.header.marks.reachable && !c.header.marks.finalized &&
        h.hasFinalizer (h.arena.handleAt i)
    | none => false

/-- Keeps the cells with pending finalizers, and what they reach, for this pass. -/
def markFinalizable (h : Heap) (pending : List Nat) : Heap :=
  let work := pending.map h.arena.handleAt
  h.modifyArena fun a =>
    let a := pending.foldl (fun a i => a.modifyAt i (·.modifyMarks ({ · with finalizable := true }))) a
    (a.mark work 0).1

/-- A garbage cell gives back the references it owns. Cells of this pass whose count goes to zero
stay where they are. -/
def releaseChildren (h : Heap) (i : Nat) : Heap :=
  match h.arena.cellAt? i with
  | some c => h.releaseQuietly c.body.refs
  | none => h

/-- Takes a garbage cell off its list and empties its slot. -/
def freeSwept (h : Heap) (i : Nat) : Heap :=
  (h.forgetCurrent i).modifyArena fun a => (a.unlink i).release i

/-- Frees garbage. All of it is still there while it gives its references back. -/
def sweep (h : Heap) (garbage : List Nat) : Heap :=
  garbage.foldl freeSwept (garbage.foldl releaseChildren h)

/-- Drops what can be computed again. -/
def compact (h : Heap) : Heap :=
  { h with
    offsets := h.offsets.flush
    counters := { h.counters with emergencyPasses := h.counters.emergencyPasses + 1 } }

/-- A pass up to the point where finalizers run. -/
def beginPass (h : Heap) (options : PassOptions) : Heap × PassStart :=
  let objectsBefore := h.arena.compositeCount
  let bytesBefore := h.arena.usedBytes
  let h := { h with sweeping := true }.markHeld
  let allocated := h.arena.members .allocated
  let h := (allocated.filter h.isReached).foldl clearFinalized h
  let pending := if options.skipFinalizers then [] else h.findFinalizable allocated
  let h := h.markFinalizable pending
  let h := h.sweep (allocated.filter fun i => !h.isReached i)
  let h := if options.emergency then h.compact else h
  (h, ⟨pending, objectsBefore, bytesBefore⟩)

/-- A finalized cell that is reachable again was rescued, and may be finalized once more. One that
only its own garbage reaches may not. -/
def settleRescued (h : Heap) (i : Nat) : Heap :=
  match h.arena.cellAt? i with
  | some c =>
    if c.header.marks.finalized && c.header.marks.reachable then
      (h.clearFinalized i).modifyCounters fun c => { c with rescues := c.rescues + 1 }
    else h
  | none => h

/-- Marks anew after finalizers have run, and sees which cells they rescued. -/
def settle (h : Heap) (pending : List Nat) : Heap :=
  pending.foldl settleRescued h.markHeld

/-- The allocated cells that nothing counts. -/
def zeroCounts (h : Heap) : List Nat :=
  (h.arena.members .allocated).filter fun i =>
    match h.arena.cellAt? i with
    | some c => c.header.count == 0
    | none => false

/-- Ends a pass: queues the cells that nothing counts, sets the trigger counter and reports. The
number of queued cells is the answer. -/
def finishPass (h : Heap) (options : PassOptions) (start : PassStart) (finalized : Nat) :
    Heap × Nat :=
  let h := { h with sweeping := false }
  let zero := h.zeroCounts
  let h := zero.foldl enqueue h
  let objectsAfter := h.arena.compositeCount
  ({ h with
      trigger := h.config.nextTrigger objectsAfter
      counters := { h.counters with passes := h.counters.passes + 1 }
      lastPass :=
        { objectsBefore := start.objectsBefore
          objectsAfter := objectsAfter
          bytesFreed := start.bytesBefore - h.arena.usedBytes
          finalized := finalized
          requeued := zero.length
          emergency := options.emergency } },
    zero.length)

end Heap

variable {σ : Type}

/-- Runs the finalizers of the cells that were set aside; how many ran. -/
def runPending (call : Caller σ) : List Nat → Action σ Nat
  | [] => pure 0
  | i :: rest => do
    let found ← query fun h =>
      (h.arena.cellAt? i).bind fun _ =>
        let r := h.arena.handleAt i
        (h.resolveFinalizer r).map (r, ·)
    match found with
    | none => runPending call rest
    | some (r, f) =>
      modifyHeap (·.beginFinalizer i)
      runFinalizer call r f
      modifyHeap (·.endFinalizer i)
      let n ← runPending call rest
      return n + 1

/-- A tracing pass. What it queues is worked off by `drain` when it is over. -/
def pass (call : Caller σ) (drain : Action σ Unit) (options : PassOptions) : Action σ Bool := do
  let start ← change (·.beginPass options)
  let finalized ← runPending call start.pending
  if finalized > 0 then modifyHeap (·.settle start.pending)
  let requeued ← change (·.finishPass options start finalized)
  if requeued > 0 then drain
  return true

end CountedHeap
