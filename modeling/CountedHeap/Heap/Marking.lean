import CountedHeap.Heap.Basic

/-!
# Marking

A tracing pass starts from the cells that are held from outside: those with more references than
the composite cells have to them, threads that run or wait, cells in the queue, the roots and the
current thread. It marks every composite cell that it reaches from them.

* `Arena.mark`: marks what a worklist reaches, by as many visits as there are unmarked composite
  cells.
* `Heap.outsideHolds`: where a pass starts.
-/

namespace CountedHeap

namespace Arena

/-- A composite cell that is not marked as reached. -/
def isUnmarked (s : ArenaSlot) : Bool :=
  match s.cell with
  | some c => c.isComposite && !c.header.marks.reachable
  | none => false

/-- The number of composite cells that are not marked as reached. -/
def unmarkedCount (a : Arena) : Nat :=
  a.slots.toList.countP isUnmarked

/-- Marks the cell in a slot as reached. -/
def markAt (a : Arena) (i : Nat) : Arena :=
  a.modifyAt i (·.modifyMarks ({ · with reachable := true }))

theorem countP_modify_lt {α : Type} (p : α → Bool) (f : α → α) :
    ∀ (l : List α) (i : Nat) (x : α), l[i]? = some x → p x = true → p (f x) = false →
      (l.modify i f).countP p < l.countP p
  | [], _, _, h, _, _ => by simp at h
  | y :: l, 0, x, h, hx, hf => by
    simp only [List.getElem?_cons_zero, Option.some.injEq] at h
    subst h
    simp [List.modify_zero_cons, hx, hf]
  | y :: l, i + 1, x, h, hx, hf => by
    simp only [List.getElem?_cons_succ] at h
    have ih := countP_modify_lt p f l i x h hx hf
    simp only [List.modify_succ_cons, List.countP_cons]
    omega

/-- Marking a cell that was not marked leaves fewer unmarked ones. -/
theorem unmarkedCount_markAt_lt {a : Arena} {r : Handle} {c : Cell} (h : a.get? r = some c)
    (hc : c.isComposite = true) (hm : c.header.marks.reachable = false) :
    (a.markAt r.index).unmarkedCount < a.unmarkedCount := by
  unfold get? at h
  split at h
  · rename_i s hs
    split at h
    · unfold unmarkedCount markAt modifyAt
      rw [Array.toList_modify]
      refine countP_modify_lt _ _ _ _ s (by simpa using hs) ?_ ?_
      · simp [isUnmarked, h, hc, hm]
      · obtain ⟨g, l, b, k⟩ := s
        simp only at h
        subst h
        simp [isUnmarked, Cell.modifyMarks]
    · cases h
  · cases h

/-- Whether a handle names a composite cell that is not marked. Leaves, stale handles and marked
cells are passed over. -/
def awaits (a : Arena) (r : Handle) : Bool :=
  match a.get? r with
  | some c => c.isComposite && !c.header.marks.reachable
  | none => false

/-- The references to follow from the cell that a handle names. -/
def tracedFrom (a : Arena) (r : Handle) : List Handle :=
  match a.get? r with
  | some c => c.body.tracedRefs
  | none => []

/-- Marks the composite cells that the worklist reaches, at most as many as the first argument says,
and counts them. -/
def markWithin : Nat → Arena → List Handle → Nat → Arena × Nat
  | 0, a, _, marked => (a, marked)
  | n + 1, a, work, marked =>
    match work.dropWhile fun r => !a.awaits r with
    | [] => (a, marked)
    | r :: rest =>
      let next := a.tracedFrom r ++ rest
      markWithin n (a.markAt r.index) next (marked + 1)

/-- Marks every composite cell that the worklist reaches, and counts them. Each visit marks a cell, so
there are no more visits than unmarked cells. -/
def mark (a : Arena) (work : List Handle) (marked : Nat) : Arena × Nat :=
  let n := a.unmarkedCount
  markWithin n a work marked

/-- How many references composite cells have to the cell in each slot. -/
def tally (a : Arena) : Array Nat :=
  a.slots.foldl (fun counts s =>
    match s.cell with
    | some c => c.body.refs.foldl (fun counts r => counts.modify r.index (· + 1)) counts
    | none => counts) (Array.replicate a.slots.size 0)

/-- Takes the marks of the current pass off every cell. -/
def clearMarks (a : Arena) : Arena :=
  a.modifyAll (·.modifyMarks ({ · with reachable := false, finalizable := false }))

end Arena

namespace Heap

/-- The composite cells that something outside the composite cells holds. -/
def outsideHolds (h : Heap) : List Handle :=
  let counts := h.arena.tally
  let held := h.arena.cells.filterMap fun (i, c) =>
    if c.isComposite && (decide (counts.getD i 0 < c.header.count) || c.body.isActiveThread ||
        decide (h.arena.chainOf i = some .queue)) then
      some (h.arena.handleAt i)
    else none
  held ++ h.rootValues.flatMap Value.refs ++ h.current.toList

/-- Clears the marks of an earlier pass and marks what is held from outside. -/
def markHeld (h : Heap) : Heap :=
  let work := h.outsideHolds
  h.modifyArena fun a => (a.clearMarks.mark work 0).1

end Heap

end CountedHeap
