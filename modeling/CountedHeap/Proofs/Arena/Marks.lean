import CountedHeap.Heap.Marking
import CountedHeap.Proofs.Arena.Slots

/-!
# The mark of a finalized cell

`Arena.core` does not see marks. The one that outlives a pass says that the finalizer of a cell has
run, and `Arena.ran` is the arena as far as this mark goes. Lists, counts, bodies and the other marks
change without it.

* `Arena.ran`: whether the cell in a slot has the mark.
* `ran_modifyAt`, `ran_mark`, `ran_unlink`, …: changes that leave it alone.
* `ran_setFinalized`, `ran_release`, `ran_place`: changes at one slot.
-/

namespace CountedHeap.Arena

variable {a : Arena} {i j n : ℕ} {b : Body}

/-- The cell in a slot has the mark of a finalized cell. -/
def ran (a : Arena) (i : ℕ) : Bool :=
  ((a.cellAt? i).map (·.header.marks.finalized)).getD false

/-! ## Changes that leave it alone -/

theorem ran_congr {a' : Arena} (h : ∀ i, a'.cellAt? i = a.cellAt? i) : a'.ran = a.ran := by
  funext i
  unfold ran
  rw [h]

theorem ran_modifyAt {f : Cell → Cell}
    (hf : ∀ c, (f c).header.marks.finalized = c.header.marks.finalized) :
    (a.modifyAt i f).ran = a.ran := by
  funext j
  unfold ran
  rw [cellAt?_modifyAt]
  split <;> simp [Function.comp_def, hf]

theorem ran_modifyAll {f : Cell → Cell}
    (hf : ∀ c, (f c).header.marks.finalized = c.header.marks.finalized) :
    (a.modifyAll f).ran = a.ran := by
  funext j
  unfold ran cellAt? modifyAll
  rw [Array.getElem?_map]
  cases a.slots[j]? with
  | none => rfl
  | some s => cases hc : s.cell <;> simp [hc, hf]

@[simp] theorem ran_modifyLinks (f : Links → Links) : (a.modifyLinks i f).ran = a.ran := by
  refine ran_congr fun j => ?_
  unfold cellAt? modifyLinks
  rw [Array.getElem?_modify]
  split
  · subst_vars
    cases hs : a.slots[j]? <;> simp
  · rfl

@[simp] theorem ran_setEnds (chain : Chain) (e : Ends) : (a.setEnds chain e).ran = a.ran := by
  cases chain <;> rfl

@[simp] theorem ran_linkHead (chain : Chain) : (a.linkHead chain i).ran = a.ran := by
  unfold linkHead
  dsimp only
  split <;> simp

@[simp] theorem ran_linkTail (chain : Chain) : (a.linkTail chain i).ran = a.ran := by
  unfold linkTail
  dsimp only
  split <;> simp

@[simp] theorem ran_unlink : (a.unlink i).ran = a.ran := by
  unfold unlink
  dsimp only
  split
  · rfl
  · split <;> split <;> simp

@[simp] theorem ran_account (bytes : ℕ) : (a.account i bytes).ran = a.ran := by
  refine ran_congr fun j => ?_
  unfold cellAt? account
  rw [Array.getElem?_modify]
  split
  · subst_vars
    cases hs : a.slots[j]? <;> simp
  · rfl

theorem ran_clearMarks : a.clearMarks.ran = a.ran :=
  ran_modifyAll fun _ => rfl

theorem ran_markWithin {work : List Handle} {m : ℕ} : (markWithin m a work n).1.ran = a.ran := by
  induction m generalizing a work n with
  | zero => rfl
  | succ m ih =>
    unfold markWithin
    split
    · rfl
    · exact ih.trans (ran_modifyAt fun _ => rfl)

theorem ran_mark {work : List Handle} : (a.mark work n).1.ran = a.ran :=
  ran_markWithin

/-! ## Changes at one slot -/

/-- The mark is set or taken off. -/
theorem ran_setFinalized {f : Cell → Cell} {v : Bool}
    (hf : ∀ c, (f c).header.marks.finalized = v) :
    (a.modifyAt i f).ran = Function.update a.ran i ((a.cellAt? i).isSome && v) := by
  funext j
  unfold ran
  rw [cellAt?_modifyAt]
  by_cases hj : j = i
  · subst hj
    rw [if_pos rfl, Function.update_self]
    cases a.cellAt? j <;> simp [hf]
  · rw [if_neg hj, Function.update_of_ne hj]

theorem ran_release : (a.release i).ran = Function.update a.ran i false := by
  funext j
  unfold release
  split
  · rename_i g l m c hs
    unfold ran cellAt?
    dsimp only
    rw [Array.getElem?_setIfInBounds]
    by_cases hj : i = j
    · subst hj
      simp [(Array.getElem?_eq_some_iff.mp hs).1]
    · simp [hj, Function.update_of_ne (Ne.symm hj)]
  · rename_i hempty
    by_cases hj : j = i
    · subst hj
      rw [Function.update_self]
      unfold ran cellAt?
      rcases hs : a.slots[j]? with - | ⟨g, l, m, - | c⟩
      · rfl
      · rfl
      · exact absurd hs (hempty g l m c)
    · rw [Function.update_of_ne hj]

theorem ran_fill (h : a.FreeOk) : (a.fill b).ran = a.ran := by
  funext j
  unfold fill ran cellAt?
  cases hfree : a.free with
  | nil =>
    dsimp only
    rw [Array.getElem?_push]
    by_cases hj : j = a.slots.size
    · simp [hj, Cell.new, Header.new]
    · simp [hj]
  | cons i rest =>
    obtain ⟨s, hs, hc⟩ := (h.2 i).mp (by simp [hfree])
    dsimp only
    rw [Array.getElem?_modify]
    by_cases hj : i = j
    · subst hj
      simp [hs, hc, Cell.new, Header.new]
    · simp [hj]

theorem ran_of_vacant (h : a.Vacant i) : a.ran i = false := by
  unfold ran
  cases hc : a.cellAt? i with
  | none => rfl
  | some c =>
    obtain ⟨g, hcore⟩ := holds_handleAt_iff.mp (holds_of_get? (cellAt?_eq_some hc))
    exact absurd hcore (h _ _)

/-- A new cell does not have the mark. -/
theorem ran_place (h : a.FreeOk) : (a.place b).1.ran = a.ran := by
  rw [place_eq]
  dsimp only
  split
  · rw [ran_linkHead, ran_fill h]
  · exact ran_fill h

end CountedHeap.Arena
