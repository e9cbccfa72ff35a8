import CountedHeap.Proofs.Heap.Interned

/-!
# Cells that come and go

What the operations of an arena that make and free cells amount to for someone who looks cells up, by
handle or by slot, and for the number of cells of a kind.

* `get?_place`, `get?_release`: look-ups by handle.
* `cellAt?_place`, `cellAt?_release`: look-ups by slot.
* `countOf_congr`, `countOf_place`: the numbers of cells.
-/

namespace CountedHeap.Arena

variable {a a' : Arena} {r q : Handle} {i j n : ℕ} {b : Body} {k : CellKind}

/-! ## By slot -/

@[simp] theorem cellAt?_modifyLinks (f : Links → Links) :
    (a.modifyLinks i f).cellAt? = a.cellAt? := by
  funext j
  unfold cellAt? modifyLinks
  rw [Array.getElem?_modify]
  by_cases hij : i = j
  · subst hij
    cases hs : a.slots[i]? <;> simp
  · rw [if_neg hij]

@[simp] theorem cellAt?_setEnds (chain : Chain) (e : Ends) : (a.setEnds chain e).cellAt? = a.cellAt? := by
  cases chain <;> rfl

@[simp] theorem cellAt?_linkHead (chain : Chain) : (a.linkHead chain i).cellAt? = a.cellAt? := by
  unfold linkHead
  dsimp only
  split <;> simp

theorem cellAt?_fill (h : a.FreeOk) : (a.fill b).cellAt? =
    Function.update a.cellAt? a.nextSlot (some (.new b)) := by
  unfold fill nextSlot
  cases hf : a.free with
  | nil =>
    funext j
    unfold cellAt?
    dsimp only
    rw [Array.getElem?_push]
    by_cases hj : j = a.slots.size
    · subst hj
      simp
    · simp [hj]
  | cons i rest =>
    obtain ⟨s, hs, -⟩ := (h.2 i).mp (by simp [hf])
    funext j
    unfold cellAt?
    dsimp only
    rw [Array.getElem?_modify]
    by_cases hj : i = j
    · subst hj
      simp [hs]
    · simp [hj, Function.update_of_ne (Ne.symm hj)]

theorem cellAt?_place (h : a.FreeOk) : (a.place b).1.cellAt? =
    Function.update a.cellAt? a.nextSlot (some (.new b)) := by
  rw [place_eq, ← cellAt?_fill h]
  dsimp only
  split <;> simp

theorem cellAt?_release : (a.release i).cellAt? = Function.update a.cellAt? i none := by
  funext j
  unfold release
  split
  · rename_i hs
    unfold cellAt?
    dsimp only
    rw [Array.getElem?_setIfInBounds]
    by_cases hij : i = j
    · subst hij
      simp [(Array.getElem?_eq_some_iff.mp hs).1]
    · rw [if_neg hij, Function.update_of_ne (Ne.symm hij)]
  · rename_i hs
    by_cases hij : j = i
    · subst hij
      rw [Function.update_self]
      unfold cellAt?
      rcases hslot : a.slots[j]? with - | ⟨m, l, x, - | c⟩
      · rfl
      · rfl
      · exact absurd hslot (hs m l x c)
    · rw [Function.update_of_ne hij]

theorem Vacant.cellAt? (h : a.Vacant i) : a.cellAt? i = none := by
  by_contra hc
  obtain ⟨c, hc⟩ := Option.ne_none_iff_exists'.mp hc
  obtain ⟨g, hg⟩ := holds_handleAt_iff.mp (holds_of_get? (cellAt?_eq_some hc))
  exact h _ _ hg

/-! ## By handle -/

/-- A handle finds the cell of its slot, if the generation is right. -/
theorem get?_eq : a.get? r =
    (a.core r.index).bind fun x => if x.1 = r.generation then a.cellAt? r.index else none := by
  unfold get? core cellAt?
  cases a.slots[r.index]? <;> rfl

theorem Vacant.get? (h : a.Vacant r.index) : a.get? r = none := by
  rw [get?_eq, h.cellAt?]
  simp

/-- The new cell is found under its handle, and others as before. -/
theorem get?_place (h : a.FreeOk) : (a.place b).1.get? =
    Function.update a.get? (a.place b).2 (some (.new b)) := by
  funext q
  rw [get?_eq, core_place h, cellAt?_place h]
  by_cases hi : q.index = (a.place b).2.index
  · rw [hi, Function.update_self, Option.bind_some, place_snd_index, Function.update_self]
    by_cases hq : q = (a.place b).2
    · rw [hq, Function.update_self, if_pos rfl]
    · rw [Function.update_of_ne hq, Vacant.get? (hi ▸ place_snd_index (a := a) ▸ vacant_place h)]
      refine if_neg fun hg => hq ?_
      cases q
      exact congrArg₂ Handle.mk hi hg.symm
  · have hq : q ≠ (a.place b).2 := fun he => hi (congrArg _ he)
    rw [Function.update_of_ne hi, Function.update_of_ne hq, get?_eq, Function.update_of_ne]
    rwa [place_snd_index] at hi

/-- A cell that is freed is found no longer. -/
theorem get?_release (h : a.Holds r n b) : (a.release r.index).get? = Function.update a.get? r none := by
  funext q
  rw [get?_eq, core_release h, cellAt?_release]
  by_cases hi : q.index = r.index
  · rw [hi, Function.update_self, Function.update_self]
    by_cases hq : q = r
    · rw [hq, Function.update_self]
      simp
    · rw [Function.update_of_ne hq]
      have hdead : a.get? q = none := by
        by_contra hc
        obtain ⟨c, hc⟩ := Option.ne_none_iff_exists'.mp hc
        exact hq ((holds_of_get? hc).eq_of_index h hi)
      rw [hdead]
      simp
  · have hq : q ≠ r := fun he => hi (congrArg _ he)
    rw [Function.update_of_ne hi, Function.update_of_ne hq, get?_eq, Function.update_of_ne hi]

/-! ## Numbers of cells -/

/-- Slots that are not there yet hold nothing. -/
theorem countOf_eq_card (hn : a.slots.size ≤ n) : a.countOf k =
    ((Finset.range n).filter fun i => (a.cellAt? i).map Cell.kind = some k).card := by
  have hslots : (Finset.range n).filter (fun i => (a.cellAt? i).map Cell.kind = some k) =
      (Finset.range a.slots.size).filter fun i => (a.cellAt? i).map Cell.kind = some k := by
    refine Finset.ext fun i => ?_
    simp only [Finset.mem_filter, Finset.mem_range, and_congr_left_iff]
    refine fun hc => ⟨fun _ => ?_, fun hi => hi.trans_le hn⟩
    by_contra hi
    simp [cellAt?, Nat.le_of_not_lt hi] at hc
  rw [hslots, countOf_eq]
  rfl

theorem countOf_congr (h : ∀ i, (a'.cellAt? i).map Cell.kind = (a.cellAt? i).map Cell.kind) :
    a'.countOf = a.countOf := by
  funext k
  rw [countOf_eq_card (le_max_left a'.slots.size a.slots.size),
    countOf_eq_card (a := a) (le_max_right a'.slots.size a.slots.size)]
  simp only [h]

theorem countOf_place (h : a.FreeOk) :
    (a.place b).1.countOf k = a.countOf k + if b.kind = k then 1 else 0 := by
  set m := max (max (a.place b).1.slots.size a.slots.size) (a.nextSlot + 1)
  have hm : a.nextSlot < m := Nat.lt_of_succ_le (le_max_right _ _)
  rw [countOf_eq_card (n := m) ((le_max_left _ _).trans (le_max_left _ _)),
    countOf_eq_card (a := a) (n := m) ((le_max_right _ _).trans (le_max_left _ _)), cellAt?_place h]
  have hvacant : a.nextSlot ∉
      (Finset.range m).filter fun i => (a.cellAt? i).map Cell.kind = some k := by
    simp [(vacant_place h).cellAt?]
  by_cases hk : b.kind = k
  · rw [if_pos hk, ← Finset.card_insert_of_notMem hvacant]
    congr 1
    ext i
    by_cases hi : i = a.nextSlot
    · simp [hi, hm, Cell.new, Cell.kind, hk]
    · simp [hi]
  · rw [if_neg hk, add_zero]
    congr 1
    ext i
    by_cases hi : i = a.nextSlot
    · simp [hi, Cell.new, Cell.kind, hk, (vacant_place h).cellAt?]
    · simp [hi]

end CountedHeap.Arena
