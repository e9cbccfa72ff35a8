import Mathlib.Algebra.BigOperators.Group.Finset.Basic
import Mathlib.Algebra.Order.BigOperators.Group.Finset
import Mathlib.Data.Multiset.AddSub
import Mathlib.Data.Multiset.Count
import Mathlib.Tactic
import CountedHeap.Heap.Basic
import CountedHeap.Proofs.Arena.Slots

/-!
# Balanced heaps

A heap is balanced against a bag of references that are held elsewhere if every cell is counted as
often as it occurs among what the heap stores and the bag, and stale handles occur nowhere. Slots may
be set aside: what their cells refer to is then not taken as stored.

* `Heap.Exact`: all counts are exact, given what is held outside of the heap.
* `Heap.Balanced`: the same with slots set aside, in one equation.
* `Balanced.shift`, `Balanced.recount`, `Balanced.free`, `Balanced.place`: the four ways in which a
  balance is kept.
-/

namespace CountedHeap

/-! ## What is stored -/

namespace Arena

variable {a a' : Arena} {D : Finset ℕ} {i j n : ℕ} {r : Handle} {b : Body}

/-- The references that the cell in a slot owns. -/
def refsAt (a : Arena) (i : ℕ) : List Handle :=
  ((a.cellAt? i).map (·.body.refs)).getD []

/-- The references that cells own, apart from the cells in some slots. -/
def owned (a : Arena) (D : Finset ℕ) : Multiset Handle :=
  ∑ i ∈ Finset.range a.slots.size \ D, (a.refsAt i : Multiset Handle)

theorem refsAt_eq_core : a.refsAt i =
    (((a.core i).bind Prod.snd).map fun x => x.2.refs).getD [] := by
  unfold refsAt cellAt? core
  cases a.slots[i]? with
  | none => rfl
  | some s => cases hc : s.cell <;> simp [hc]

theorem refsAt_modifyAt {f : Cell → Cell} (hf : ∀ c, (f c).body = c.body) :
    (a.modifyAt i f).refsAt j = a.refsAt j := by
  unfold refsAt
  rw [cellAt?_modifyAt]
  split <;> simp [Function.comp_def, hf]

theorem refsAt_of_core {g : UInt32} (h : a.core i = some (g, some (n, b))) :
    a.refsAt i = b.refs := by
  simp [refsAt_eq_core, h]

theorem Holds.refsAt (h : a.Holds r n b) : a.refsAt r.index = b.refs :=
  refsAt_of_core h

theorem exists_holds_of_mem_refsAt (h : r ∈ a.refsAt i) :
    ∃ n b, a.Holds (a.handleAt i) n b ∧ r ∈ b.refs := by
  rw [refsAt_eq_core] at h
  cases hc : a.core i with
  | none => simp [hc] at h
  | some x =>
    obtain ⟨g, x⟩ := x
    cases x with
    | none => simp [hc] at h
    | some x => exact ⟨x.1, x.2, holds_handleAt_iff.mpr ⟨g, hc⟩, by simpa [hc] using h⟩

theorem refsAt_of_size_le (h : a.slots.size ≤ i) : a.refsAt i = [] := by
  simp [refsAt_eq_core, core_eq_none h]

/-- The slots that there are not own nothing. -/
theorem owned_eq_sum (h : a.slots.size ≤ n) :
    a.owned D = ∑ i ∈ Finset.range n \ D, (a.refsAt i : Multiset Handle) := by
  apply Finset.sum_subset
  · exact Finset.sdiff_subset_sdiff (Finset.range_subset_range.mpr h) subset_rfl
  · intro i hi hi'
    simp only [Finset.mem_sdiff, Finset.mem_range, not_and, not_not] at hi hi'
    rw [refsAt_of_size_le, Multiset.coe_nil]
    by_contra hlt
    exact hi.2 (hi' (by omega))

/-- What is owned depends on the cells outside the slots set aside. -/
theorem owned_congr (h : ∀ i ∉ D, a'.refsAt i = a.refsAt i) : a'.owned D = a.owned D := by
  rw [owned_eq_sum (le_max_left a'.slots.size a.slots.size),
    owned_eq_sum (le_max_right a'.slots.size a.slots.size)]
  apply Finset.sum_congr rfl
  intro i hi
  rw [h i (Finset.mem_sdiff.mp hi).2]

/-- Another cell in one slot: what the old one owned leaves, what the new one owns enters. -/
theorem owned_update (hi : i ∉ D) (h : ∀ j ≠ i, a'.refsAt j = a.refsAt j) :
    a'.owned D + a.refsAt i = a.owned D + a'.refsAt i := by
  have hsplit : ∀ a : Arena, ∀ n, i < n → a.slots.size ≤ n →
      a.owned D = a.refsAt i + ∑ j ∈ (Finset.range n \ D).erase i, (a.refsAt j : Multiset Handle) := by
    intro a n hin hn
    rw [owned_eq_sum hn]
    exact (Finset.add_sum_erase _ (fun j => (a.refsAt j : Multiset Handle)) (by simp [hin, hi])).symm
  have hn : ∃ n, i < n ∧ a.slots.size ≤ n ∧ a'.slots.size ≤ n :=
    ⟨i + 1 + a.slots.size + a'.slots.size, by omega, by omega, by omega⟩
  obtain ⟨n, hin, ha, ha'⟩ := hn
  rw [hsplit a n hin ha, hsplit a' n hin ha']
  have hrest : ∑ j ∈ (Finset.range n \ D).erase i, (a'.refsAt j : Multiset Handle) =
      ∑ j ∈ (Finset.range n \ D).erase i, (a.refsAt j : Multiset Handle) := by
    apply Finset.sum_congr rfl
    intro j hj
    rw [h j (Finset.ne_of_mem_erase hj)]
  rw [hrest]
  abel

/-- Setting a slot aside. -/
theorem owned_insert (hi : i ∉ D) : a.owned (insert i D) + a.refsAt i = a.owned D := by
  have hn : ∃ n, i < n ∧ a.slots.size ≤ n := ⟨i + 1 + a.slots.size, by omega, by omega⟩
  obtain ⟨n, hin, ha⟩ := hn
  rw [owned_eq_sum ha, owned_eq_sum ha, Finset.sdiff_insert, add_comm]
  exact Finset.add_sum_erase _ (fun j => (a.refsAt j : Multiset Handle)) (by simp [hin, hi])

theorem mem_owned : r ∈ a.owned D ↔ ∃ i ∉ D, r ∈ a.refsAt i := by
  unfold owned
  rw [Multiset.mem_sum]
  simp only [Finset.mem_sdiff, Finset.mem_range, Multiset.mem_coe]
  constructor
  · rintro ⟨i, ⟨-, hi⟩, hr⟩
    exact ⟨i, hi, hr⟩
  · rintro ⟨i, hi, hr⟩
    refine ⟨i, ⟨?_, hi⟩, hr⟩
    by_contra hlt
    rw [refsAt_of_size_le (by omega)] at hr
    cases hr

/-- The count of the cell that a handle names, and zero for a stale handle. -/
def counted (a : Arena) (r : Handle) : ℕ :=
  ((a.get? r).map (·.header.count)).getD 0

theorem Holds.counted (h : a.Holds r n b) : a.counted r = n := by
  obtain ⟨c, hc, hn, -⟩ := h.get?
  simp [Arena.counted, hc, hn]

theorem counted_handleAt :
    a.counted (a.handleAt i) = ((a.cellAt? i).map (·.header.count)).getD 0 := by
  unfold Arena.counted
  rw [get?_handleAt]

theorem counted_of_not_live (h : a.isLive r = false) : a.counted r = 0 := by
  rw [← get?_eq_none_iff] at h
  simp [counted, h]

theorem isLive_of_counted (h : a.counted r ≠ 0) : a.isLive r = true := by
  by_contra hl
  exact h (counted_of_not_live (by simpa using hl))

theorem counted_congr (h : a'.core r.index = a.core r.index) : a'.counted r = a.counted r := by
  by_cases hl : a.isLive r = true
  · obtain ⟨n, b, hb⟩ := isLive_iff.mp hl
    have hb' : a'.Holds r n b := h.trans hb
    rw [hb.counted, hb'.counted]
  · have hl' : a'.isLive r ≠ true := by
      intro hl'
      obtain ⟨n, b, hb⟩ := isLive_iff.mp hl'
      exact hl (Holds.isLive (n := n) (b := b) (h.symm.trans hb))
    rw [counted_of_not_live (by simpa using hl'), counted_of_not_live (by simpa using hl)]

/-- Another count in one slot. -/
theorem counted_update {m : ℕ} {b' : Body} (h : a.Holds r n b)
    (hc : a'.core = Function.update a.core r.index (some (r.generation, some (m, b')))) :
    a'.counted = Function.update a.counted r m := by
  have hr : a'.Holds r m b' := by
    unfold Holds
    rw [hc, Function.update_self]
  funext s
  by_cases hs : s = r
  · subst hs
    rw [Function.update_self, hr.counted]
  · rw [Function.update_of_ne hs]
    by_cases hi : s.index = r.index
    · -- Another generation of the same slot: neither is live.
      rw [counted_of_not_live, counted_of_not_live]
      · by_contra hl
        obtain ⟨_, _, hl⟩ := isLive_iff.mp (by simpa using hl)
        exact hs (hl.eq_of_index h hi)
      · by_contra hl
        obtain ⟨_, _, hl⟩ := isLive_iff.mp (by simpa using hl)
        exact hs (hl.eq_of_index hr hi)
    · apply counted_congr
      rw [hc, Function.update_of_ne hi]

/-- A cell that nothing counts leaves. -/
theorem counted_free {g : UInt32} (h : a.Holds r 0 b)
    (hc : a'.core = Function.update a.core r.index (some (g, none))) : a'.counted = a.counted := by
  funext s
  by_cases hi : s.index = r.index
  · rw [counted_of_not_live (a := a')]
    · by_cases hl : a.isLive s = true
      · obtain ⟨_, _, hl⟩ := isLive_iff.mp hl
        rw [hl.eq_of_index h hi, h.counted]
      · rw [counted_of_not_live (by simpa using hl)]
    · by_contra hl
      obtain ⟨m, b', hl⟩ := isLive_iff.mp (by simpa using hl)
      unfold Holds at hl
      rw [hc, hi, Function.update_self] at hl
      cases hl
  · apply counted_congr
    rw [hc, Function.update_of_ne hi]

/-- A cell enters. -/
theorem counted_place (h : a.Vacant r.index)
    (hc : a'.core = Function.update a.core r.index (some (r.generation, some (n, b)))) :
    a.counted r = 0 ∧ a'.counted = Function.update a.counted r n := by
  have hnone : ∀ s : Handle, s.index = r.index → a.counted s = 0 := by
    intro s hs
    apply counted_of_not_live
    by_contra hl
    obtain ⟨m, b', hl⟩ := isLive_iff.mp (by simpa using hl)
    unfold Holds at hl
    rw [hs] at hl
    exact h _ _ hl
  have hr : a'.Holds r n b := by
    unfold Holds
    rw [hc, Function.update_self]
  refine ⟨hnone r rfl, funext fun s => ?_⟩
  by_cases hs : s = r
  · subst hs
    rw [Function.update_self, hr.counted]
  · rw [Function.update_of_ne hs]
    by_cases hi : s.index = r.index
    · rw [hnone s hi, counted_of_not_live]
      by_contra hl
      obtain ⟨_, _, hl⟩ := isLive_iff.mp (by simpa using hl)
      exact hs (hl.eq_of_index hr hi)
    · apply counted_congr
      rw [hc, Function.update_of_ne hi]

end Arena

namespace Heap

variable {h h' : Heap} {D : Finset ℕ} {X Y : Multiset Handle} {r : Handle} {n m i : ℕ} {b b' : Body}

/-- The references that roots hold. -/
def rootRefs (h : Heap) : List Handle :=
  h.rootValues.flatMap Value.refs

/-- All references that a heap counts: those that cells own, the roots, and the key of finalizers. -/
def stored (h : Heap) (D : Finset ℕ) : Multiset Handle :=
  h.arena.owned D + h.rootRefs + h.finalizerKey.toList

/-- Every count is exact, given what is held outside of the heap: a live cell is counted once for
each reference of a live cell, for each root, for the key of finalizers and for each reference held
outside, and all of these name live cells. -/
structure Exact (h : Heap) (held : Multiset Handle) : Prop where
  count : ∀ r n, h.count? r = some n → n = (h.stored ∅ + held).count r
  live : ∀ r ∈ h.stored ∅ + held, h.isLive r = true

/-- Every handle is counted as often as it occurs, where a stale one counts as zero. -/
def Balanced (h : Heap) (D : Finset ℕ) (X : Multiset Handle) : Prop :=
  ∀ r, h.arena.counted r = (h.stored D + X).count r

/-- What a cell owns is stored. -/
theorem mem_stored_of_refsAt (hr : r ∈ h.arena.refsAt i) : r ∈ h.stored ∅ := by
  unfold stored
  simp only [Multiset.mem_add]
  exact .inl (.inl (Arena.mem_owned.mpr ⟨i, Finset.notMem_empty i, hr⟩))

theorem mem_stored_of_refs {p : Handle} (hp : h.arena.Holds p n b) (hr : r ∈ b.refs) :
    r ∈ h.stored ∅ :=
  mem_stored_of_refsAt (hp.refsAt ▸ hr)

/-- What is stored while some cells are set aside is stored. -/
theorem mem_stored_of_mem (hr : r ∈ h.stored D) : r ∈ h.stored ∅ := by
  unfold stored at hr ⊢
  simp only [Multiset.mem_add, Arena.mem_owned] at hr ⊢
  refine hr.imp_left (Or.imp_left ?_)
  rintro ⟨i, -, hi⟩
  exact ⟨i, Finset.notMem_empty i, hi⟩

theorem count?_eq_some : h.count? r = some n ↔ ∃ b, h.arena.Holds r n b := by
  unfold count?
  rw [Option.map_eq_some_iff]
  constructor
  · rintro ⟨c, hc, rfl⟩
    exact ⟨c.body, Arena.holds_of_get? hc⟩
  · rintro ⟨b, hb⟩
    obtain ⟨c, hc, hn, -⟩ := hb.get?
    exact ⟨c, hc, hn⟩

theorem exact_iff : h.Exact X ↔ h.Balanced ∅ X := by
  have key : ∀ r, h.count? r = some (h.arena.counted r) ∨
      h.isLive r = false ∧ h.count? r = none ∧ h.arena.counted r = 0 := by
    intro r
    unfold count? isLive Arena.counted Arena.isLive
    cases h.arena.get? r <;> simp
  constructor
  · intro he r
    rcases key r with hk | ⟨hl, -, hk⟩
    · exact he.count r _ hk
    · rw [hk, eq_comm, Multiset.count_eq_zero]
      intro hm
      rw [he.live r hm] at hl
      cases hl
  · intro hb
    refine ⟨fun r n hn => ?_, fun r hr => ?_⟩
    · rw [← hb r]
      unfold count? at hn
      unfold Arena.counted
      rw [hn, Option.getD_some]
    · apply Arena.isLive_of_counted
      rw [hb r, Multiset.count_ne_zero]
      exact hr

/-- Whether counts are exact can be found out slot by slot. -/
instance decidableExact : Decidable (h.Exact X) :=
  decidable_of_iff ((∀ i ∈ List.range h.arena.slots.size, h.arena.counted (h.arena.handleAt i) =
      (h.stored ∅ + X).count (h.arena.handleAt i)) ∧ ∀ r ∈ h.stored ∅ + X, h.isLive r = true) <| by
    constructor
    · rintro ⟨hcount, hlive⟩
      refine ⟨fun r n hn => ?_, hlive⟩
      obtain ⟨b, hb⟩ := count?_eq_some.mp hn
      have hslot := hcount r.index (List.mem_range.mpr (Arena.lt_size_of_core hb))
      rwa [hb.handleAt, hb.counted] at hslot
    · exact fun hx => ⟨fun i _ => exact_iff.mp hx _, hx.live⟩

namespace Balanced

theorem live (hb : h.Balanced D X) (hr : r ∈ h.stored D + X) : h.arena.isLive r = true := by
  apply Arena.isLive_of_counted
  rw [hb r, Multiset.count_ne_zero]
  exact hr

theorem live_of_held (hb : h.Balanced D X) (hr : r ∈ X) : h.arena.isLive r = true :=
  hb.live (Multiset.mem_add.mpr (.inr hr))

theorem count_eq (hb : h.Balanced D X) (hr : h.arena.Holds r n b) :
    n = (h.stored D + X).count r := by
  rw [← hr.counted, hb r]

/-- Counts stay, and what is stored moves to or from what is held. -/
theorem shift {D' : Finset ℕ} (hb : h.Balanced D X) (hc : h'.arena.counted = h.arena.counted)
    (hs : h'.stored D' + Y = h.stored D + X) : h'.Balanced D' Y := by
  intro r
  rw [hc, hs, hb r]

/-- The balance looks at cells, roots and the key only. -/
theorem of_core (hb : h.Balanced D X) (hc : h'.arena.core = h.arena.core)
    (hr : h'.roots = h.roots) (hk : h'.finalizerKey = h.finalizerKey) : h'.Balanced D X := by
  have howned : h'.arena.owned D = h.arena.owned D :=
    Arena.owned_congr fun i _ => by rw [Arena.refsAt_eq_core, Arena.refsAt_eq_core, hc]
  refine hb.shift (funext fun r => Arena.counted_congr (by rw [hc])) ?_
  unfold stored rootRefs rootValues
  rw [howned, hr, hk]

/-- One count changes, as the references held do. -/
theorem recount (hb : h.Balanced D X) (hc : h'.arena.counted = Function.update h.arena.counted r m)
    (hs : h'.stored D = h.stored D) (hm : m + X.count r = h.arena.counted r + Y.count r)
    (ho : ∀ s ≠ r, Y.count s = X.count s) : h'.Balanced D Y := by
  intro s
  rw [hc, hs]
  by_cases hsr : s = r
  · subst hsr
    rw [Function.update_self]
    have := hb s
    rw [Multiset.count_add] at this ⊢
    omega
  · rw [Function.update_of_ne hsr, hb s, Multiset.count_add, Multiset.count_add, ho s hsr]

end Balanced

end Heap

end CountedHeap
