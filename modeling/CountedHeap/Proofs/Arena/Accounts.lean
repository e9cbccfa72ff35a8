import Mathlib.Algebra.BigOperators.Group.Finset.Basic
import CountedHeap.Proofs.Arena.Books
import CountedHeap.Proofs.Cell.Akin

/-!
# Bytes in the books

The bytes in use are what is accounted for the slots, and no more than the limit. A vacant slot takes up
nothing, and a leaf what its contents take up. A slot that has been freed often enough to come round may
hold another cell than the one that was to be resized. It is left out of what is said of leaves.

* `Books.Sums`: the bytes in use are what is accounted for the slots.
* `Books.Accounted`: all of this.
* `Accounted.edit`, `Accounted.vacate`, `Accounted.enter`, `Accounted.resize`: the changes at one slot.
-/

namespace CountedHeap

namespace Books

variable {B B' : Books} {i n : ℕ} {b : Body} {t : Tenure}

/-- The bytes accounted for a slot. -/
def bytesAt (B : Books) (i : ℕ) : ℕ :=
  ((B.slot i).map Tenure.bytes).getD 0

theorem bytesAt_of_slot (h : B.slot i = some t) : B.bytesAt i = t.bytes := by
  unfold bytesAt
  rw [h]
  rfl

/-! ## The sum -/

/-- The bytes in use are what is accounted for the slots. -/
def Sums (B : Books) : Prop :=
  ∃ n, (∀ i, n ≤ i → B.slot i = none) ∧ B.used = ∑ i ∈ Finset.range n, B.bytesAt i

/-- Slots that are not there add nothing. -/
theorem sum_extend {m : ℕ} (hnone : ∀ i, n ≤ i → B.slot i = none) (hnm : n ≤ m) :
    ∑ i ∈ Finset.range m, B.bytesAt i = ∑ i ∈ Finset.range n, B.bytesAt i := by
  symm
  apply Finset.sum_subset (Finset.range_subset_range.mpr hnm)
  intro i _ hi
  have hslot : B.slot i = none := hnone i (by simpa using hi)
  unfold bytesAt
  rw [hslot]
  rfl

theorem Sums.eq (h : B.Sums) (hn : ∀ i, n ≤ i → B.slot i = none) :
    B.used = ∑ i ∈ Finset.range n, B.bytesAt i := by
  obtain ⟨m, hm, hsum⟩ := h
  rw [hsum, ← sum_extend hm (Nat.le_max_left m n), sum_extend hn (Nat.le_max_right m n)]

/-- What is accounted for one slot is part of what is in use. -/
theorem Sums.le (h : B.Sums) (i : ℕ) : B.bytesAt i ≤ B.used := by
  obtain ⟨n, hnone, hsum⟩ := h
  rw [hsum, ← sum_extend hnone (Nat.le_max_left n (i + 1))]
  apply Finset.single_le_sum (f := B.bytesAt) (fun _ _ => Nat.zero_le _)
  exact Finset.mem_range.mpr (by omega)

/-- Only one slot changes, and what is in use changes with it. -/
theorem Sums.update (h : B.Sums) (hslot : B'.slot = Function.update B.slot i (some t))
    (hused : B'.used + B.bytesAt i = B.used + t.bytes) : B'.Sums := by
  obtain ⟨n, hnone, hsum⟩ := h
  have hin : i ∈ Finset.range (max n (i + 1)) := Finset.mem_range.mpr (by omega)
  refine ⟨max n (i + 1), fun j hj => ?_, ?_⟩
  · rw [hslot, Function.update_of_ne (by omega)]
    exact hnone j (by omega)
  · have hself : B'.bytesAt i = t.bytes := bytesAt_of_slot (by rw [hslot, Function.update_self])
    have hrest : ∑ j ∈ (Finset.range (max n (i + 1))).erase i, B'.bytesAt j =
        ∑ j ∈ (Finset.range (max n (i + 1))).erase i, B.bytesAt j := by
      apply Finset.sum_congr rfl
      intro j hj
      unfold bytesAt
      rw [hslot, Function.update_of_ne (Finset.ne_of_mem_erase hj)]
    have hold := Finset.add_sum_erase _ B.bytesAt hin
    rw [sum_extend hnone (Nat.le_max_left n (i + 1)), ← hsum] at hold
    rw [← Finset.add_sum_erase _ B'.bytesAt hin, hself, hrest]
    omega

/-! ## All that is accounted -/

/-- What is accounted for slots, and for all of them together. -/
structure Accounted (B : Books) : Prop where
  sums : B.Sums
  limit : B.used ≤ B.limit
  vacant : ∀ i t, B.slot i = some t → t.body = none → t.bytes = 0
  leaf : ∀ i t b, B.slot i = some t → t.freed < 2 ^ 32 → t.body = some b →
    b.isComposite = false → t.bytes = b.size

namespace Accounted

/-- One slot changes. -/
theorem update (h : B.Accounted) (hslot : B'.slot = Function.update B.slot i (some t))
    (hused : B'.used + B.bytesAt i = B.used + t.bytes) (hlimit : B'.used ≤ B'.limit)
    (hvacant : t.body = none → t.bytes = 0)
    (hleaf : t.freed < 2 ^ 32 → ∀ b, t.body = some b → b.isComposite = false → t.bytes = b.size) :
    B'.Accounted := by
  have hcases : ∀ j t', B'.slot j = some t' → t' = t ∨ B.slot j = some t' := by
    intro j t' ht'
    rw [hslot] at ht'
    by_cases hj : j = i
    · rw [hj, Function.update_self] at ht'
      exact .inl (Option.some.inj ht').symm
    · rw [Function.update_of_ne hj] at ht'
      exact .inr ht'
  refine ⟨h.sums.update hslot hused, hlimit, fun j t' ht' => ?_, fun j t' b ht' hf => ?_⟩
  · rcases hcases j t' ht' with rfl | hold
    · exact hvacant
    · exact h.vacant j t' hold
  · rcases hcases j t' ht' with rfl | hold
    · exact hleaf hf b
    · exact h.leaf j t' b hold hf

/-- The contents of a cell change, but not the size of a leaf. -/
theorem edit (h : B.Accounted) {f : Body → Body} (hkind : ∀ b, (f b).kind = b.kind)
    (hsize : ∀ b, b.isComposite = false → (f b).size = b.size) : (B.edit i f).Accounted := by
  cases hs : B.slot i with
  | none =>
    have hsame : B.edit i f = B := by
      unfold Books.edit
      rw [hs, Option.map_none, ← hs, Function.update_eq_self]
    rwa [hsame]
  | some t =>
    have hslot : (B.edit i f).slot = Function.update B.slot i
        (some { t with body := t.body.map f }) := by
      unfold Books.edit
      rw [hs]
      rfl
    refine h.update hslot ?_ h.limit (fun hb => ?_) fun hf b hb hleaf => ?_
    · rw [bytesAt_of_slot hs]
      rfl
    · exact h.vacant i t hs (Option.map_eq_none_iff.mp hb)
    · obtain ⟨c, hc, rfl⟩ := Option.map_eq_some_iff.mp hb
      have hleaf' : c.isComposite = false := by
        unfold Body.isComposite at hleaf ⊢
        rwa [hkind] at hleaf
      rw [hsize c hleaf']
      exact h.leaf i t c hs hf hc hleaf'

/-- A slot is emptied. -/
theorem vacate (h : B.Accounted) : (B.vacate i).Accounted := by
  by_cases hempty : ∀ t, B.slot i = some t → t.body = none
  · rwa [vacate_of_empty hempty]
  · push Not at hempty
    obtain ⟨t, ht, hb⟩ := hempty
    obtain ⟨b, hb⟩ := Option.ne_none_iff_exists'.mp hb
    have hle := h.sums.le i
    rw [bytesAt_of_slot ht] at hle
    rw [vacate_of_body ht hb]
    refine h.update rfl ?_ ((Nat.sub_le _ _).trans h.limit) (fun _ => rfl) fun _ _ hb => ?_
    · rw [bytesAt_of_slot ht]
      dsimp only
      omega
    · cases hb

theorem wanes (h : B.Accounted) (hw : B.Wanes B') : B'.Accounted := by
  induction hw with
  | refl => exact h
  | tail _ hlast ih =>
    obtain ⟨i, rfl⟩ := hlast
    exact ih.vacate

/-- A cell is put into a vacant slot, if there is room for it. -/
theorem enter (h : B.Accounted) (hvacant : ∀ t, B.slot i = some t → t.body = none)
    (hroom : B.used + b.size ≤ B.limit) : (B.enter i b).Accounted := by
  have hzero : B.bytesAt i = 0 := by
    cases hs : B.slot i with
    | none =>
      unfold bytesAt
      rw [hs]
      rfl
    | some t => rw [bytesAt_of_slot hs, h.vacant i t hs (hvacant t hs)]
  refine h.update rfl ?_ hroom nofun fun _ c hc _ => ?_
  · rw [hzero]
    rfl
  · cases hc
    rfl

/-- A buffer gets another length, if there is room for it. -/
theorem resize (h : B.Accounted) {length : ℕ} (hs : B.slot i = some t) (hb : t.body = some b)
    (hbuffer : t.freed < 2 ^ 32 → b.kind = .buffer)
    (hroom : Body.cellBytes + length ≤ t.bytes ∨
      B.used - t.bytes + (Body.cellBytes + length) ≤ B.limit) :
    ((B.account i (Body.cellBytes + length)).edit i (·.modifyBuffer (·.resize length))).Accounted := by
  set t' : Tenure := ⟨t.freed, Body.cellBytes + length, some (b.modifyBuffer (·.resize length))⟩
  have hle := h.sums.le i
  rw [bytesAt_of_slot hs] at hle
  have hslot : ((B.account i (Body.cellBytes + length)).edit i (·.modifyBuffer (·.resize length))).slot =
      Function.update B.slot i (some t') := by
    unfold Books.edit Books.account
    dsimp only
    rw [Function.update_self, Function.update_idem, hs]
    simp [t', hb]
  have hused : ((B.account i (Body.cellBytes + length)).edit i
      (·.modifyBuffer (·.resize length))).used = B.used - t.bytes + (Body.cellBytes + length) := by
    unfold Books.edit Books.account
    rw [hs]
    rfl
  refine h.update hslot ?_ ?_ nofun fun hf c hc _ => ?_
  · rw [hused, bytesAt_of_slot hs]
    change _ = _ + (Body.cellBytes + length)
    omega
  · rw [hused]
    change _ ≤ B.limit
    have := h.limit
    omega
  · cases hc
    have hkind := hbuffer hf
    cases b with
    | buffer c =>
      change Body.cellBytes + length = Body.cellBytes + (c.resize length).size
      rw [Buffer.size_resize]
    | string _ => cases hkind
    | object _ => cases hkind
    | thread _ => cases hkind

end Accounted

end Books

theorem Arena.books_bytesAt {a : Arena} {i : ℕ} : a.books.bytesAt i = a.bytesAt i := by
  simp [Books.bytesAt, books, bytesAt, Function.comp_def]

end CountedHeap
