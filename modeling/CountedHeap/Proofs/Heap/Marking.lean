import Mathlib.Data.List.TakeWhile
import CountedHeap.Heap.Marking
import CountedHeap.Proofs.Arena.Books
import CountedHeap.Proofs.Bags
import CountedHeap.Proofs.Heap.Balance

/-!
# What marking computes

Marking changes marks only. What it marks is what can be reached from the worklist over the traced
references of composite cells, and nothing else.

* `Arena.Alike`: two arenas that differ in marks at most.
* `Arena.Traces`: the composite cells that can be reached from some handles.
* `marked_mark_iff`: marking computes reachability.
* `tally_eq_countP`: the tally counts the owned references to a slot.
* `mem_outsideHolds`, `marked_markHeld_iff`: where a pass starts, and what it marks.
-/

namespace CountedHeap

namespace Arena

variable {a a' a'' : Arena} {r p q : Handle} {i j n m : ℕ} {b : Body} {c : Cell}
  {work : List Handle} {S : Handle → Prop}

/-! ## Arenas that differ in marks -/

/-- Two arenas with the same cells, up to marks, and the same lists. -/
structure Alike (a a' : Arena) : Prop where
  core : a'.core = a.core
  links : a'.linksAt = a.linksAt
  ends : a'.ends = a.ends
  free : a'.free = a.free
  books : a'.books = a.books

theorem Alike.refl : Alike a a :=
  ⟨rfl, rfl, rfl, rfl, rfl⟩

theorem Alike.trans (h₁ : Alike a a') (h₂ : Alike a' a'') : Alike a a'' :=
  ⟨h₂.core.trans h₁.core, h₂.links.trans h₁.links, h₂.ends.trans h₁.ends, h₂.free.trans h₁.free,
    h₂.books.trans h₁.books⟩

theorem Alike.symm (h : Alike a a') : Alike a' a :=
  ⟨h.core.symm, h.links.symm, h.ends.symm, h.free.symm, h.books.symm⟩

theorem Alike.holds (h : Alike a a') : a'.Holds r n b ↔ a.Holds r n b := by
  unfold Holds
  rw [h.core]

theorem Alike.members (h : Alike a a') (hs : a.Sound) : a'.members = a.members :=
  (hs.congr h.core h.links h.ends h.free).2

theorem Alike.handleAt (h : Alike a a') : a'.handleAt = a.handleAt :=
  handleAt_congr h.core

theorem alike_modifyMarks (f : Marks → Marks) : Alike a (a.modifyAt i (·.modifyMarks f)) :=
  ⟨core_modifyMarks f, linksAt_modifyAt _, rfl, rfl, books_modifyMarks f⟩

theorem alike_clearMarks : Alike a a.clearMarks :=
  ⟨core_modifyAll_of_eq fun _ => ⟨rfl, rfl⟩, linksAt_modifyAll _, rfl, rfl,
    books_modifyAll_of_eq fun _ => rfl⟩

/-- A handle names a composite cell. -/
def Composite (a : Arena) (r : Handle) : Prop :=
  ∃ n b, a.Holds r n b ∧ b.isComposite = true

theorem Composite.isLive (h : a.Composite r) : a.isLive r = true := by
  obtain ⟨n, b, hr, -⟩ := h
  exact hr.isLive

theorem Alike.composite (h : Alike a a') : a'.Composite r ↔ a.Composite r := by
  unfold Composite
  simp only [h.holds]

theorem composite_of_get? (h : a.get? r = some c) : a.Composite r ↔ c.isComposite = true := by
  constructor
  · rintro ⟨n, b, hb, hc⟩
    obtain ⟨c', hc', -, rfl⟩ := hb.get?
    rw [h] at hc'
    cases hc'
    exact hc
  · intro hc
    exact ⟨_, _, holds_of_get? h, hc⟩

/-- The cell in a slot is marked as reached. -/
def Marked (a : Arena) (i : ℕ) : Prop :=
  ∃ c, a.cellAt? i = some c ∧ c.header.marks.reachable = true

theorem marked_markAt : (a.markAt i).Marked j ↔ a.Marked j ∨ j = i ∧ (a.cellAt? i).isSome := by
  unfold Marked markAt
  rw [cellAt?_modifyAt]
  by_cases hj : j = i
  · subst hj
    cases a.cellAt? j <;> simp [Cell.modifyMarks]
  · simp [hj]

theorem marked_markAt_self (hr : a.get? r = some c) : (a.markAt r.index).Marked r.index :=
  marked_markAt.mpr (.inr ⟨rfl, by rw [cellAt?_of_get? hr]; rfl⟩)

theorem not_marked_clearMarks : ¬ a.clearMarks.Marked i := by
  rintro ⟨c, hc, hm⟩
  unfold clearMarks modifyAll cellAt? at hc
  simp only [Array.getElem?_map] at hc
  cases hs : a.slots[i]? with
  | none => simp [hs] at hc
  | some s =>
    obtain ⟨g, l, b, k⟩ := s
    cases k <;> simp [hs] at hc
    subst hc
    cases hm

/-! ## Reachability -/

/-- The composite cells that can be reached from some handles over traced references. -/
inductive Traces (a : Arena) (S : Handle → Prop) : Handle → Prop where
  | start {r : Handle} : S r → a.Composite r → Traces a S r
  | step {p q : Handle} {n : ℕ} {b : Body} : Traces a S p → a.Holds p n b → q ∈ b.tracedRefs →
      a.Composite q → Traces a S q

theorem Traces.composite (h : a.Traces S r) : a.Composite r := by
  cases h <;> assumption

theorem Traces.mono {S' : Handle → Prop} (h : a.Traces S r) (hS : ∀ r, S r → S' r) :
    a.Traces S' r := by
  induction h with
  | start hr hc => exact .start (hS _ hr) hc
  | step _ hp hq hc ih => exact .step ih hp hq hc

theorem Alike.traces (h : Alike a a') (ht : a'.Traces S r) : a.Traces S r := by
  induction ht with
  | start hr hc => exact .start hr (h.composite.mp hc)
  | step _ hp hq hc ih => exact .step ih (h.holds.mp hp) hq (h.composite.mp hc)

/-- What a marked cell refers to is marked too, or on the worklist. -/
def Closed (a : Arena) (work : List Handle) : Prop :=
  ∀ p n b, a.Holds p n b → a.Marked p.index → ∀ q ∈ b.tracedRefs, a.Composite q →
    a.Marked q.index ∨ q ∈ work

theorem Closed.mono {work' : List Handle} (h : a.Closed work) (hw : ∀ q ∈ work, q ∈ work') :
    a.Closed work' :=
  fun p n b hp hm q hq hc => (h p n b hp hm q hq hc).imp_right (hw q)

/-- Where nothing is marked there is nothing to follow. -/
theorem closed_of_not_marked (h : ∀ i, ¬ a.Marked i) : a.Closed work :=
  fun p _ _ _ hm => absurd hm (h p.index)

theorem Closed.marked (h : a.Closed []) (hS : ∀ r, S r → a.Composite r → a.Marked r.index)
    (ht : a.Traces S r) : a.Marked r.index := by
  induction ht with
  | start hr hc => exact hS _ hr hc
  | step _ hp hq hc ih => exact (h _ _ _ hp ih _ hq hc).resolve_right (by simp)

/-! ## Marking -/

/-- The cells that marking passes over. -/
def Settled (a : Arena) (r : Handle) : Prop :=
  a.Composite r → a.Marked r.index

theorem settled_iff : a.Settled r ↔ a.awaits r = false := by
  unfold Settled awaits
  cases hr : a.get? r with
  | none =>
    refine ⟨fun _ => rfl, fun _ hc => ?_⟩
    obtain ⟨m, b, hb, -⟩ := hc
    obtain ⟨c, hc, -⟩ := hb.get?
    rw [hr] at hc
    cases hc
  | some c =>
    have hmarked : a.Marked r.index ↔ c.header.marks.reachable = true := by
      unfold Marked
      rw [cellAt?_of_get? hr]
      constructor
      · rintro ⟨c', hc, hm⟩
        exact Option.some.inj hc ▸ hm
      · exact fun hm => ⟨c, rfl, hm⟩
    rw [composite_of_get? hr, hmarked, Bool.and_eq_false_iff, Bool.not_eq_false', ← Bool.not_eq_true,
      imp_iff_not_or]

theorem awaits_iff : a.awaits r = true ↔
    ∃ c, a.get? r = some c ∧ c.isComposite = true ∧ c.header.marks.reachable = false := by
  unfold awaits
  cases a.get? r <;> simp

theorem tracedFrom_of_get? (hr : a.get? r = some c) : a.tracedFrom r = c.body.tracedRefs := by
  unfold tracedFrom
  rw [hr]

/-- Where no cell is unmarked nothing awaits marking. -/
theorem settled_of_unmarkedCount (h : a.unmarkedCount = 0) (r : Handle) : a.Settled r := by
  rw [settled_iff]
  by_contra hawaits
  obtain ⟨c, hr, hcomp, hmark⟩ := awaits_iff.mp (by simpa using hawaits)
  have hlt := unmarkedCount_markAt_lt hr hcomp hmark
  omega

/-- Marking as a process that counts: each step passes a cell over, or visits it and counts it. -/
theorem mark_count_induction {P : Arena → List Handle → ℕ → Prop}
    (skip : ∀ a r work n, a.Settled r → P a (r :: work) n → P a work n)
    (visit : ∀ a r work n c, a.get? r = some c → c.isComposite = true →
      c.header.marks.reachable = false → P a (r :: work) n →
      P (a.markAt r.index) (c.body.tracedRefs ++ work) (n + 1))
    (h : P a work n) : P (a.mark work n).1 [] (a.mark work n).2 := by
  have hskip : ∀ a work n, P a work n → P a (work.dropWhile fun r => !a.awaits r) n := by
    intro a work n h
    induction work with
    | nil => exact h
    | cons r work ih =>
      rw [List.dropWhile_cons]
      split
      · rename_i hr
        exact ih (skip a r work n (settled_iff.mpr (by simpa using hr)) h)
      · exact h
  suffices hwithin : ∀ m a work n, a.unmarkedCount ≤ m → P a work n →
      P (markWithin m a work n).1 [] (markWithin m a work n).2 from hwithin _ a work n le_rfl h
  intro m
  induction m with
  | zero =>
    intro a work n hm h
    have hdrop : work.dropWhile (fun r => !a.awaits r) = [] :=
      List.dropWhile_eq_nil_iff.mpr fun r _ => by
        simpa using settled_iff.mp (settled_of_unmarkedCount (Nat.le_zero.mp hm) r)
    have hdone := hskip a work n h
    rwa [hdrop] at hdone
  | succ m ih =>
    intro a work n hm h
    have hdone := hskip a work n h
    unfold markWithin
    cases hdrop : work.dropWhile fun r => !a.awaits r with
    | nil => rwa [hdrop] at hdone
    | cons r rest =>
      rw [hdrop] at hdone
      have hawaits : a.awaits r = true := by
        have hhead := List.head?_dropWhile_not (fun r => !a.awaits r) work
        rw [hdrop] at hhead
        simpa using hhead
      dsimp only
      obtain ⟨c, hr, hcomp, hmark⟩ := awaits_iff.mp hawaits
      have hlt := unmarkedCount_markAt_lt hr hcomp hmark
      rw [tracedFrom_of_get? hr]
      exact ih _ _ _ (by omega) (visit a r rest n c hr hcomp hmark hdone)

/-- Marking as a process: each step passes a cell over or visits it. -/
theorem mark_induction {P : Arena → List Handle → Prop}
    (skip : ∀ a r work, a.Settled r → P a (r :: work) → P a work)
    (visit : ∀ a r work c, a.get? r = some c → c.isComposite = true → P a (r :: work) →
      P (a.markAt r.index) (c.body.tracedRefs ++ work))
    (h : P a work) : P (a.mark work n).1 [] :=
  mark_count_induction (P := fun a work _ => P a work) (fun a r work _ => skip a r work)
    (fun a r work _ c hr hcomp _ => visit a r work c hr hcomp) h

theorem alike_mark : Alike a (a.mark work n).1 :=
  mark_induction (P := fun a' _ => Alike a a') (fun _ _ _ _ h => h)
    (fun _ _ _ _ _ _ h => h.trans (alike_modifyMarks _)) .refl

theorem marked_mark_of_marked (h : a.Marked i) : (a.mark work n).1.Marked i :=
  mark_induction (P := fun a' _ => a'.Marked i) (fun _ _ _ _ h => h)
    (fun _ _ _ _ _ _ h => marked_markAt.mpr (.inl h)) h

/-- The whole worklist is marked. -/
theorem marked_mark_of_mem (hr : r ∈ work) (hc : a.Composite r) :
    (a.mark work n).1.Marked r.index := by
  refine (mark_induction (P := fun a' work' => a'.Composite r ∧ (a'.Marked r.index ∨ r ∈ work'))
    ?_ ?_ ⟨hc, .inr hr⟩).2.resolve_right (by simp)
  · rintro a q work hset ⟨hc, hm | hm⟩
    · exact ⟨hc, .inl hm⟩
    · rcases List.mem_cons.mp hm with rfl | hm
      · exact ⟨hc, .inl (hset hc)⟩
      · exact ⟨hc, .inr hm⟩
  · rintro a q work c hq hcomp ⟨hc, hm⟩
    refine ⟨(alike_modifyMarks _).composite.mpr hc, ?_⟩
    rcases hm with hm | hm
    · exact .inl (marked_markAt.mpr (.inl hm))
    · rcases List.mem_cons.mp hm with rfl | hm
      · exact .inl (marked_markAt_self hq)
      · exact .inr (List.mem_append.mpr (.inr hm))

/-- What is marked in the end is closed under traced references. -/
theorem closed_mark (h : a.Closed work) : (a.mark work n).1.Closed [] := by
  refine mark_induction (P := Closed) ?_ ?_ h
  · intro a r work hset h p n b hp hm q hq hc
    rcases h p n b hp hm q hq hc with hm | hq
    · exact .inl hm
    · rcases List.mem_cons.mp hq with rfl | hq
      · exact .inl (hset hc)
      · exact .inr hq
  · intro a r work c hr hcomp h p n b hp hm q hq hc
    have halike : Alike a (a.markAt r.index) := alike_modifyMarks _
    replace hp := halike.holds.mp hp
    have hcell := holds_of_get? hr
    rcases marked_markAt.mp hm with hm | ⟨hi, -⟩
    · rcases h p n b hp hm q hq (halike.composite.mp hc) with hm | hq
      · exact .inl (marked_markAt.mpr (.inl hm))
      · rcases List.mem_cons.mp hq with rfl | hq
        · exact .inl (marked_markAt_self hr)
        · exact .inr (List.mem_append.mpr (.inr hq))
    · -- The cell just visited: its references have been put on the worklist.
      obtain rfl := hp.eq_of_index hcell hi
      obtain ⟨-, rfl⟩ := hp.unique hcell
      exact .inr (List.mem_append.mpr (.inl hq))

/-- Only what is reached is marked. -/
theorem traces_of_marked_mark (hc : a.Composite r) (hm : (a.mark work n).1.Marked r.index) :
    a.Marked r.index ∨ a.Traces (· ∈ work) r := by
  have hinv : Alike a (a.mark work n).1 ∧
      (∀ p, a.Composite p → (a.mark work n).1.Marked p.index →
        a.Marked p.index ∨ a.Traces (· ∈ work) p) ∧
      ∀ p ∈ ([] : List Handle), a.Composite p → a.Traces (· ∈ work) p := by
    refine mark_induction (P := fun a' work' => Alike a a' ∧
      (∀ p, a.Composite p → a'.Marked p.index → a.Marked p.index ∨ a.Traces (· ∈ work) p) ∧
      ∀ p ∈ work', a.Composite p → a.Traces (· ∈ work) p) ?_ ?_
      ⟨.refl, fun p _ hp => .inl hp, fun p hp hc => .start hp hc⟩
    · rintro a' q work' - ⟨halike, hmarked, hwork⟩
      exact ⟨halike, hmarked, fun p hp => hwork p (List.mem_cons_of_mem _ hp)⟩
    · rintro a' q work' c hq hcomp ⟨halike, hmarked, hwork⟩
      have hcell := halike.holds.mp (holds_of_get? hq)
      have htrace : a.Traces (· ∈ work) q :=
        hwork q (by simp) (halike.composite.mp ((composite_of_get? hq).mpr hcomp))
      refine ⟨halike.trans (alike_modifyMarks _), fun p hp hm => ?_, fun p hp hc => ?_⟩
      · rcases marked_markAt.mp hm with hm | ⟨hi, -⟩
        · exact hmarked p hp hm
        · obtain ⟨m, b, hb, -⟩ := hp
          obtain rfl := hb.eq_of_index hcell hi
          exact .inr htrace
      · rcases List.mem_append.mp hp with hp | hp
        · exact .step htrace hcell hp hc
        · exact hwork p (List.mem_cons_of_mem _ hp) hc
  exact hinv.2.1 r hc hm

/-- Marking computes reachability: where what is marked is closed, what the worklist reaches is added
to it. -/
theorem marked_mark_iff (h : a.Closed []) (hc : a.Composite r) :
    (a.mark work n).1.Marked r.index ↔ a.Marked r.index ∨ a.Traces (· ∈ work) r := by
  constructor
  · exact traces_of_marked_mark hc
  · rintro (hm | ht)
    · exact marked_mark_of_marked hm
    · have hclosed : (a.mark work n).1.Closed [] := closed_mark (h.mono (by simp))
      refine hclosed.marked (S := (· ∈ work)) (fun p hp hc => ?_) (alike_mark.symm.traces ht)
      exact marked_mark_of_mem hp (alike_mark.composite.mp hc)

/-! ## The tally -/

/-- The references that the cell of a slot owns. -/
def slotRefs (s : ArenaSlot) : List Handle :=
  (s.cell.map (·.body.refs)).getD []

theorem refsAt_eq : a.refsAt i = ((a.slots[i]?).map slotRefs).getD [] := by
  unfold refsAt cellAt?
  cases a.slots[i]? with
  | none => rfl
  | some s => rfl

/-- What cells own, slot by slot. -/
theorem coe_flatMap_slotRefs :
    (a.slots.toList.flatMap slotRefs : List Handle) = a.owned ∅ := by
  have hsum : ∀ l : List ArenaSlot, ∑ i ∈ Finset.range l.length,
      (((l[i]?).map slotRefs).getD [] : Multiset Handle) = (l.flatMap slotRefs : List Handle) := by
    intro l
    induction l using List.reverseRecOn with
    | nil => rfl
    | append_singleton l s ih =>
      rw [List.length_append, List.length_singleton, Finset.sum_range_succ, coe_flatMap_concat, ← ih]
      congr 1
      · apply Finset.sum_congr rfl
        intro i hi
        rw [List.getElem?_append_left (Finset.mem_range.mp hi)]
      · simp
  unfold owned
  rw [← hsum, Finset.sdiff_empty, Array.length_toList]
  apply Finset.sum_congr rfl
  intro i _
  rw [refsAt_eq, Array.getElem?_toList]

/-- Counts one more reference to its slot. -/
def tallyRef (counts : Array ℕ) (r : Handle) : Array ℕ :=
  counts.modify r.index (· + 1)

theorem tally_eq : a.tally =
    (a.slots.toList.flatMap slotRefs).foldl tallyRef (Array.replicate a.slots.size 0) := by
  unfold tally
  rw [← Array.foldl_toList, List.foldl_flatMap]
  congr 1
  funext counts s
  unfold slotRefs
  cases s.cell <;> rfl

theorem getD_foldl_tallyRef (rs : List Handle) (counts : Array ℕ) (hi : i < counts.size) :
    (rs.foldl tallyRef counts).getD i 0 = counts.getD i 0 + rs.countP (·.index = i) := by
  induction rs generalizing counts with
  | nil => simp
  | cons r rs ih =>
    have hstep : (tallyRef counts r).getD i 0 =
        counts.getD i 0 + if r.index = i then 1 else 0 := by
      unfold tallyRef
      rw [Array.getD_eq_getD_getElem?, Array.getD_eq_getD_getElem?, Array.getElem?_modify]
      split <;> simp [hi]
    rw [List.foldl_cons, ih (tallyRef counts r) (by simpa [tallyRef] using hi), hstep,
      List.countP_cons]
    simp only [decide_eq_true_eq]
    omega

/-- The tally counts the references that cells own to the cells of a slot. -/
theorem getD_tally (hi : i < a.slots.size) :
    a.tally.getD i 0 = (a.owned ∅).countP (·.index = i) := by
  rw [tally_eq, getD_foldl_tallyRef _ _ (by simpa using hi), ← coe_flatMap_slotRefs]
  simp [hi]

theorem mem_cells {x : ℕ × Cell} : x ∈ a.cells ↔ a.cellAt? x.1 = some x.2 := by
  obtain ⟨i, c⟩ := x
  unfold cells cellAt?
  simp only [List.mem_filterMap, Prod.exists, List.mk_mem_zipIdx_iff_getElem?,
    Array.getElem?_toList, Option.map_eq_some_iff, Prod.mk.injEq, Option.bind_eq_some_iff]
  constructor
  · rintro ⟨s, j, hs, c', hc, rfl, rfl⟩
    exact ⟨s, hs, hc⟩
  · rintro ⟨s, hs, hc⟩
    exact ⟨s, i, hs, c, hc, rfl, rfl⟩

end Arena

namespace Heap

open Arena (Alike Marked Traces)

variable {h : Heap} {X : Multiset Handle} {r : Handle} {n i : ℕ} {b : Body}

/-! ## Where a pass starts -/

/-- Something holds a composite cell from outside, as far as its slot tells. -/
theorem mem_outsideHolds : r ∈ h.outsideHolds ↔
    (h.arena.handleAt r.index = r ∧ ∃ c, h.arena.cellAt? r.index = some c ∧ c.isComposite = true ∧
      (h.arena.tally.getD r.index 0 < c.header.count ∨ c.body.isActiveThread = true ∨
        (h.arena.linksAt r.index).chain = some .queue)) ∨
    r ∈ h.rootRefs ∨ h.current = some r := by
  have hchain : ∀ i, h.arena.chainOf i = (h.arena.linksAt i).chain := fun _ => Arena.chainOf_eq
  unfold outsideHolds
  simp only [List.mem_append, Option.mem_toList, List.mem_filterMap]
  rw [or_assoc]
  refine or_congr ?_ Iff.rfl
  constructor
  · rintro ⟨⟨i, c⟩, hc, hr⟩
    have hc := Arena.mem_cells.mp hc
    simp only [Option.ite_none_right_eq_some, Option.some.injEq, Bool.and_eq_true, Bool.or_eq_true,
      decide_eq_true_eq, hchain] at hr
    obtain ⟨⟨hcomp, hheld⟩, rfl⟩ := hr
    exact ⟨rfl, c, hc, hcomp, by rwa [or_assoc] at hheld⟩
  · rintro ⟨he, c, hc, hcomp, hheld⟩
    refine ⟨(r.index, c), Arena.mem_cells.mpr hc, ?_⟩
    simp only [Option.ite_none_right_eq_some, Option.some.injEq, Bool.and_eq_true, Bool.or_eq_true,
      decide_eq_true_eq, hchain]
    exact ⟨⟨hcomp, by rwa [or_assoc]⟩, he⟩

theorem alike_markHeld : Alike h.arena h.markHeld.arena :=
  Arena.alike_clearMarks.trans Arena.alike_mark

theorem closed_markHeld : h.markHeld.arena.Closed [] :=
  Arena.closed_mark (Arena.closed_of_not_marked fun _ => Arena.not_marked_clearMarks)

/-- A pass marks what it reaches from outside. -/
theorem marked_markHeld_iff (hr : h.arena.Composite r) :
    h.markHeld.arena.Marked r.index ↔ h.arena.Traces (· ∈ h.outsideHolds) r := by
  have halike : Alike h.arena h.arena.clearMarks := Arena.alike_clearMarks
  have hnone : ∀ i, ¬ h.arena.clearMarks.Marked i := fun _ => Arena.not_marked_clearMarks
  have hiff : h.markHeld.arena.Marked r.index ↔ h.arena.clearMarks.Traces (· ∈ h.outsideHolds) r :=
    (Arena.marked_mark_iff (Arena.closed_of_not_marked hnone) (halike.composite.mpr hr)).trans
      (or_iff_right (hnone r.index))
  exact hiff.trans ⟨halike.traces, halike.symm.traces⟩

namespace Balanced

/-- Where counts are exact, the tally of a slot is that of its cell. -/
theorem getD_tally (hb : h.Balanced ∅ X) (hr : h.arena.Holds r n b) :
    h.arena.tally.getD r.index 0 = (h.arena.owned ∅).count r := by
  rw [Arena.getD_tally (Arena.lt_size_of_core hr)]
  unfold Multiset.count
  apply Multiset.countP_congr rfl
  intro q hq
  refine propext ⟨fun hi => ?_, ?_⟩
  · have hlive : h.arena.isLive q = true := by
      apply hb.live
      unfold stored
      simp only [Multiset.mem_add]
      exact .inl (.inl (.inl hq))
    obtain ⟨m, b', hq'⟩ := Arena.isLive_iff.mp hlive
    exact (hq'.eq_of_index hr hi).symm
  · rintro rfl
    rfl

/-- Where counts are exact, a pass starts from the composite cells that the outside, a root or the
heap holds, from active threads and from queued cells. -/
theorem mem_outsideHolds (hb : h.Balanced ∅ X) (hr : h.arena.Holds r n b)
    (hc : b.isComposite = true) : r ∈ h.outsideHolds ↔
      r ∈ X ∨ r ∈ h.rootRefs ∨ h.finalizerKey = some r ∨ b.isActiveThread = true ∨
        (h.arena.linksAt r.index).chain = some .queue ∨ h.current = some r := by
  obtain ⟨c, hcell, hn, hbody⟩ := hr.get?
  have hat := Arena.cellAt?_of_get? hcell
  have hcount : h.arena.tally.getD r.index 0 < n ↔
      r ∈ X ∨ r ∈ h.rootRefs ∨ h.finalizerKey = some r := by
    have hn := hb.count_eq hr
    unfold stored at hn
    simp only [Multiset.count_add, Multiset.coe_count] at hn
    rw [hb.getD_tally hr, ← Multiset.count_pos, ← List.count_pos_iff,
      show h.finalizerKey = some r ↔ 0 < h.finalizerKey.toList.count r by
        rw [List.count_pos_iff, Option.mem_toList]]
    omega
  rw [Heap.mem_outsideHolds, hat]
  simp only [hr.handleAt, true_and, Option.some.injEq, exists_eq_left', hn, hcount, hbody,
    show c.isComposite = true from (hbody ▸ hc : c.body.isComposite = true)]
  grind

end Balanced

end Heap

end CountedHeap
