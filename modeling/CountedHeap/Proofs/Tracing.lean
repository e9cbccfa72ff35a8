import Mathlib.Data.Set.Card
import Mathlib.Logic.Relation
import CountedHeap.Proofs.Heap.Marking

/-!
# Marking computes reachability

Marking takes entries off a worklist, passes over stale handles, leaves and marked cells, and puts
the references of each cell that it marks on the worklist. The worklist grows while it is worked off
and may hold an entry often. But a turn uses up an entry that was there from the start, or a reference
of a cell that was not marked then, so there are no more turns than these. It does not matter which
entry is taken next: two turns can be swapped, so every order ends with the same marks.

* `Tour`, `Tour.Step`: marking turn by turn, in any order.
* `Tour.Step.effort`: a turn takes one from what there is to do.
* `Tour.endsIn_mark`: every order ends, and as `Arena.mark` does.
* `Arena.marks_mark`, `Arena.encard_marks_mark`: what is marked in the end, and how many cells that adds.
* `Arena.unreached_mark`, `Arena.get?_mark`: nothing else changes.
* `marking_reaches`: all of it.
-/

namespace CountedHeap

/-- Leaves refer to nothing. -/
theorem Body.tracedRefs_eq_nil {b : Body} (hb : b.isComposite = false) : b.tracedRefs = [] := by
  cases b with
  | string _ | buffer _ => rfl
  | object _ | thread _ => cases hb

/-- The references that marking follows from a cell when it comes to it. -/
def Cell.pendingRefs (c : Cell) : ℕ :=
  if c.isComposite && !c.header.marks.reachable then c.body.tracedRefs.length else 0

namespace Arena

variable {a : Arena} {r q : Handle} {i j n : ℕ} {work : List Handle}

/-! ## Marked cells -/

/-- The marked composite cells. -/
def marks (a : Arena) : Set Handle :=
  {r | a.Composite r ∧ a.Marked r.index}

/-- The composite cells that a worklist reaches over traced references of composite cells. -/
def reached (a : Arena) (work : List Handle) : Set Handle :=
  {r | a.Traces (· ∈ work) r}

/-- A set of cells contains the composite cells that its cells refer to. -/
def ClosedOn (a : Arena) (M : Set Handle) : Prop :=
  ∀ p ∈ M, ∀ q ∈ a.tracedFrom p, a.Composite q → q ∈ M

theorem mem_marks_iff : r ∈ a.marks ↔
    ∃ c, a.get? r = some c ∧ c.isComposite = true ∧ c.header.marks.reachable = true := by
  constructor
  · rintro ⟨⟨n, b, hb, hcomp⟩, c', hc', hm⟩
    obtain ⟨c, hc, -, rfl⟩ := hb.get?
    rw [cellAt?_of_get? hc] at hc'
    cases hc'
    exact ⟨c', hc, hcomp, hm⟩
  · rintro ⟨c, hc, hcomp, hm⟩
    exact ⟨(composite_of_get? hc).mpr hcomp, c, cellAt?_of_get? hc, hm⟩

theorem Holds.tracedFrom {b : Body} (h : a.Holds r n b) : a.tracedFrom r = b.tracedRefs := by
  obtain ⟨c, hc, -, rfl⟩ := h.get?
  exact tracedFrom_of_get? hc

/-- A mark on a leaf makes no difference, for there is nothing to follow from it. -/
theorem closed_iff : a.Closed [] ↔ a.ClosedOn a.marks := by
  constructor
  · rintro h p ⟨⟨n, b, hp, -⟩, hm⟩ q hq hc
    rw [hp.tracedFrom] at hq
    exact ⟨hc, (h p n b hp hm q hq hc).resolve_right (by simp)⟩
  · intro h p n b hp hm q hq hc
    cases hcomp : b.isComposite with
    | true => exact .inl (h p ⟨⟨n, b, hp, hcomp⟩, hm⟩ q (hp.tracedFrom ▸ hq) hc).2
    | false =>
      rw [Body.tracedRefs_eq_nil hcomp] at hq
      cases hq

/-- Whether the marked cells are closed can be seen cell by cell. -/
theorem closedOn_marks_iff : a.ClosedOn a.marks ↔
    ∀ x ∈ a.cells, x.2.isComposite = true → x.2.header.marks.reachable = true →
      ∀ q ∈ x.2.body.tracedRefs, a.awaits q = false := by
  constructor
  · intro h x hx hcomp hm q hq
    have hget := cellAt?_eq_some (mem_cells.mp hx)
    rw [← tracedFrom_of_get? hget] at hq
    exact settled_iff.mp fun hc => (h _ (mem_marks_iff.mpr ⟨x.2, hget, hcomp, hm⟩) q hq hc).2
  · intro h p hp q hq hc
    obtain ⟨c, hget, hcomp, hm⟩ := mem_marks_iff.mp hp
    rw [tracedFrom_of_get? hget] at hq
    have hx : (p.index, c) ∈ a.cells := mem_cells.mpr (cellAt?_of_get? hget)
    exact ⟨hc, settled_iff.mpr (h _ hx hcomp hm q hq) hc⟩

instance : Decidable (a.ClosedOn a.marks) :=
  decidable_of_iff _ closedOn_marks_iff.symm

/-- Marking adds to the marked cells what the worklist reaches. -/
theorem marks_mark (h : a.ClosedOn a.marks) :
    (a.mark work n).1.marks = a.marks ∪ a.reached work := by
  have hiff : ∀ r, a.Composite r →
      ((a.mark work n).1.Marked r.index ↔ a.Marked r.index ∨ a.Traces (· ∈ work) r) :=
    fun _ => marked_mark_iff (closed_iff.mpr h)
  ext r
  constructor
  · rintro ⟨hc, hm⟩
    have hr := alike_mark.composite.mp hc
    exact ((hiff r hr).mp hm).imp_left fun hold => ⟨hr, hold⟩
  · rintro (⟨hr, hm⟩ | ht)
    · exact ⟨alike_mark.composite.mpr hr, (hiff r hr).mpr (.inl hm)⟩
    · have hr := Traces.composite ht
      exact ⟨alike_mark.composite.mpr hr, (hiff r hr).mpr (.inr ht)⟩

theorem closedOn_marks_mark (h : a.ClosedOn a.marks) :
    (a.mark work n).1.ClosedOn (a.mark work n).1.marks :=
  closed_iff.mp (closed_mark ((closed_iff.mpr h).mono (by simp)))

/-! ## One cell more -/

theorem marks_markAt (h : a.awaits r = true) : (a.markAt r.index).marks = insert r a.marks := by
  obtain ⟨c, hr, hcomp, -⟩ := awaits_iff.mp h
  have halike : Alike a (a.markAt r.index) := alike_modifyMarks _
  ext q
  constructor
  · rintro ⟨hq, hm⟩
    have hq := halike.composite.mp hq
    rcases marked_markAt.mp hm with hm | ⟨hi, -⟩
    · exact .inr ⟨hq, hm⟩
    · obtain ⟨n, b, hb, -⟩ := hq
      exact .inl (hb.eq_of_index (holds_of_get? hr) hi)
  · rintro (rfl | ⟨hq, hm⟩)
    · exact ⟨halike.composite.mpr ((composite_of_get? hr).mpr hcomp), marked_markAt_self hr⟩
    · exact ⟨halike.composite.mpr hq, marked_markAt.mpr (.inl hm)⟩

theorem not_mem_marks_of_awaits (h : a.awaits r = true) : r ∉ a.marks := by
  obtain ⟨c, hr, -, hm⟩ := awaits_iff.mp h
  intro hmem
  obtain ⟨c', hc', -, hm'⟩ := mem_marks_iff.mp hmem
  rw [hr] at hc'
  cases hc'
  rw [hm] at hm'
  cases hm'

/-- The answer of marking is the number of cells that it has marked. -/
theorem encard_marks_mark :
    ((a.mark work n).1.marks \ a.marks).encard + n = (a.mark work n).2 := by
  refine (mark_count_induction
    (P := fun a' _ n' => a.marks ⊆ a'.marks ∧ (a'.marks \ a.marks).encard + n = n')
    (fun _ _ _ _ _ h => h) ?_ ⟨subset_rfl, by simp⟩).2
  rintro a' r work' n' c hr hcomp hm ⟨hsub, hcount⟩
  have hawaits : a'.awaits r = true := awaits_iff.mpr ⟨c, hr, hcomp, hm⟩
  have hnew : r ∉ a'.marks := not_mem_marks_of_awaits hawaits
  -- What is marked stays marked, so this cell was not marked at the start either.
  rw [marks_markAt hawaits]
  refine ⟨hsub.trans (Set.subset_insert _ _), ?_⟩
  rw [Set.insert_sdiff_of_notMem _ fun hold => hnew (hsub hold),
    Set.encard_insert_of_notMem fun hold => hnew hold.1, add_right_comm, hcount]
  norm_cast

/-! ## Nothing else changes -/

/-- The arena without the marks of reached cells. -/
def unreached (a : Arena) : Arena :=
  a.modifyAll (·.modifyMarks ({ · with reachable := false }))

theorem unreached_markAt : (a.markAt i).unreached = a.unreached := by
  unfold unreached markAt modifyAll modifyAt
  congr 1
  apply Array.ext_getElem?
  intro j
  simp only [Array.getElem?_map, Array.getElem?_modify]
  split
  · simp [Function.comp_def, Cell.modifyMarks]
  · rfl

theorem unreached_mark : (a.mark work n).1.unreached = a.unreached :=
  mark_induction (P := fun a' _ => a'.unreached = a.unreached) (fun _ _ _ _ h => h)
    (fun _ _ _ _ _ _ h => unreached_markAt.trans h) rfl

/-- Marking a cell does not concern other handles, not even stale ones of its slot. -/
theorem get?_markAt {c : Cell} (hr : a.get? r = some c) (hne : q ≠ r) :
    (a.markAt r.index).get? q = a.get? q := by
  unfold markAt
  rw [get?_modifyAt]
  split
  · rename_i hi
    cases hq : a.get? q with
    | none => rfl
    | some d => exact absurd ((holds_of_get? hq).eq_of_index (holds_of_get? hr) hi) hne
  · rfl

/-- A leaf does not even get a mark. -/
theorem get?_mark (hr : ¬ a.Composite r) : (a.mark work n).1.get? r = a.get? r := by
  refine mark_induction (P := fun a' _ => a'.get? r = a.get? r) (fun _ _ _ _ h => h) ?_ rfl
  intro a' q work' c hq hcomp h
  refine (get?_markAt hq ?_).trans h
  rintro rfl
  exact hr ((composite_of_get? (h.symm.trans hq)).mpr hcomp)

/-! ## What there is to do -/

/-- How many references the unmarked composite cells have. -/
def untraced (a : Arena) : ℕ :=
  ∑ i ∈ Finset.range a.slots.size, ((a.cellAt? i).map Cell.pendingRefs).getD 0

/-- A cell is marked at the price of its references. -/
theorem untraced_markAt (h : a.awaits r = true) :
    (a.markAt r.index).untraced + (a.tracedFrom r).length = a.untraced := by
  obtain ⟨c, hr, hcomp, hm⟩ := awaits_iff.mp h
  have hcell : a.cellAt? r.index = some c := cellAt?_of_get? hr
  have hmem : r.index ∈ Finset.range a.slots.size :=
    Finset.mem_range.mpr (lt_size_of_core (holds_of_get? hr))
  have hsize : (a.markAt r.index).slots.size = a.slots.size := by simp [markAt, modifyAt]
  have hat : ∀ j, (a.markAt r.index).cellAt? j =
      if j = r.index then (a.cellAt? j).map (·.modifyMarks ({ · with reachable := true }))
      else a.cellAt? j := fun j => cellAt?_modifyAt
  have hothers : ∀ j ∈ (Finset.range a.slots.size).erase r.index,
      (((a.markAt r.index).cellAt? j).map Cell.pendingRefs).getD 0 =
        ((a.cellAt? j).map Cell.pendingRefs).getD 0 := by
    intro j hj
    rw [hat, if_neg (Finset.ne_of_mem_erase hj)]
  unfold untraced
  rw [hsize, ← Finset.add_sum_erase _ _ hmem,
    ← Finset.add_sum_erase (Finset.range a.slots.size) _ hmem, Finset.sum_congr rfl hothers, hat,
    if_pos rfl, hcell, tracedFrom_of_get? hr]
  have hbefore : c.pendingRefs = c.body.tracedRefs.length := by simp [Cell.pendingRefs, hcomp, hm]
  have hafter : (c.modifyMarks ({ · with reachable := true })).pendingRefs = 0 := by
    simp [Cell.pendingRefs, Cell.modifyMarks]
  simp only [Option.map_some, Option.getD_some, hbefore, hafter]
  omega

/-! ## Two cells in either order -/

theorem awaits_markAt (hr : a.awaits r = true) (hne : q ≠ r) :
    (a.markAt r.index).awaits q = a.awaits q := by
  obtain ⟨c, hr, -⟩ := awaits_iff.mp hr
  unfold awaits
  rw [get?_markAt hr hne]

theorem tracedFrom_markAt : (a.markAt i).tracedFrom q = a.tracedFrom q := by
  unfold tracedFrom markAt
  rw [get?_modifyAt]
  by_cases hi : q.index = i
  · rw [if_pos hi]
    cases a.get? q <;> rfl
  · rw [if_neg hi]

theorem markAt_comm : (a.markAt i).markAt j = (a.markAt j).markAt i :=
  modifyAt_comm fun _ => rfl

end Arena

/-! ## Marking turn by turn -/

/-- Where marking stands: the arena, the entries on the worklist, in no order, and how many cells have
been marked. -/
structure Tour where
  arena : Arena
  work : Multiset Handle
  marked : ℕ

namespace Tour

variable {t t' u v : Tour} {r q : Handle}

/-- Takes an entry off the worklist. A cell that awaits marking is marked and counted, and its references
join the worklist. -/
def take (t : Tour) (r : Handle) : Tour :=
  if t.arena.awaits r then
    ⟨t.arena.markAt r.index, (t.arena.tracedFrom r : Multiset Handle) + t.work.erase r, t.marked + 1⟩
  else ⟨t.arena, t.work.erase r, t.marked⟩

section

variable {a : Arena} {work : Multiset Handle} {n : ℕ}

theorem take_of_awaits (h : a.awaits r = true) : take ⟨a, work, n⟩ r =
    ⟨a.markAt r.index, (a.tracedFrom r : Multiset Handle) + work.erase r, n + 1⟩ :=
  if_pos h

theorem take_of_not_awaits (h : a.awaits r = false) :
    take ⟨a, work, n⟩ r = ⟨a, work.erase r, n⟩ :=
  if_neg (by simp [h])

end

/-- A turn takes some entry. -/
def Step (t t' : Tour) : Prop :=
  ∃ r ∈ t.work, t' = t.take r

/-- What there is to do: the entries of the worklist, and the references of unmarked cells. -/
def effort (t : Tour) : ℕ :=
  t.work.card + t.arena.untraced

/-- A turn takes one from what there is to do. -/
theorem Step.effort (h : Step t t') : t'.effort + 1 = t.effort := by
  obtain ⟨r, hr, rfl⟩ := h
  obtain ⟨a, work, n⟩ := t
  have hcard : (work.erase r).card + 1 = work.card := Multiset.card_erase_add_one hr
  cases ha : a.awaits r with
  | true =>
    have hprice := Arena.untraced_markAt ha
    rw [take_of_awaits ha]
    simp only [Tour.effort, Multiset.card_add, Multiset.coe_card]
    omega
  | false =>
    rw [take_of_not_awaits ha]
    simp only [Tour.effort]
    omega

/-- There are no more turns than there is to do. -/
theorem length_le_effort {run : List Tour} (h : (t :: run).IsChain Step) : run.length ≤ t.effort := by
  induction run generalizing t with
  | nil => exact Nat.zero_le _
  | cons u run ih =>
    obtain ⟨hstep, hrest⟩ := List.isChain_cons_cons.mp h
    have hlen := ih hrest
    have heffort := hstep.effort
    rw [List.length_cons]
    omega

/-! ## The order does not matter -/

theorem mem_take (hq : q ∈ t.work) (hne : q ≠ r) : q ∈ (t.take r).work := by
  have hmem : q ∈ t.work.erase r := (Multiset.mem_erase_of_ne hne).mpr hq
  unfold take
  split
  · exact Multiset.mem_add.mpr (.inr hmem)
  · exact hmem

/-- An entry that is passed over can be taken before or after another one. -/
theorem take_comm_of_not_awaits (hr : r ∈ t.work) (hne : r ≠ q) (har : t.arena.awaits r = false) :
    (t.take r).take q = (t.take q).take r := by
  obtain ⟨a, work, n⟩ := t
  have hr' : r ∈ work.erase q := (Multiset.mem_erase_of_ne hne).mpr hr
  cases haq : a.awaits q with
  | false =>
    rw [take_of_not_awaits har, take_of_not_awaits haq, take_of_not_awaits haq,
      take_of_not_awaits har, Multiset.erase_comm]
  | true =>
    have har' : (a.markAt q.index).awaits r = false := (Arena.awaits_markAt haq hne).trans har
    rw [take_of_not_awaits har, take_of_awaits haq, take_of_awaits haq, take_of_not_awaits har',
      Multiset.erase_add_right_pos _ hr', Multiset.erase_comm]

/-- Two entries can be taken in either order. -/
theorem take_comm (hr : r ∈ t.work) (hq : q ∈ t.work) (hne : r ≠ q) :
    (t.take r).take q = (t.take q).take r := by
  cases har : t.arena.awaits r with
  | false => exact take_comm_of_not_awaits hr hne har
  | true =>
    cases haq : t.arena.awaits q with
    | false => exact (take_comm_of_not_awaits hq hne.symm haq).symm
    | true =>
      obtain ⟨a, work, n⟩ := t
      have hr' : r ∈ work.erase q := (Multiset.mem_erase_of_ne hne).mpr hr
      have hq' : q ∈ work.erase r := (Multiset.mem_erase_of_ne hne.symm).mpr hq
      -- To mark the one leaves the other unmarked.
      have har' : (a.markAt q.index).awaits r = true := (Arena.awaits_markAt haq hne).trans har
      have haq' : (a.markAt r.index).awaits q = true :=
        (Arena.awaits_markAt har hne.symm).trans haq
      rw [take_of_awaits har, take_of_awaits haq, take_of_awaits haq', take_of_awaits har',
        Multiset.erase_add_right_pos _ hr', Multiset.erase_add_right_pos _ hq',
        Arena.tracedFrom_markAt, Arena.tracedFrom_markAt, Arena.markAt_comm, Multiset.erase_comm,
        add_left_comm]

/-- Two turns that are possible next can be brought together again. -/
theorem Step.diamond (hu : Step t u) (hv : Step t v) :
    ∃ w, Relation.ReflGen Step u w ∧ Relation.ReflTransGen Step v w := by
  obtain ⟨r, hr, rfl⟩ := hu
  obtain ⟨q, hq, rfl⟩ := hv
  by_cases hne : r = q
  · subst hne
    exact ⟨_, .refl, .refl⟩
  · exact ⟨(t.take r).take q, .single ⟨q, mem_take hq (Ne.symm hne), rfl⟩,
      .single ⟨r, mem_take hr hne, take_comm hr hq hne⟩⟩

/-- With an empty worklist there is no turn left. -/
theorem eq_of_done (ht : t.work = 0) (h : Relation.ReflTransGen Step t u) : u = t := by
  rcases Relation.ReflTransGen.cases_head h with rfl | ⟨v, ⟨r, hr, -⟩, -⟩
  · rfl
  · rw [ht] at hr
    simp at hr

/-- However entries are taken, marking comes to an end, and always to the same one. -/
structure EndsIn (t t' : Tour) : Prop where
  /-- No sequence of turns is longer than there is to do. -/
  bounded : ∀ run, (t :: run).IsChain Step → run.length ≤ t.effort
  reaches : Relation.ReflTransGen Step t t'
  done : t'.work = 0
  /-- Any sequence of turns that has emptied the worklist has come to the same end. -/
  unique : ∀ u, Relation.ReflTransGen Step t u → u.work = 0 → u = t'

theorem EndsIn.of_reaches (h : Relation.ReflTransGen Step t t') (hdone : t'.work = 0) :
    t.EndsIn t' where
  bounded _ := length_le_effort
  reaches := h
  done := hdone
  unique u hu hwork := by
    obtain ⟨w, huw, htw⟩ := Relation.church_rosser (fun _ _ _ => Step.diamond) hu h
    exact (eq_of_done hwork huw).symm.trans (eq_of_done hdone htw)

/-- All orders end with the marks and the count that `Arena.mark` gives. -/
theorem endsIn_mark (a : Arena) (work : List Handle) (n : ℕ) :
    EndsIn ⟨a, work, n⟩ ⟨(a.mark work n).1, 0, (a.mark work n).2⟩ := by
  refine .of_reaches (Arena.mark_count_induction
    (P := fun a' work' n' => Relation.ReflTransGen Step ⟨a, work, n⟩ ⟨a', work', n'⟩) ?_ ?_ .refl) rfl
  · intro a' r work' n' hset h
    refine h.tail ⟨r, by simp, ?_⟩
    rw [take_of_not_awaits (Arena.settled_iff.mp hset)]
    simp
  · intro a' r work' n' c hr hcomp hm h
    refine h.tail ⟨r, by simp, ?_⟩
    rw [take_of_awaits (Arena.awaits_iff.mpr ⟨c, hr, hcomp, hm⟩), Arena.tracedFrom_of_get? hr]
    simp

end Tour

/-! ## All of it -/

namespace Heap

/-- The heap without the marks of reached cells. -/
def unreached (h : Heap) : Heap :=
  h.modifyArena Arena.unreached

/-- What marking from a worklist does to a heap, where `n` cells are marked. -/
structure Explored (h : Heap) (work : List Handle) (h' : Heap) (n : ℕ) : Prop where
  /-- What the worklist reaches is added to the marked cells. -/
  marks : h'.arena.marks = h.arena.marks ∪ h.arena.reached work
  /-- The marked cells are closed again. -/
  closed : h'.arena.ClosedOn h'.arena.marks
  /-- So many cells have become marked. -/
  count : (h'.arena.marks \ h.arena.marks).encard = n
  /-- Nothing but marks of reached cells changes. -/
  rest : h'.unreached = h.unreached
  /-- Where there is no composite cell, not even these. -/
  leaves : ∀ r, ¬ h.arena.Composite r → h'.arena.get? r = h.arena.get? r

/-- Where the marked composite cells are closed under traced references, marking from any worklist ends, in
whatever order its entries are taken, and it adds to the marked cells those that the worklist reaches. -/
theorem marking_reaches (h : Heap) (work : List Handle) (hclosed : h.arena.ClosedOn h.arena.marks) :
    Tour.EndsIn ⟨h.arena, work, 0⟩ ⟨(h.arena.mark work 0).1, 0, (h.arena.mark work 0).2⟩ ∧
    h.Explored work (h.modifyArena fun a => (a.mark work 0).1) (h.arena.mark work 0).2 := by
  refine ⟨Tour.endsIn_mark _ _ _, ?_⟩
  exact {
    marks := Arena.marks_mark hclosed
    closed := Arena.closedOn_marks_mark hclosed
    count := (add_zero _).symm.trans (Arena.encard_marks_mark (n := 0))
    rest := congrArg (fun a => { h with arena := a }) Arena.unreached_mark
    leaves := fun _ hr => Arena.get?_mark hr }

/-- A string, two objects that refer to each other, a marked one that they and it itself refer to, one that
is not referred to, and a slot that has been freed. -/
def tangled : Heap :=
  let array (rs : List Handle) : Body :=
    .object { kind := .array, elements := (rs.map Value.ref).toArray }
  let bodies : List Body := [.string ⟨"k", false⟩, array [⟨2, 0⟩, ⟨0, 0⟩, ⟨5, 0⟩],
    array [⟨1, 0⟩, ⟨3, 0⟩], array [⟨3, 0⟩], array [⟨1, 0⟩], array []]
  let a := bodies.foldl (fun a b => (a.place b).1) (Arena.empty 5000)
  { Heap.empty {} with arena := ((a.unlink 5).release 5).markAt 3 }

/-- The worklist has a stale handle, a leaf, a cell twice and a marked cell. The two objects are marked. -/
theorem marking_reaches_tangled :
    let work : List Handle := [⟨5, 0⟩, ⟨0, 0⟩, ⟨1, 0⟩, ⟨1, 0⟩, ⟨3, 0⟩]
    tangled.arena.ClosedOn tangled.arena.marks ∧
      (tangled.arena.mark work 0).2 = 2 ∧
      ((tangled.arena.mark work 0).1.cells.filter (·.2.header.marks.reachable)).map (·.1) = [1, 2, 3] ∧
      Tour.EndsIn ⟨tangled.arena, work, 0⟩
        ⟨(tangled.arena.mark work 0).1, 0, (tangled.arena.mark work 0).2⟩ ∧
      tangled.Explored work (tangled.modifyArena fun a => (a.mark work 0).1)
        (tangled.arena.mark work 0).2 := by
  have hclosed : tangled.arena.ClosedOn tangled.arena.marks := by decide +kernel
  exact ⟨hclosed, by decide +kernel, by decide +kernel, marking_reaches tangled _ hclosed⟩

end Heap

end CountedHeap
