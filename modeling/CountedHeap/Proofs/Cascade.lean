import Mathlib.Order.Bounds.Basic
import CountedHeap.Proofs.Collection

/-!
# What a release frees

Giving a count back frees the cells that it alone kept alive: the cell itself, if this was its last
count, and every cell all of whose counts are references of cells that are freed. These are the least
set that is closed in this way. What is left keeps its contents, and its count goes down by the
references that have been freed.

* `Heap.Orphans`: the sets of cells that are closed under losing all counts.
* `Heap.Cascade`: what the steps of a release preserve, `Cascade.release` and `Cascade.leaveQueue`.
* `release_frees_orphans`: a release at the top frees the least closed set.
-/

namespace CountedHeap

open Heap (Shrinks Fading Kept OutsidePass)

namespace Heap

variable {h h' : Heap} {X Y : Multiset Handle} {D : Set Handle} {r s q : Handle} {n i : ℕ} {b : Body}

/-! ## Closed sets of cells -/

open Classical in
/-- The references that the cells of a set own. -/
noncomputable def ownedBy (h : Heap) (D : Set Handle) : Multiset Handle :=
  ∑ i ∈ Finset.range h.arena.slots.size with h.arena.handleAt i ∈ D,
    (h.arena.refsAt i : Multiset Handle)

/-- The cells that are not there any longer. -/
def freed (h h' : Heap) : Set Handle :=
  { q | h.isLive q = true ∧ h'.isLive q = false }

/-- A set that goes where a count on a cell is released: it has this cell, if the count was its last
one, and every cell that is counted, but only for references of the set and for the one released. -/
structure Orphans (h : Heap) (r : Handle) (D : Set Handle) : Prop where
  last : h.count? r = some 1 → r ∈ D
  closed : ∀ q n, h.count? q = some n → 0 < n →
    n = (h.ownedBy D).count q + (if q = r then 1 else 0) → q ∈ D

theorem ownedBy_mono {D D' : Set Handle} (hD : D ⊆ D') : h.ownedBy D ≤ h.ownedBy D' := by
  classical
  refine Finset.sum_le_sum_of_subset fun i hi => ?_
  simp only [Finset.mem_filter] at hi ⊢
  exact ⟨hi.1, hD hi.2⟩

/-- A set owns no more than all cells do. -/
theorem ownedBy_le_stored : h.ownedBy D ≤ h.stored ∅ := by
  classical
  have howned : h.ownedBy D ≤ h.arena.owned ∅ := by
    unfold Arena.owned
    rw [Finset.sdiff_empty]
    exact Finset.sum_le_sum_of_subset (Finset.filter_subset _ _)
  unfold stored
  exact (howned.trans (Multiset.le_add_right _ _)).trans (Multiset.le_add_right _ _)

/-- Empty slots own nothing, so what has been lost was owned by the cells that have been freed. -/
theorem lostRefs_eq : h.lostRefs h' = h.ownedBy (h.freed h') := by
  classical
  unfold lostRefs ownedBy
  rw [Finset.sum_filter, Finset.sum_filter]
  refine Finset.sum_congr rfl fun i _ => ?_
  cases hlive : h.isLive (h.arena.handleAt i) with
  | true => simp [freed, hlive]
  | false =>
    have hempty : h.arena.refsAt i = [] := by
      unfold Arena.refsAt
      rw [← Arena.get?_handleAt, Arena.get?_eq_none_iff.mpr hlive]
      rfl
    simp [hempty]

/-! ## One release -/

/-- Outside of passes, a composite cell that has lost its last count is queued. -/
theorem mem_queue_release (hs : h.Sound) (hsweep : h.sweeping = false)
    (hr : h.arena.Holds r 1 b) (hcomp : b.isComposite = true) :
    r.index ∈ (h.release r).1.arena.members .queue := by
  rw [hs.release_cases.2.2.1]
  rcases h.release_cases r with ⟨hdead, -⟩ | ⟨n, c, hr', hcases⟩
  · rw [show h.isLive r = true from hr.isLive] at hdead
    cases hdead
  obtain ⟨rfl, rfl⟩ := hr'.unique hr
  rcases hcases with ⟨hone, he⟩ | ⟨-, hleaf, -⟩ | ⟨-, -, -, -, he⟩
  · have hchain := (hone rfl).2.resolve_left (by simp [hsweep])
    exact List.mem_append_left _ (hs.arena.mem_members.mpr hchain)
  · rw [hcomp] at hleaf
    cases hleaf
  · simp [he]

/-! ## What the steps preserve -/

/-- How far a release has come that began with the first heap. The references of `Y` are still to be
given back. -/
structure Cascade (h : Heap) (r : Handle) (X : Multiset Handle) (h' : Heap) (Y : Multiset Handle) :
    Prop where
  shrinks : Shrinks h h'
  balanced : h'.Balanced ∅ (X + Y)
  counts : ∀ q, h'.arena.counted q ≤ h.arena.counted q
  /-- Every closed set has the cells that have been freed. -/
  gone : ∀ D, h.Orphans r D → h.freed h' ⊆ D
  /-- Every closed set has the cells that are queued. -/
  queued : ∀ D, h.Orphans r D → ∀ i ∈ h'.arena.members .queue, h.arena.handleAt i ∈ D
  /-- A composite cell that has lost its last count is queued. -/
  met : ∀ q b, h'.arena.Holds q 0 b → b.isComposite = true → h.arena.counted q ≠ 0 →
    q.index ∈ h'.arena.members .queue

/-- A cell that is not counted any longer has lost all its counts to cells that have been freed. -/
theorem mem_orphans (hb : h.Balanced ∅ (X + {r})) (hs : Shrinks h h') (hb' : h'.Balanced ∅ (X + Y))
    (hD : h.Orphans r D) (hgone : h.freed h' ⊆ D) (hzero : h'.arena.counted q = 0)
    (hpos : h.arena.counted q ≠ 0) : q ∈ D := by
  obtain ⟨n, b, hq⟩ := Arena.isLive_iff.mp (Arena.isLive_of_counted hpos)
  rw [hq.counted] at hpos
  refine hD.closed q n (count?_eq_some.mpr ⟨b, hq⟩) (Nat.pos_of_ne_zero hpos) ?_
  have hlost := Multiset.count_le_of_le q (lostRefs_eq (h := h) ▸ ownedBy_mono hgone)
  have howned := Multiset.count_le_of_le q (ownedBy_le_stored (h := h) (D := D))
  have hstored := congrArg (Multiset.count q) hs.stored_eq
  have hn := hb.count_eq hq
  have hnone := (hb' q).symm.trans hzero
  simp only [Multiset.count_add, Multiset.count_singleton] at hstored hn hnone
  omega

namespace Cascade

/-- A release begins where the queue is empty. -/
theorem start (hb : h.Balanced ∅ (X + {r})) (hqueue : h.arena.members .queue = []) :
    h.Cascade r X h {r} where
  shrinks := .refl
  balanced := hb
  counts _ := le_rfl
  gone D _ := by
    rintro q ⟨hlive, hdead⟩
    rw [hlive] at hdead
    cases hdead
  queued D _ i hi := by
    rw [hqueue] at hi
    cases hi
  met q b hq _ hpos := absurd hq.counted hpos

/-- A cell that loses its last count in a release. -/
theorem mem_of_last (hb : h.Balanced ∅ (X + {r})) (hc : h.Cascade r X h' (Y + {s}))
    (hs : h'.arena.Holds s 1 b) (hD : h.Orphans r D) : s ∈ D := by
  have hb' : h'.Balanced ∅ (X + Y + {s}) := by
    rw [add_assoc]
    exact hc.balanced
  have hpos : h.arena.counted s ≠ 0 := by
    have := hc.counts s
    rw [hs.counted] at this
    omega
  have huncounted : Shrinks h (h'.uncount s.index) := hc.shrinks.trans (.modifyHeader fun _ => rfl)
  refine mem_orphans hb huncounted (hb'.uncount hs).2 hD ?_ (holds_uncount hs).counted hpos
  rintro q ⟨hlive, hdead⟩
  refine hc.gone D hD ⟨hlive, ?_⟩
  rwa [show (h'.uncount s.index).isLive q = h'.isLive q from Arena.isLive_modifyAt] at hdead

/-- A count is given back. -/
theorem release (hb : h.Balanced ∅ (X + {r})) (hc : h.Cascade r X h' (Y + {s})) (hs : h'.Sound)
    (hsweep : h'.sweeping = false) : h.Cascade r X (h'.release s).1 Y := by
  have hb' : h'.Balanced ∅ (X + Y + {s}) := by
    rw [add_assoc]
    exact hc.balanced
  obtain ⟨n, b, hcell⟩ := Arena.isLive_iff.mp (hb'.live_of_held (r := s) (by simp))
  have hn : 0 < n := (hb'.uncount hcell).1
  obtain ⟨-, -, hqueue, hone⟩ := hs.release_cases (r := s)
  refine ⟨hc.shrinks.trans .release, hb'.release, fun q => ?_, fun D hD => ?_, fun D hD i hi => ?_,
    fun q c hq hcomp hpos => ?_⟩
  · exact (Shrinks.release.counted_le hb' hb'.release (Multiset.le_add_right _ _)).trans (hc.counts q)
  · rintro q ⟨hlive, hdead⟩
    cases hlive' : h'.isLive q with
    | false => exact hc.gone D hD ⟨hlive, hlive'⟩
    | true =>
      -- Only the cell that is released can have been freed just now.
      obtain ⟨rfl, rfl, -⟩ := freed_of_release hcell hlive' hdead
      exact hc.mem_of_last hb hcell hD
  · rw [hqueue, List.mem_append] at hi
    rcases hi with hi | hi
    · exact hc.queued D hD i hi
    · -- The cell that has been queued was counted once.
      have hqueued : (h'.release s).2 = true ∧ i = s.index := by
        by_cases hr : (h'.release s).2 = true
        · simpa [hr] using hi
        · simp [hr] at hi
      obtain ⟨hr, rfl⟩ := hqueued
      have hlast := hone hr
      rw [hcell.counted] at hlast
      subst hlast
      obtain ⟨m, hm⟩ := hc.shrinks.cells s _ b hcell
      rw [hm.handleAt]
      exact hc.mem_of_last hb hcell hD
  · by_cases hqs : q.index = s.index
    · unfold Arena.Holds at hq
      rw [core_release hcell, hqs, Function.update_self] at hq
      split at hq
      · simp at hq
      · simp only [Option.some.injEq, Prod.mk.injEq] at hq
        obtain ⟨-, hzero, rfl⟩ := hq
        obtain rfl : n = 1 := by omega
        rw [hqs]
        exact mem_queue_release hs hsweep hcell hcomp
    · rw [hqueue]
      exact List.mem_append_left _ (hc.met q c ((holds_release_iff hcell hqs).mp hq) hcomp hpos)

theorem releaseQuietly {rs : List Handle} (hb : h.Balanced ∅ (X + {r}))
    (hc : h.Cascade r X h' (Y + rs)) (hs : h'.Sound) (hsweep : h'.sweeping = false) :
    h.Cascade r X (h'.releaseQuietly rs) Y := by
  induction rs generalizing h' with
  | nil => simpa [Heap.releaseQuietly] using hc
  | cons s rs ih =>
    rw [add_coe_cons] at hc
    obtain ⟨hs', hloose⟩ := hs.release (r := s)
    exact ih (hc.release hb hs hsweep) hs' (hloose.sweeping.trans hsweep)

/-- The slot of a queued cell that nothing counts is emptied. -/
theorem evict (hc : h.Cascade r X h' 0) (hs : h'.Sound) (hq : h'.arena.Holds q 0 b)
    (hmem : q.index ∈ h'.arena.members .queue) (hcomp : b.isComposite = true) :
    h.Cascade r X (h'.evict q.index) b.refs := by
  obtain ⟨-, hmembers⟩ := hs.evict hq hcomp
  have hb' : h'.Balanced ∅ X := by
    rw [← add_zero X]
    exact hc.balanced
  have hcore := core_evict hq
  have hunlinked : Shrinks h' (h'.modifyArena (·.unlink q.index)) :=
    .of_core Arena.core_unlink rfl rfl rfl
  have hshrinks : Shrinks h' (h'.evict q.index) := (hunlinked.trans .forget).trans .modifyCounters
  have hcounts : (h'.evict q.index).arena.counted = h'.arena.counted := Arena.counted_free hq hcore
  have hne : ∀ {p m c}, (h'.evict q.index).arena.Holds p m c → p.index ≠ q.index := by
    intro p m c hp he
    unfold Arena.Holds at hp
    rw [hcore, he, Function.update_self] at hp
    simp at hp
  have hother : ∀ {p m c}, p.index ≠ q.index →
      ((h'.evict q.index).arena.Holds p m c ↔ h'.arena.Holds p m c) := by
    intro p m c hp
    unfold Arena.Holds
    rw [hcore, Function.update_of_ne hp]
  refine ⟨hc.shrinks.trans hshrinks, hb'.evict hq, fun p => ?_, fun D hD => ?_, fun D hD i hi => ?_,
    fun p c hp hcomp' hpos => ?_⟩
  · rw [hcounts]
    exact hc.counts p
  · rintro p ⟨hlive, hdead⟩
    cases hlive' : h'.isLive p with
    | false => exact hc.gone D hD ⟨hlive, hlive'⟩
    | true =>
      obtain ⟨m, c, hp⟩ := Arena.isLive_iff.mp hlive'
      by_cases hpq : p.index = q.index
      · obtain rfl := hp.eq_of_index hq hpq
        obtain ⟨k, hk⟩ := hc.shrinks.cells p _ _ hq
        rw [← hk.handleAt]
        exact hc.queued D hD p.index hmem
      · rw [show (h'.evict q.index).isLive p = true from ((hother hpq).mpr hp).isLive] at hdead
        cases hdead
  · rw [hmembers] at hi
    exact hc.queued D hD i (List.mem_of_mem_erase hi)
  · rw [hmembers]
    have hpq := hne hp
    exact (List.mem_erase_of_ne hpq).mpr (hc.met p c ((hother hpq).mp hp) hcomp' hpos)

/-- A queued cell that nothing counts leaves the queue. -/
theorem leaveQueue (hb : h.Balanced ∅ (X + {r})) (hc : h.Cascade r X h' 0) (hf : Fading True h' X)
    (hi : i ∈ h'.arena.members .queue) : h.Cascade r X (h'.leaveQueue i false).1 0 := by
  obtain ⟨n, b, hq, hcomp⟩ := hf.kept.sound.arena.cell_of_mem hi
  have hzero := hf.idle trivial i hi
  rw [hq.counted] at hzero
  subst hzero
  set q := h'.arena.handleAt i
  rw [show i = q.index from rfl, leaveQueue_false hq]
  refine releaseQuietly hb ?_ (hf.kept.sound.evict hq hcomp).1 hf.kept.level.1
  rw [zero_add]
  exact hc.evict hf.kept.sound hq hi hcomp

/-- Nothing but marks and counters has changed. -/
theorem remark {h'' : Heap} (hc : h.Cascade r X h' Y) (hs : h'.Sound) (hr : Remarked h' h'') :
    h.Cascade r X h'' Y := by
  have hlive : ∀ q, h''.isLive q = h'.isLive q := by
    intro q
    rw [Bool.eq_iff_iff, Heap.isLive, Heap.isLive, Arena.isLive_iff, Arena.isLive_iff]
    simp only [hr.arena.holds]
  have hqueue := congrFun (hr.arena.members hs.arena) .queue
  refine ⟨hc.shrinks.trans hr.shrinks, hc.balanced.of_core hr.arena.core hr.roots hr.key,
    fun q => ?_, fun D hD => ?_, fun D hD => ?_, fun q b hq => ?_⟩
  · rw [Arena.counted_congr (congrFun hr.arena.core _)]
    exact hc.counts q
  · rintro q ⟨hq, hdead⟩
    exact hc.gone D hD ⟨hq, (hlive q).symm.trans hdead⟩
  · rw [hqueue]
    exact hc.queued D hD
  · rw [hqueue]
    exact hc.met q b (hr.arena.holds.mp hq)

end Cascade

/-- What a release does to a heap. -/
structure Dropped (h : Heap) (r : Handle) (h' : Heap) : Prop where
  /-- The cells that are freed are the least closed set. -/
  least : IsLeast { D | h.Orphans r D } (h.freed h')
  /-- Other cells keep their contents, and lose the counts that cells of the set had on them. -/
  kept : ∀ q n b, h.arena.Holds q n b → q ∉ h.freed h' → ∃ m, h'.arena.Holds q m b ∧
    n = m + (h.ownedBy (h.freed h')).count q + (if q = r then 1 else 0)

theorem Cascade.dropped (hb : h.Balanced ∅ (X + {r})) (hc : h.Cascade r X h' 0) (hs : h'.Sound)
    (hqueue : h'.arena.members .queue = []) : h.Dropped r h' := by
  have hkept : ∀ q n b, h.arena.Holds q n b → q ∉ h.freed h' → ∃ m, h'.arena.Holds q m b ∧
      n = m + (h.ownedBy (h.freed h')).count q + (if q = r then 1 else 0) := by
    intro q n b hq hnot
    have hlive : h'.isLive q = true := by
      by_contra hdead
      exact hnot ⟨hq.isLive, by simpa using hdead⟩
    obtain ⟨m, c, hq'⟩ := Arena.isLive_iff.mp hlive
    obtain ⟨k, hk⟩ := hc.shrinks.cells q m c hq'
    obtain ⟨-, rfl⟩ := hk.unique hq
    refine ⟨m, hq', ?_⟩
    have hstored := congrArg (Multiset.count q) hc.shrinks.stored_eq
    have hn := hb.count_eq hq
    have hm := hc.balanced.count_eq hq'
    rw [lostRefs_eq] at hstored
    simp only [Multiset.count_add, Multiset.count_singleton, Multiset.count_zero] at hstored hn hm
    omega
  -- A cell that has no count left has been freed: no leaf is without, and the queue is empty.
  have hfreed : ∀ q n, h.count? q = some n → 0 < n →
      n = (h.ownedBy (h.freed h')).count q + (if q = r then 1 else 0) → q ∈ h.freed h' := by
    intro q n hn hpos he
    obtain ⟨b, hq⟩ := count?_eq_some.mp hn
    by_contra hnot
    obtain ⟨m, hm, hcount⟩ := hkept q n b hq hnot
    obtain rfl : m = 0 := by omega
    cases hcomp : b.isComposite with
    | false => exact absurd (hs.arena.leaves q 0 b hm hcomp) (Nat.lt_irrefl 0)
    | true =>
      have := hc.met q b hm hcomp (by rw [hq.counted]; omega)
      rw [hqueue] at this
      cases this
  refine ⟨⟨⟨fun hone => ?_, hfreed⟩, fun D hD => hc.gone D hD⟩, hkept⟩
  by_contra hnot
  obtain ⟨b, hr⟩ := count?_eq_some.mp hone
  obtain ⟨m, hm, hcount⟩ := hkept r 1 b hr hnot
  rw [if_pos rfl] at hcount
  exact hnot (hfreed r 1 hone Nat.one_pos (by rw [if_pos rfl]; omega))

/-! ## Passes are counted when they end -/

theorem passes_release : (h.release r).1.counters.passes = h.counters.passes := by
  unfold Heap.release
  split
  · rfl
  · dsimp only
    split
    · unfold reachZero
      split
      · rfl
      · rfl
      · split <;> rfl
      · split <;> rfl
    · rfl

theorem passes_releaseQuietly {rs : List Handle} :
    (h.releaseQuietly rs).counters.passes = h.counters.passes := by
  induction rs generalizing h with
  | nil => rfl
  | cons r rs ih => exact ih.trans passes_release

theorem passes_leaveQueue : (h.leaveQueue i false).1.counters.passes = h.counters.passes := by
  unfold Heap.leaveQueue freeComposite
  simp only [Bool.false_eq_true, if_false]
  split
  · rfl
  · exact passes_releaseQuietly

theorem passes_foldl (f : Heap → ℕ → Heap) (hf : ∀ h i, (f h i).counters.passes = h.counters.passes)
    (l : List ℕ) : (l.foldl f h).counters.passes = h.counters.passes := by
  induction l generalizing h with
  | nil => rfl
  | cons i l ih => exact ih.trans (hf h i)

theorem passes_beginPass {o : PassOptions} :
    (h.beginPass o).1.counters.passes = h.counters.passes := by
  have hchildren : ∀ (h : Heap) i, (h.releaseChildren i).counters.passes = h.counters.passes := by
    intro h i
    unfold Heap.releaseChildren
    split
    · exact passes_releaseQuietly
    · rfl
  have hswept : ((h.toSweep o).sweep (h.garbage o)).counters.passes = h.counters.passes :=
    (passes_foldl freeSwept (fun _ _ => rfl) _).trans ((passes_foldl releaseChildren hchildren _).trans
      (passes_foldl clearFinalized (fun _ _ => rfl) _))
  rw [beginPass_eq]
  dsimp only
  split
  · exact hswept
  · exact hswept

theorem passes_finishPass {o : PassOptions} {p : PassStart} :
    (h.finishPass o p n).1.counters.passes = h.counters.passes + 1 := by
  unfold Heap.finishPass
  dsimp only
  rw [passes_foldl enqueue fun _ _ => rfl]

end Heap

/-! ## A release at the top -/

variable {σ : Type} {host : Host σ} {w w₀ : World σ} {X : Multiset Handle} {r : Handle} {fuel i : ℕ}

/-- A pass that finds no finalizer is counted once. -/
theorem passes_innerPass (hu : w.heap.Unfinalized) {o : PassOptions} :
    After ((Engine.inDrain host).collect o) w fun _ w' =>
      w'.heap.counters.passes = w.heap.counters.passes + 1 := by
  have hbody : After (passBody (Engine.inPass.caller host) o) w fun _ w' =>
      w'.heap.counters.passes = w.heap.counters.passes + 1 := by
    have hnone : (w.heap.beginPass o).2.pending = [] := by
      rw [Heap.beginPass_eq]
      exact Heap.pendingCells_eq_nil (.inl hu)
    unfold passBody
    rw [after_bind, after_change, hnone, runPending, after_bind, after_pure, if_neg (by decide),
      after_change]
    exact Heap.passes_finishPass.trans (congrArg (· + 1) Heap.passes_beginPass)
  exact pass_after hbody (fun _ h => h) fun _ _ h => after_pure.mpr h

/-- What the worlds have in common in which a drain looks for the head of the queue, where a release
of a count in the first heap has set it off. -/
structure Heap.Cascading (h : Heap) (r : Handle) (X : Multiset Handle) (h' : Heap) : Prop where
  fading : Fading True h' X
  shrinks : Shrinks h h'
  passes : h.counters.passes ≤ h'.counters.passes
  cascade : h'.counters.passes = h.counters.passes → h.Cascade r X h' 0

namespace Heap.Cascading

variable {h : Heap}

/-- Nothing but marks and the other counters has changed. -/
theorem remark {h' h'' : Heap} (hc : h.Cascading r X h') (hr : Remarked h' h'')
    (hp : h''.counters.passes = h'.counters.passes) : h.Cascading r X h'' where
  fading := hc.fading.remark hr
  shrinks := hc.shrinks.trans hr.shrinks
  passes := hp ▸ hc.passes
  cascade he := (hc.cascade (hp ▸ he)).remark hc.fading.kept.sound hr

/-- One turn of the drain. -/
theorem turn (hb : h.Balanced ∅ (X + {r})) (hu : h.Unfinalized) (hc : h.Cascading r X w.heap)
    (hi : w.heap.arena.queue.head = some i) :
    After (settleHead ((Engine.inDrain host).caller host) i) w fun _ w' =>
      h.Cascading r X w'.heap := by
  have hu' : w.heap.Unfinalized := hc.shrinks.unfinalized hu
  have hmem : i ∈ w.heap.arena.members .queue :=
    ((hc.fading.kept.sound.mem_of_head hi).resolve_right (by simp [hc.fading.kept.level.1])).1
  unfold settleHead
  rw [after_bind, after_query, Heap.headFinalizer_eq_none hu', after_change]
  refine ⟨(hc.fading.leaveQueue hmem).1, hc.shrinks.trans .leaveQueue, ?_, fun hp => ?_⟩
  · exact hc.passes.trans (passes_leaveQueue (h := w.heap)).ge
  · exact (hc.cascade ((passes_leaveQueue (h := w.heap)).symm.trans hp)).leaveQueue hb hc.fading hmem

/-- A voluntary pass of the drain. -/
theorem pass (hu : h.Unfinalized) (hc : h.Cascading r X w.heap)
    (hhead : w.heap.arena.queue.head = none) :
    After ((Engine.inDrain host).collect {}) w fun _ w' => h.Cascading r X w'.heap := by
  have hu' : w.heap.Unfinalized := hc.shrinks.unfinalized hu
  refine ((innerPass_quiet (o := {}) (.inr hu') hc.fading hhead).2.and (passes_innerPass hu')).mono ?_
  rintro _ w' ⟨⟨hf, hs⟩, hp⟩
  have hle := hc.passes
  refine ⟨hf, hc.shrinks.trans hs.toShrinks, by omega, fun he => ?_⟩
  omega

/-- All of the drain. -/
theorem drain (hb : h.Balanced ∅ (X + {r})) (hu : h.Unfinalized) (hc : h.Cascading r X w.heap) :
    After (Engine.top host fuel).drain w fun _ w' =>
      h.Cascading r X w'.heap ∧ w'.heap.arena.members .queue = [] := by
  change After (drainQueue _ _ fuel) w _
  unfold drainQueue
  rw [after_bind, after_modifyHeap, after_bind]
  refine (drainLoop_invariant (I := fun w' => h.Cascading r X w'.heap) ?_ ?_ ?_ ?_).mono ?_
  · exact fun _ _ hc' hi => hc'.turn hb hu hi
  · exact fun _ _ hc' _ => hc'.remark (.of_alike .refl rfl rfl rfl rfl rfl rfl) rfl
  · exact fun _ hc' hhead => hc'.pass hu hhead
  · exact hc.remark (.of_alike .refl rfl rfl rfl rfl rfl rfl) rfl
  · rintro _ w' ⟨hc', hhead⟩
    rw [after_modifyHeap]
    refine ⟨hc'.remark (.of_alike .refl rfl rfl rfl rfl rfl rfl) rfl, ?_⟩
    rw [hc'.fading.kept.sound.head_queue] at hhead
    exact List.head?_eq_none_iff.mp hhead

/-- The first step. -/
theorem start (hs : h.Sound) (hlevel : OutsidePass [] h) (hb : h.Balanced ∅ (X + {r})) :
    h.Cascading r X (h.release r).1 := by
  have hidle : h.QueueIdle := fun i hi => by
    rw [hlevel.2] at hi
    cases hi
  refine ⟨⟨⟨hs.release.1, ?_, fun _ => hb.release⟩, fun _ => hidle.release hs hb⟩, .release,
    passes_release.ge, fun _ => ?_⟩
  · exact Heap.draining_nil (queue_release hs hlevel).1
  · have hc : h.Cascade r X h (0 + {r}) := by
      rw [zero_add]
      exact .start hb hlevel.2
    exact hc.release hb hs hlevel.1

end Heap.Cascading

/-- A release of a count that a client holds ends, where counts are exact and no finalizer is found. If
it sets off no voluntary pass, it frees the least set of cells that have no counts but from one
another and the one released, and nothing else. -/
theorem release_frees_orphans (hw : Reachable host w) (hx : w.heap.Exact X) (hu : w.heap.Unfinalized)
    (hr : r ∈ X) (hfuel : 2 * w.heap.arena.compositeCount < fuel) :
    ∃ w', ((Engine.top host fuel).perform (.release (.ref r))).run w = some (.ok (), w') ∧
      (w'.heap.counters.passes = w.heap.counters.passes → w.heap.Dropped r w'.heap) := by
  obtain ⟨hs, hlevel⟩ := hw.sound
  obtain ⟨Y, rfl⟩ : ∃ Y, X = Y + {r} := by
    obtain ⟨Y, hY⟩ := Multiset.exists_cons_of_mem hr
    exact ⟨Y, by rw [hY, ← Multiset.singleton_add, add_comm]⟩
  have hb : w.heap.Balanced ∅ (Y + {r}) := Heap.exact_iff.mp hx
  have hstart : w.heap.Cascading r Y (w.heap.release r).1 := .start hs hlevel hb
  -- What holds in the end, whether or not the queue has been worked off.
  have hend : ∀ w' : World σ, w.heap.Cascading r Y w'.heap → w'.heap.arena.members .queue = [] →
      w'.heap.counters.passes = w.heap.counters.passes → w.heap.Dropped r w'.heap :=
    fun _ hc hqueue hp => (hc.cascade hp).dropped hb hc.fading.kept.sound hqueue
  have hdone : Returns ((Engine.top host fuel).release r) w ∧
      After ((Engine.top host fuel).release r) w fun _ w' =>
        w'.heap.counters.passes = w.heap.counters.passes → w.heap.Dropped r w'.heap := by
    have hu' : (w.heap.release r).1.Unfinalized := Shrinks.release.unfinalized hu
    have hle := hstart.shrinks.compositeCount_le hs hstart.fading.kept.sound
    unfold Engine.release
    constructor
    · refine Returns.bind returns_change (after_change.mpr ?_)
      split
      · exact top_drain_returns (w := ⟨(w.heap.release r).1, w.host⟩) (.inr hu') hstart.fading
          (lt_of_le_of_lt (Nat.mul_le_mul_left 2 hle) hfuel)
      · exact returns_pure
    · rw [after_bind, after_change]
      split
      · exact (Heap.Cascading.drain (w := ⟨(w.heap.release r).1, w.host⟩) hb hu hstart).mono
          fun _ w' h => hend w' h.1 h.2
      · rename_i hqueued
        exact after_pure.mpr (hend ⟨(w.heap.release r).1, w.host⟩ hstart
          ((queue_release hs hlevel).2 (by simpa using hqueued)).2)
  obtain ⟨⟨u, w', e⟩, hafter⟩ := hdone
  refine ⟨w', ?_, hafter u w' e⟩
  have hall : (Engine.top host fuel).releaseAll [r] w = some ((), w') := by
    change (((Engine.top host fuel).release r) w).bind _ = _
    rw [e]
    rfl
  change (((Engine.top host fuel).releaseAll [r]) w).bind _ = _
  rw [hall]
  rfl

/-- The client holds an array with one object twice, and with another object that refers to itself. -/
theorem run_bundle : ∃ w : World Unit, Run .idle Discipline.careful w {⟨0, 0⟩, ⟨3, 0⟩} ∧
    w.heap.finalizerKey = none ∧ w.heap.arena.compositeCount = 3 ∧
    (((Engine.top .idle 7).perform (.release (.ref ⟨0, 0⟩))).run w).map
      (·.2.heap.counters.passes) = some w.heap.counters.passes := by
  have r₀ : Run .idle Discipline.careful ⟨.empty {}, ()⟩ 0 := .start {} ()
  have r₁ := r₀.advance 5 (.allocArray none) (.ok ⟨0, 0⟩) (by decide) (by decide +kernel)
    (Operation.Careful.of_held (by decide))
  have r₂ := r₁.advance 5 (.allocObject none) (.ok ⟨1, 0⟩) (by decide) (by decide +kernel)
    (Operation.Careful.of_held (by decide))
  have r₃ := r₂.advance 5 (.allocObject none) (.ok ⟨2, 0⟩) (by decide) (by decide +kernel)
    (Operation.Careful.of_held (by decide))
  have r₄ := r₃.advance 5 (.intern "k" false) (.ok ⟨3, 0⟩) (by decide) (by decide +kernel)
    (Operation.Careful.of_held (by decide))
  have r₅ := r₄.advance 5 (.putProp ⟨2, 0⟩ ⟨3, 0⟩ (.ref ⟨2, 0⟩)) (.ok ()) (by decide)
    (by decide +kernel) (Operation.Careful.of_held (by decide))
  have r₆ := r₅.advance 5 (.arrayPush ⟨0, 0⟩ (.ref ⟨1, 0⟩)) (.ok 1) (by decide) (by decide +kernel)
    (Operation.Careful.of_held (by decide))
  have r₇ := r₆.advance 5 (.arrayPush ⟨0, 0⟩ (.ref ⟨2, 0⟩)) (.ok 2) (by decide) (by decide +kernel)
    (Operation.Careful.of_held (by decide))
  have r₈ := r₇.advance 5 (.arrayPush ⟨0, 0⟩ (.ref ⟨1, 0⟩)) (.ok 3) (by decide) (by decide +kernel)
    (Operation.Careful.of_held (by decide))
  have r₉ := r₈.advance 5 (.release (.ref ⟨1, 0⟩)) (.ok ()) (by decide) (by decide +kernel)
    (Operation.Careful.of_held (by decide))
  have r₁₀ := r₉.advance 5 (.release (.ref ⟨2, 0⟩)) (.ok ()) (by decide) (by decide +kernel)
    (Operation.Careful.of_held (by decide))
  exact ⟨_, r₁₀, by decide +kernel, by decide +kernel, by decide +kernel⟩

/-- The array and the object that it had twice are freed; the object that refers to itself is not. -/
theorem release_frees_orphans_bundle : ∃ w w' : World Unit, Reachable .idle w ∧
    w.heap.Exact {⟨0, 0⟩, ⟨3, 0⟩} ∧ w.heap.Unfinalized ∧ 2 * w.heap.arena.compositeCount < 7 ∧
    ((Engine.top .idle 7).perform (.release (.ref ⟨0, 0⟩))).run w = some (.ok (), w') ∧
    w'.heap.counters.passes = w.heap.counters.passes ∧ w.heap.Dropped ⟨0, 0⟩ w'.heap := by
  obtain ⟨w, hr, hkey, hcount, hpasses⟩ := run_bundle
  have hx : w.heap.Exact {⟨0, 0⟩, ⟨3, 0⟩} := (hr.kept Host.silent_idle).exact
  have hu : w.heap.Unfinalized := Heap.unfinalized_of_key hkey
  have hfuel : 2 * w.heap.arena.compositeCount < 7 := by omega
  obtain ⟨w', e, hdropped⟩ := release_frees_orphans hr.reachable hx hu
    (r := ⟨0, 0⟩) (by decide) hfuel
  have hsame : w'.heap.counters.passes = w.heap.counters.passes := by
    rw [e] at hpasses
    simpa using hpasses
  exact ⟨w, w', hr.reachable, hx, hu, hfuel, e, hsame, hdropped hsame⟩

end CountedHeap
