import CountedHeap.Proofs.Heap.Contents
import CountedHeap.Proofs.Runs

/-!
# A tracing pass frees garbage and nothing else

Outside of operations, and where finalizers leave the heap alone, a pass frees the composite cells
that are not reached from outside, and what was counted by freed cells only. What stays has the
contents that it had, and has lost the counts of freed cells.

* `Heap.Anchored`, `Heap.NamesStrings`: where a pass starts, and which references it follows.
* `Heap.lostRefs`: the references that freed cells owned.
* `Heap.SweptAtZero`: every cell that is swept has come down to a count of zero.
* `Heap.Collected`: what a pass does to a heap.
* `collect_frees_garbage`: it ends, and does so.
-/

namespace CountedHeap

namespace Heap

open Arena (Composite Traces)

variable {h h' : Heap} {X : Multiset Handle} {G : List ℕ} {r : Handle} {n i : ℕ} {b : Body}
  {o : PassOptions}

/-! ## What a pass starts from -/

/-- A cell that the client or a root holds, a running or resumed thread, or the current thread. -/
def Anchored (h : Heap) (held : Multiset Handle) (r : Handle) : Prop :=
  h.Grounded held r ∨ (∃ n b, h.arena.Holds r n b ∧ b.isActiveThread = true) ∨ h.current = some r

/-- The names of caught variables, which catchers do not own, and the key of finalizers are names of
strings, if of anything. Only strings get there, and a handle names another cell only when the
generations of its slot have come round. -/
structure NamesStrings (h : Heap) : Prop where
  caught : ∀ p n t, h.arena.Holds p n (.thread t) → ∀ c ∈ t.catchers, ∀ q ∈ c.name,
    ¬ h.arena.Composite q
  key : ∀ q ∈ h.finalizerKey, ¬ h.arena.Composite q

/-- Where names are those of strings, a pass reaches cells over owned references only. -/
theorem NamesStrings.reaches (hn : h.NamesStrings)
    (ht : h.arena.Traces (fun q => h.Anchored X q ∨ h.finalizerKey = some q) r) :
    h.Reaches (h.Anchored X) r := by
  induction ht with
  | @start q hq hc => exact .start (hq.resolve_right fun hkey => hn.key q hkey hc)
  | @step p q n b _ hp hq hc ih =>
    refine .step ih hp ?_
    cases b with
    | string _ => exact hq
    | object _ => exact hq
    | buffer _ => exact hq
    | thread t =>
      refine (List.mem_append.mp hq).resolve_right fun hname => ?_
      simp only [List.mem_flatMap, Array.mem_toList_iff, Option.mem_toList] at hname
      obtain ⟨c, hcatcher, hname⟩ := hname
      exact hn.caught p n t hp c hcatcher q hname hc

/-- Where no finalizer is to run, a pass at the top spares what it reaches from its anchors. -/
theorem traces_of_marked (hs : h.Sound) (hlevel : OutsidePass [] h) (hb : h.Balanced ∅ X)
    (hpending : h.pendingCells o = []) (hr : h.arena.Composite r)
    (hm : (h.toSweep o).arena.Marked r.index) :
    h.arena.Traces (fun q => h.Anchored X q ∨ h.finalizerKey = some q) r := by
  have ht := (marked_toSweep_iff hr).mp hm
  clear hm
  induction ht with
  | @start q hq hc =>
    refine .start ?_ hc
    obtain ⟨n, b, hcell, hcomp⟩ := hc
    rw [hpending] at hq
    rcases (hb.mem_outsideHolds hcell hcomp).mp (hq.resolve_right (by simp)) with
      hheld | hroot | hkey | hactive | hqueue | hcurrent
    · exact .inl (.inl (.inl hheld))
    · exact .inl (.inl (.inr hroot))
    · exact .inr hkey
    · exact .inl (.inr (.inl ⟨n, b, hcell, hactive⟩))
    · have := hs.arena.mem_members.mpr hqueue
      rw [hlevel.2] at this
      cases this
    · exact .inl (.inr (.inr hcurrent))
  | step hp' hp hq hc ih => exact .step (ih hp'.composite) hp hq hc

/-! ## What is swept -/

/-- Where no finalizer is found, or none is to run, a pass sets no cell aside. -/
theorem pendingCells_eq_nil (hq : h.Unfinalized ∨ o.skipFinalizers = true) :
    h.pendingCells o = [] := by
  unfold pendingCells
  split
  · rfl
  · rename_i hskip
    have hu : h.traced.Unfinalized := by
      have hstart : Shrinks h { h with sweeping := true } := .of_core rfl rfl rfl rfl
      exact (hstart.trans remarked_traced.shrinks).unfinalized (hq.resolve_right hskip)
    unfold findFinalizable
    refine List.filter_eq_nil_iff.mpr fun i _ => ?_
    cases h.traced.arena.cellAt? i with
    | none => simp
    | some c => simp [hasFinalizer, hu (h.traced.arena.handleAt i)]

/-- A cell that is swept is not there any longer when the pass goes on. -/
theorem dead_of_garbage (hs : h.Sound) (hr : h.arena.Composite r) (hi : r.index ∈ h.garbage o) :
    (h.beginPass o).1.isLive r = false := by
  have hmarked : Kept False (fun _ => True) (h.toSweep o) 0 :=
    Kept.toSweep (P := fun _ => True) ⟨hs, trivial, False.elim⟩
  obtain ⟨hsound, hqueue, halloc⟩ := hmarked.sound.sweep sweeping_toSweep (nodup_garbage hs)
    fun _ => allocated_of_garbage (o := o) hs
  have hbegun : Shrinks ((h.toSweep o).sweep (h.garbage o)) (h.beginPass o).1 := by
    rw [beginPass_eq]
    dsimp only
    split
    · exact remarked_compact.shrinks
    · exact .refl
  by_contra hlive
  obtain ⟨n, b, hcell⟩ := Arena.isLive_iff.mp
    (by simpa using hlive : (h.beginPass o).1.isLive r = true)
  obtain ⟨m, hswept⟩ := hbegun.cells r n b hcell
  obtain ⟨k, hk⟩ := Shrinks.sweep.cells r m b hswept
  obtain ⟨k', b', hb', hcomp⟩ := hr
  obtain ⟨-, rfl⟩ := (alike_toSweep.holds.mp hk).unique hb'
  -- A composite cell is on a list, but this one has left both.
  obtain ⟨ch, hch⟩ := hsound.arena.mem_of_cell hswept hcomp
  cases ch with
  | allocated => exact ((halloc _).mp hch).2 hi
  | queue =>
    rw [hqueue] at hch
    exact Chain.noConfusion
      (hmarked.sound.arena.threaded.eq_of_mem (allocated_of_garbage hs hi) hch)

/-- Every cell that is swept is not counted when its slot is emptied, after all of them have given
back what they refer to. -/
def SweptAtZero (h : Heap) (G : List ℕ) : Prop :=
  ∀ l₁ i l₂, G = l₁ ++ i :: l₂ →
    (l₁.foldl freeSwept (G.foldl releaseChildren h)).count? (h.arena.handleAt i) = some 0

theorem sweptAtZero (hs : h.Sound) (hsweep : h.sweeping = true) (hb : h.Balanced ∅ X)
    (hnd : G.Nodup) (hG : ∀ i ∈ G, i ∈ h.arena.members .allocated) (hu : h.Unheld G X) :
    h.SweptAtZero G := by
  rintro l₁ i l₂ rfl
  set G := l₁ ++ i :: l₂ with hGeq
  have hsub : ∀ j ∈ l₁, j ∈ G := fun j hj => by simp [hGeq, hj]
  have hnd₁ : l₁.Nodup := (List.nodup_append.mp hnd).1
  have hnot : i ∉ l₁ := fun hi => (List.nodup_append.mp hnd).2.2 i hi i (by simp) rfl
  have hallocated : ∀ j ∈ G, j ∈ (h.releaseGarbage G).arena.members .allocated :=
    fun j hj => mem_allocated_releaseGarbage hs hsweep (hG j hj)
  have hreleased : Shrinks h (h.releaseGarbage G) := Shrinks.releaseGarbage
  -- The cells before this one have been freed, and this one is still there.
  obtain ⟨hfreed, -, halloc⟩ := hs.releaseGarbage.1.freeAll hnd₁ fun j hj => hallocated j (hsub j hj)
  have hmem : i ∈ (l₁.foldl freeSwept (h.releaseGarbage G)).arena.members .allocated :=
    (halloc i).mpr ⟨hallocated i (by simp [hGeq]), hnot⟩
  have hs' : Shrinks h (l₁.foldl freeSwept (h.releaseGarbage G)) :=
    hreleased.trans (Shrinks.foldl (fun _ _ => Shrinks.freeSwept) l₁)
  have hb' : (l₁.foldl freeSwept (h.releaseGarbage G)).Balanced G.toFinset X :=
    (Balanced.freeAll hs.releaseGarbage.1 (hb.releaseGarbage hnd) (hu.of_shrinks hreleased) hnd₁
      fun j hj => ⟨hsub j hj, hallocated j (hsub j hj)⟩).1
  obtain ⟨n, b, hcell, -⟩ := hfreed.arena.cell_of_mem hmem
  rw [hs'.handleAt_eq hfreed hmem] at hcell
  have hzero := counted_of_unheld hb' (hu.of_shrinks hs') (r := h.arena.handleAt i)
    (by simp [hGeq, Arena.handleAt])
  rw [hcell.counted] at hzero
  exact count?_eq_some.mpr ⟨b, hzero ▸ hcell⟩

/-! ## What has been lost -/

/-- The references that those cells owned which are not there any longer. -/
def lostRefs (h h' : Heap) : Multiset Handle :=
  ∑ i ∈ Finset.range h.arena.slots.size with h'.isLive (h.arena.handleAt i) = false,
    (h.arena.refsAt i : Multiset Handle)

section

variable {R : Handle → Body → Body → Prop} {S : Finset Handle} {f : Handle → Multiset Handle}

/-- A slot loses its references with its cell. Where its cell stays it keeps them, apart from those that
some cells have lost. -/
theorem Becomes.refsAt_eq (hb : Becomes R h h') (hS : ∀ t ∈ S, h'.isLive t = true)
    (hR : ∀ r b b', h.body? r = some b → R r b b' →
      (b.refs : Multiset Handle) = b'.refs + if r ∈ S then f r else 0) (i : ℕ) :
    (h.arena.refsAt i : Multiset Handle) = h'.arena.refsAt i +
      ((if h'.isLive (h.arena.handleAt i) = false then (h.arena.refsAt i : Multiset Handle) else 0) +
        if h.arena.handleAt i ∈ S then f (h.arena.handleAt i) else 0) := by
  by_cases hdead : h'.isLive (h.arena.handleAt i) = false
  · have hempty : h'.arena.refsAt i = [] := by
      rcases hc : h'.arena.core i with - | ⟨g, - | ⟨n, b'⟩⟩
      · simp [Arena.refsAt_eq_core, hc]
      · simp [Arena.refsAt_eq_core, hc]
      · have hb' : h'.arena.Holds ⟨i, g⟩ n b' := hc
        obtain ⟨b, hold, -⟩ := hb.cells _ _ (body?_eq_some.mpr ⟨n, hb'⟩)
        obtain ⟨m, hm⟩ := body?_eq_some.mp hold
        rw [show h.arena.handleAt i = ⟨i, g⟩ from hm.handleAt,
          show h'.isLive ⟨i, g⟩ = true from hb'.isLive] at hdead
        cases hdead
    have hnot : h.arena.handleAt i ∉ S := fun hi => by
      rw [hS _ hi] at hdead
      cases hdead
    rw [hempty, Multiset.coe_nil, zero_add, if_pos hdead, if_neg hnot, add_zero]
  · obtain ⟨n, b', hb'⟩ := Arena.isLive_iff.mp
      (by simpa using hdead : h'.isLive (h.arena.handleAt i) = true)
    obtain ⟨b, hold, hchange⟩ := hb.cells _ _ (body?_eq_some.mpr ⟨n, hb'⟩)
    obtain ⟨m, hm⟩ := body?_eq_some.mp hold
    rw [if_neg hdead, zero_add, show h.arena.refsAt i = b.refs from hm.refsAt,
      show h'.arena.refsAt i = b'.refs from hb'.refsAt]
    exact hR _ _ _ hold hchange

/-- A sum over cells is one over slots. -/
theorem sum_cells (hS : ∀ t ∈ S, h.isLive t = true) (hn : h.arena.slots.size ≤ n) :
    ∑ t ∈ S, f t = ∑ i ∈ Finset.range n,
      if h.arena.handleAt i ∈ S then f (h.arena.handleAt i) else 0 := by
  have hat : ∀ t ∈ S, h.arena.handleAt t.index = t := fun t ht => by
    obtain ⟨_, _, hcell⟩ := Arena.isLive_iff.mp (hS t ht)
    exact hcell.handleAt
  rw [← Finset.sum_filter]
  refine Finset.sum_nbij (·.index) (fun t ht => ?_) (fun t ht t' ht' he => ?_) (fun i hi => ?_)
    fun t ht => ?_
  · obtain ⟨_, _, hcell⟩ := Arena.isLive_iff.mp (hS t ht)
    rw [Finset.mem_filter, Finset.mem_range, hat t ht]
    exact ⟨(Arena.lt_size_of_core hcell).trans_le hn, ht⟩
  · rw [← hat t ht, ← hat t' ht']
    exact congrArg h.arena.handleAt he
  · exact ⟨h.arena.handleAt i, (Finset.mem_filter.mp hi).2, rfl⟩
  · rw [hat t ht]

/-- What is stored is what is still stored, what has been lost with cells, and what some cells have
lost. -/
theorem Becomes.stored_eq (hb : Becomes R h h') (hS : ∀ t ∈ S, h'.isLive t = true)
    (hR : ∀ r b b', h.body? r = some b → R r b b' →
      (b.refs : Multiset Handle) = b'.refs + if r ∈ S then f r else 0) :
    h.stored ∅ = h'.stored ∅ + (h.lostRefs h' + ∑ t ∈ S, f t) := by
  set m := max h.arena.slots.size h'.arena.slots.size
  have hold : ∀ t ∈ S, h.isLive t = true := fun t ht => by
    obtain ⟨b', hb'⟩ := exists_body?.mpr (hS t ht)
    obtain ⟨b, hbody, -⟩ := hb.cells t b' hb'
    exact exists_body?.mp ⟨b, hbody⟩
  have hlost : h.lostRefs h' = ∑ i ∈ Finset.range m,
      if h'.isLive (h.arena.handleAt i) = false then (h.arena.refsAt i : Multiset Handle) else 0 := by
    unfold lostRefs
    rw [Finset.sum_filter]
    refine Finset.sum_subset (Finset.range_subset_range.mpr (le_max_left _ _)) fun i _ hi => ?_
    rw [Arena.refsAt_of_size_le (by simpa using hi)]
    simp
  have howned : h.arena.owned ∅ = h'.arena.owned ∅ + (h.lostRefs h' + ∑ t ∈ S, f t) := by
    rw [Arena.owned_eq_sum (le_max_left _ h'.arena.slots.size),
      Arena.owned_eq_sum (le_max_right h.arena.slots.size _), hlost, sum_cells hold (le_max_left _ _),
      Finset.sdiff_empty, ← Finset.sum_add_distrib, ← Finset.sum_add_distrib]
    exact Finset.sum_congr rfl fun i _ => hb.refsAt_eq hS hR i
  have hroots : h'.rootRefs = h.rootRefs := by
    unfold rootRefs rootValues
    rw [hb.roots]
  unfold stored
  rw [howned, hroots, hb.key]
  abel

/-- One cell has lost references, unless it has been freed with all that it had. The others are as they
were, or have been freed. -/
theorem Becomes.stored_of_one {t : Handle} {b : Body} {lost : Multiset Handle} (hb : Becomes R h h')
    (ht : h.body? t = some b)
    (hothers : ∀ r c c', r ≠ t → R r c c' → (c.refs : Multiset Handle) = c'.refs)
    (hself : h'.isLive t = true → ∀ b', R t b b' → (b.refs : Multiset Handle) = b'.refs + lost) :
    h.stored ∅ = h'.stored ∅ + (h.lostRefs h' + if h'.isLive t = true then lost else 0) := by
  by_cases hlive : h'.isLive t = true
  · have hR : ∀ r c c', h.body? r = some c → R r c c' →
        (c.refs : Multiset Handle) = c'.refs + if r ∈ ({t} : Finset Handle) then lost else 0 := by
      intro r c c' hc hchange
      by_cases hr : r = t
      · subst hr
        rw [ht] at hc
        cases hc
        simpa using hself hlive c' hchange
      · simpa [hr] using hothers r c c' hr hchange
    rw [if_pos hlive]
    simpa using hb.stored_eq (f := fun _ => lost) (by simpa using hlive) hR
  · have hrest : Becomes (fun r c c' => r ≠ t ∧ R r c c') h h' := by
      refine ⟨fun r c' hc' => ?_, hb.roots, hb.key⟩
      obtain ⟨c, hc, hchange⟩ := hb.cells r c' hc'
      refine ⟨c, hc, ?_, hchange⟩
      rintro rfl
      exact hlive (exists_body?.mp ⟨c', hc'⟩)
    rw [if_neg hlive]
    simpa using hrest.stored_eq (S := ∅) (f := fun _ => 0) (by simp) fun r c c' _ hchange => by
      simpa using hothers r c c' hchange.1 hchange.2

end

/-- Where counts are exact before and afterwards, a count goes down by what is no longer stored. -/
theorem Exact.count_eq {lost : Multiset Handle} {m : ℕ} (hx : h.Exact X) (hx' : h'.Exact X)
    (hs : h.stored ∅ = h'.stored ∅ + lost) (hn : h.count? r = some n) (hm : h'.count? r = some m) :
    n = m + lost.count r := by
  rw [hx.count r n hn, hx'.count r m hm, hs]
  simp only [Multiset.count_add]
  omega

/-- What is stored is what is still stored and what has been lost. -/
theorem Shrinks.stored_eq (hs : Shrinks h h') : h.stored ∅ = h'.stored ∅ + h.lostRefs h' := by
  have hnone : ∀ t ∈ (∅ : Finset Handle), h'.isLive t = true := fun t ht => absurd ht (by simp)
  have hsame : ∀ (r : Handle) (b b' : Body), h.body? r = some b → b' = b →
      (b.refs : Multiset Handle) = b'.refs + if r ∈ (∅ : Finset Handle) then 0 else 0 := by
    rintro r b _ - rfl
    simp
  simpa using hs.becomes.stored_eq (f := fun _ => 0) hnone hsame

/-- A count goes down by the references that have been lost. -/
theorem Shrinks.count_eq (hs : Shrinks h h') (hx : h.Exact X) (hx' : h'.Exact X) {n' : ℕ}
    (hn : h.count? r = some n) (hn' : h'.count? r = some n') :
    n = n' + (h.lostRefs h').count r := by
  rw [hx.count r n hn, hx'.count r n' hn', hs.stored_eq]
  simp only [Multiset.count_add]
  omega

/-- A leaf is freed where all its counts were lost. -/
theorem Shrinks.leaf_iff (hs : Shrinks h h') (hs' : h'.Sound) (hx : h.Exact X) (hx' : h'.Exact X)
    (hr : h.arena.Holds r n b) (hb : b.isComposite = false) :
    h'.isLive r = false ↔ n = (h.lostRefs h').count r := by
  have hn : h.count? r = some n := count?_eq_some.mpr ⟨b, hr⟩
  constructor
  · intro hdead
    have hgone : r ∉ h'.stored ∅ + X := fun hm => by
      rw [hx'.live r hm] at hdead
      cases hdead
    have hzero := Multiset.count_eq_zero.mpr hgone
    have hcount := hx.count r n hn
    rw [hs.stored_eq] at hcount
    simp only [Multiset.count_add] at hcount hzero
    omega
  · intro hlost
    by_contra hlive
    obtain ⟨n', b', hr'⟩ := Arena.isLive_iff.mp (by simpa using hlive : h'.isLive r = true)
    obtain ⟨m, hm⟩ := hs.cells r n' b' hr'
    obtain ⟨-, rfl⟩ := hm.unique hr
    have hpos := hs'.arena.leaves r n' b' hr' hb
    have := hs.count_eq hx hx' hn (count?_eq_some.mpr ⟨b', hr'⟩)
    omega

/-! ## All of a pass -/

/-- What a pass at the top does to a heap. -/
structure Collected (h : Heap) (o : PassOptions) (X : Multiset Handle) (h' : Heap) : Prop where
  /-- Composite cells that are not reached from an anchor are freed. -/
  garbage : h.NamesStrings → ∀ r, h.arena.Composite r → ¬ h.Reaches (h.Anchored X) r →
    h'.isLive r = false
  /-- A name that came to be that of a composite cell is followed as well. -/
  traced : ∀ r, h.arena.Composite r →
    ¬ h.arena.Traces (fun q => h.Anchored X q ∨ h.finalizerKey = some q) r → h'.isLive r = false
  /-- What the client reaches is there, with the contents that it had. -/
  reached : ∀ r n b, h.Reached X r → h.arena.Holds r n b → ∃ m, h'.arena.Holds r m b
  /-- A count goes down by the references that freed cells owned. -/
  counts : ∀ r n n', h.count? r = some n → h'.count? r = some n' →
    n = n' + (h.lostRefs h').count r
  /-- A leaf is freed if all its counts came from freed cells, and only then. -/
  leaves : ∀ r n b, h.arena.Holds r n b → b.isComposite = false →
    (h'.isLive r = false ↔ n = (h.lostRefs h').count r)
  /-- What is swept is not counted when its slot is emptied. -/
  zero : (h.toSweep o).SweptAtZero (h.garbage o)

theorem Collected.of_shrinks (hs : h.Sound) (hlevel : OutsidePass [] h) (hx : h.Exact X)
    (hq : h.Unfinalized ∨ o.skipFinalizers = true) (hs' : h'.Sound) (hx' : h'.Exact X)
    (hshrinks : Shrinks (h.beginPass o).1 h') : h.Collected o X h' := by
  have hb : h.Balanced ∅ X := exact_iff.mp hx
  have hall : Shrinks h h' := Shrinks.beginPass.trans hshrinks
  have htraced : ∀ r, h.arena.Composite r →
      ¬ h.arena.Traces (fun q => h.Anchored X q ∨ h.finalizerKey = some q) r →
      h'.isLive r = false := by
    intro r hr hnot
    have hunmarked : ¬ (h.toSweep o).arena.Marked r.index :=
      fun hm => hnot (traces_of_marked hs hlevel hb (pendingCells_eq_nil hq) hr hm)
    have hlisted : r.index ∈ h.arena.members .allocated := by
      obtain ⟨n, b, hcell, hcomp⟩ := id hr
      obtain ⟨ch, hch⟩ := hs.arena.mem_of_cell hcell hcomp
      cases ch with
      | allocated => exact hch
      | queue =>
        rw [hlevel.2] at hch
        cases hch
    have hdead : (h.beginPass o).1.isLive r = false :=
      dead_of_garbage hs hr ((mem_garbage hs).mpr ⟨hlisted, hunmarked⟩)
    by_contra hlive
    rw [hshrinks.live (by simpa using hlive)] at hdead
    cases hdead
  have hkept : Kept True (fun _ => True) (h.toSweep o) X :=
    Kept.toSweep (P := fun _ => True) ⟨hs, trivial, fun _ => hb⟩
  exact {
    garbage := fun hn r hr hnot => htraced r hr fun ht => hnot (hn.reaches ht)
    traced := htraced
    reached := fun r n b hr hcell => hall.kept (exact_iff.mp hx') hr hcell
    counts := fun r n n' hn hn' => hall.count_eq hx hx' hn hn'
    leaves := fun r n b hr hleaf => hall.leaf_iff hs' hx hx' hr hleaf
    zero := sweptAtZero hkept.sound sweeping_toSweep (hkept.balanced trivial) (nodup_garbage hs)
      (fun _ => allocated_of_garbage hs) (unheld_garbage hs hb) }

end Heap

section

variable {σ : Type} {host : Host σ} {w : World σ} {X : Multiset Handle} {o : PassOptions} {fuel : ℕ}

/-- A quiet pass at the top ends, only frees cells after it has swept, and keeps counts exact. -/
theorem Reachable.collect_quiet (hw : Reachable host w) (hx : w.heap.Exact X)
    (hq : w.heap.Unfinalized ∨ o.skipFinalizers = true ∧ host.Silent)
    (hfuel : 2 * w.heap.arena.compositeCount < fuel) :
    ∃ w', (Engine.top host fuel).collect o w = some (true, w') ∧ w'.heap.Sound ∧ w'.heap.Exact X ∧
      Heap.Shrinks (w.heap.beginPass o).1 w'.heap := by
  have hk := hw.kept hx
  have hquiet : host.Quiet True w.heap := hq.elim .inr fun h => .inl ⟨trivial, h.2⟩
  obtain ⟨ran, w', e⟩ := top_collect_returns (o := o) hquiet hk hfuel
  obtain ⟨hk', hshrinks⟩ := top_collect_quiet hquiet hk ran w' e
  obtain rfl : ran = true := pass_ran ran w' e
  exact ⟨w', e, hk'.sound, hk'.exact, hshrinks⟩

/-- A tracing pass at the top, where no finalizer is found or finalizers are skipped and do not use the
heap, ends and frees garbage and nothing else. -/
theorem collect_frees_garbage (hw : Reachable host w) (hx : w.heap.Exact X)
    (hq : w.heap.Unfinalized ∨ o.skipFinalizers = true ∧ host.Silent)
    (hfuel : 2 * w.heap.arena.compositeCount < fuel) :
    ∃ w', (Engine.top host fuel).collect o w = some (true, w') ∧
      w.heap.Collected o X w'.heap := by
  obtain ⟨w', e, hs', hx', hshrinks⟩ := hw.collect_quiet hx hq hfuel
  exact ⟨w', e, .of_shrinks hw.sound.1 hw.sound.2 hx (hq.imp_right And.left) hs' hx' hshrinks⟩

end

/-- Two objects that refer to each other are dropped; the client keeps the key. -/
theorem run_cycle : ∃ w : World Unit, Run .idle Discipline.careful w {⟨2, 0⟩} ∧
    w.heap.finalizerKey = none ∧ w.heap.arena.compositeCount = 2 := by
  have r₀ : Run .idle Discipline.careful ⟨.empty {}, ()⟩ 0 := .start {} ()
  have r₁ := r₀.advance 5 (.allocObject none) (.ok ⟨0, 0⟩) (by decide) (by decide +kernel)
    (Operation.Careful.of_held (by decide))
  have r₂ := r₁.advance 5 (.allocObject none) (.ok ⟨1, 0⟩) (by decide) (by decide +kernel)
    (Operation.Careful.of_held (by decide))
  have r₃ := r₂.advance 5 (.intern "k" false) (.ok ⟨2, 0⟩) (by decide) (by decide +kernel)
    (Operation.Careful.of_held (by decide))
  have r₄ := r₃.advance 5 (.putProp ⟨0, 0⟩ ⟨2, 0⟩ (.ref ⟨1, 0⟩)) (.ok ()) (by decide)
    (by decide +kernel) (Operation.Careful.of_held (by decide))
  have r₅ := r₄.advance 5 (.putProp ⟨1, 0⟩ ⟨2, 0⟩ (.ref ⟨0, 0⟩)) (.ok ()) (by decide)
    (by decide +kernel) (Operation.Careful.of_held (by decide))
  have r₆ := r₅.advance 5 (.release (.ref ⟨0, 0⟩)) (.ok ()) (by decide) (by decide +kernel)
    (Operation.Careful.of_held (by decide))
  have r₇ := r₆.advance 5 (.release (.ref ⟨1, 0⟩)) (.ok ()) (by decide) (by decide +kernel)
    (Operation.Careful.of_held (by decide))
  exact ⟨_, r₇, by decide +kernel, by decide +kernel⟩

theorem collect_frees_garbage_cycle : ∃ w w' : World Unit, Reachable .idle w ∧
    w.heap.Exact {⟨2, 0⟩} ∧ w.heap.Unfinalized ∧ 2 * w.heap.arena.compositeCount < 5 ∧
    (Engine.top .idle 5).collect {} w = some (true, w') ∧
    w.heap.Collected {} {⟨2, 0⟩} w'.heap := by
  obtain ⟨w, hr, hkey, hcount⟩ := run_cycle
  have hx : w.heap.Exact {⟨2, 0⟩} := (hr.kept Host.silent_idle).exact
  have hu : w.heap.Unfinalized := Heap.unfinalized_of_key hkey
  have hfuel : 2 * w.heap.arena.compositeCount < 5 := by omega
  obtain ⟨w', e, hc⟩ := collect_frees_garbage hr.reachable hx (.inl hu) hfuel
  exact ⟨w, w', hr.reachable, hx, hu, hfuel, e, hc⟩

end CountedHeap
