import CountedHeap.Proofs.Heap.Shrinks

/-!
# Sweeping

A sweep has two phases: all garbage gives its references back, then the slots of all garbage are
emptied. In between, what garbage refers to is set aside, and since nothing else refers to garbage,
each garbage cell has come down to a count of zero when its slot is emptied.

* `Heap.Unheld`: neither what is held nor what other cells store refers to some slots.
* `Balanced.releaseGarbage`: the first phase sets the references of garbage aside.
* `Balanced.sweep`, `Sound.sweep`: a sweep keeps counts exact and the heap sound.
* `counted_of_unheld`: a garbage cell is not counted once garbage has given its references back.
-/

namespace CountedHeap.Heap

variable {h h' : Heap} {X : Multiset Handle} {D : Finset ℕ} {G l : List ℕ} {r : Handle} {n i j : ℕ}
  {b : Body}

/-- The first phase of a sweep. -/
def releaseGarbage (h : Heap) (G : List ℕ) : Heap :=
  G.foldl releaseChildren h

/-- Neither what is held nor what cells outside some slots store refers to these slots. -/
def Unheld (h : Heap) (G : List ℕ) (X : Multiset Handle) : Prop :=
  ∀ r ∈ h.stored G.toFinset + X, r.index ∉ G

/-! ## What is stored -/

/-- A heap that has shrunk stores nothing new. -/
theorem Shrinks.refsAt (hs : Shrinks h h') (i : ℕ) :
    h'.arena.refsAt i = h.arena.refsAt i ∨ h'.arena.refsAt i = [] := by
  rw [Arena.refsAt_eq_core, Arena.refsAt_eq_core]
  cases hc : h'.arena.core i with
  | none => exact .inr rfl
  | some x =>
    obtain ⟨g, y⟩ := x
    cases y with
    | none => exact .inr rfl
    | some z =>
      obtain ⟨n, b⟩ := z
      obtain ⟨m, hm⟩ := hs.cells ⟨i, g⟩ n b hc
      rw [show h.arena.core i = _ from hm]
      exact .inl rfl

theorem Shrinks.mem_stored (hs : Shrinks h h') (hr : r ∈ h'.stored D) : r ∈ h.stored D := by
  unfold stored at hr ⊢
  rw [hs.rootRefs, hs.key] at hr
  simp only [Multiset.mem_add, Arena.mem_owned] at hr ⊢
  refine hr.imp_left (Or.imp_left ?_)
  rintro ⟨i, hi, hr⟩
  rcases hs.refsAt i with he | he
  · exact ⟨i, hi, he ▸ hr⟩
  · rw [he] at hr
    cases hr

theorem Shrinks.stored_le (hs : Shrinks h h') : h'.stored D ≤ h.stored D := by
  have howned : h'.arena.owned D ≤ h.arena.owned D := by
    rw [Arena.owned_eq_sum (le_max_left h'.arena.slots.size h.arena.slots.size),
      Arena.owned_eq_sum (le_max_right h'.arena.slots.size h.arena.slots.size)]
    refine Finset.sum_le_sum fun i _ => ?_
    rcases hs.refsAt i with he | he
    · rw [he]
    · rw [he]
      exact Multiset.zero_le _
  unfold stored
  rw [hs.rootRefs, hs.key]
  exact add_le_add_left (add_le_add_left howned _) _

/-- Where counts are exact, they go down. -/
theorem Shrinks.counted_le {Y : Multiset Handle} (hs : Shrinks h h') (hb : h.Balanced D X)
    (hb' : h'.Balanced D Y) (hY : Y ≤ X) : h'.arena.counted r ≤ h.arena.counted r := by
  rw [hb r, hb' r]
  exact Multiset.count_le_of_le r (add_le_add hs.stored_le hY)

theorem Unheld.of_shrinks (hu : h.Unheld G X) (hs : Shrinks h h') : h'.Unheld G X := by
  intro r hr
  rw [Multiset.mem_add] at hr
  exact hu r (Multiset.mem_add.mpr (hr.imp_left hs.mem_stored))

/-- What nothing refers to is not counted. -/
theorem counted_of_unheld (hb : h.Balanced G.toFinset X) (hu : h.Unheld G X) (hr : r.index ∈ G) :
    h.arena.counted r = 0 := by
  rw [hb r, Multiset.count_eq_zero]
  exact fun hm => hu r hm hr

/-! ## The first phase -/

theorem Shrinks.releaseGarbage : Shrinks h (h.releaseGarbage G) :=
  Shrinks.foldl (fun _ _ => Shrinks.releaseChildren) G

/-- A garbage cell has given its references back, and they are set aside. -/
theorem Balanced.releaseChildren (hb : h.Balanced D X) (hi : i ∉ D) :
    (h.releaseChildren i).Balanced (insert i D) X := by
  have haside : h.Balanced (insert i D) (X + h.arena.refsAt i) := by
    refine hb.shift rfl ?_
    unfold stored
    rw [← Arena.owned_insert (a := h.arena) hi]
    abel
  unfold Heap.releaseChildren
  unfold Arena.refsAt at haside
  split
  · rename_i c hc
    rw [hc] at haside
    exact haside.releaseQuietly
  · rename_i hc
    rw [hc] at haside
    simpa using haside

theorem Balanced.releaseGarbage_aux (hb : h.Balanced D X) (hnd : G.Nodup) (hD : ∀ i ∈ G, i ∉ D) :
    (h.releaseGarbage G).Balanced (D ∪ G.toFinset) X := by
  induction G generalizing h D with
  | nil => simpa [Heap.releaseGarbage] using hb
  | cons i G ih =>
    obtain ⟨hi, hnd⟩ := List.nodup_cons.mp hnd
    have hb' := hb.releaseChildren (hD i (by simp))
    have := ih hb' hnd fun j hj hjD => by
      rcases Finset.mem_insert.mp hjD with rfl | hjD
      · exact hi hj
      · exact hD j (by simp [hj]) hjD
    rw [List.toFinset_cons, Finset.union_insert, ← Finset.insert_union]
    exact this

theorem Balanced.releaseGarbage (hb : h.Balanced ∅ X) (hnd : G.Nodup) :
    (h.releaseGarbage G).Balanced G.toFinset X := by
  have := hb.releaseGarbage_aux hnd fun i _ => Finset.notMem_empty i
  rwa [Finset.empty_union] at this

theorem Sound.releaseGarbage (hs : h.Sound) :
    (h.releaseGarbage G).Sound ∧ Loose h (h.releaseGarbage G) := by
  induction G generalizing h with
  | nil => exact ⟨hs, Calm.refl.loose⟩
  | cons i G ih =>
    have hstep : (h.releaseChildren i).Sound ∧ Loose h (h.releaseChildren i) := by
      unfold Heap.releaseChildren
      split
      · exact hs.releaseQuietly
      · exact ⟨hs, Calm.refl.loose⟩
    obtain ⟨hs', hl⟩ := ih hstep.1
    exact ⟨hs', hstep.2.trans hl⟩

/-! ## The second phase -/

/-- One slot is emptied. -/
theorem Sound.freeSwept (hs : h.Sound) (hi : i ∈ h.arena.members .allocated) :
    (h.freeSwept i).Sound ∧
      (h.freeSwept i).arena.members = fun ch => (h.arena.members ch).erase i := by
  obtain ⟨n, b, hr, hcomp⟩ := hs.arena.cell_of_mem hi
  obtain ⟨hsound, hmem⟩ := hs.arena.remove hr hcomp
  exact ⟨⟨hsound, hs.freeRoots, hs.rootsFree⟩, hmem⟩

theorem core_freeSwept (hr : h.arena.Holds (h.arena.handleAt i) n b) : (h.freeSwept i).arena.core =
    Function.update h.arena.core i (some ((h.arena.handleAt i).generation + 1, none)) := by
  have := Arena.core_release (a := h.arena.unlink i) (r := h.arena.handleAt i) hr.unlink
  rwa [Arena.core_unlink] at this

theorem Sound.freeAll (hs : h.Sound) (hnd : l.Nodup) (hl : ∀ i ∈ l, i ∈ h.arena.members .allocated) :
    (l.foldl Heap.freeSwept h).Sound ∧
      (l.foldl Heap.freeSwept h).arena.members .queue = h.arena.members .queue ∧
      ∀ i, i ∈ (l.foldl Heap.freeSwept h).arena.members .allocated ↔
        i ∈ h.arena.members .allocated ∧ i ∉ l := by
  induction l generalizing h with
  | nil => exact ⟨hs, rfl, fun i => by simp⟩
  | cons j l ih =>
    obtain ⟨hj, hnd⟩ := List.nodup_cons.mp hnd
    have hmem := hl j (by simp)
    obtain ⟨hs', hmem'⟩ := hs.freeSwept hmem
    have hnodup := (hs.arena.threaded .allocated).nodup
    obtain ⟨hs'', hqueue, halloc⟩ := ih hs' hnd fun i hi => by
      rw [hmem', List.mem_erase_of_ne (by rintro rfl; exact hj hi)]
      exact hl i (by simp [hi])
    refine ⟨hs'', ?_, fun i => ?_⟩
    · rw [List.foldl_cons, hqueue, hmem']
      refine List.erase_of_not_mem fun hq => ?_
      exact Chain.noConfusion (hs.arena.threaded.eq_of_mem hmem hq)
    · rw [List.foldl_cons, halloc, hmem', hnodup.mem_erase_iff, List.mem_cons]
      tauto

/-- The slots of garbage are emptied while nothing counts them. -/
theorem Balanced.freeAll (hs : h.Sound) (hb : h.Balanced G.toFinset X) (hu : h.Unheld G X)
    (hnd : l.Nodup) (hl : ∀ i ∈ l, i ∈ G ∧ i ∈ h.arena.members .allocated) :
    (l.foldl Heap.freeSwept h).Balanced G.toFinset X ∧
      ∀ i ∈ l, (l.foldl Heap.freeSwept h).arena.refsAt i = [] := by
  induction l generalizing h with
  | nil => exact ⟨hb, by simp⟩
  | cons j l ih =>
    obtain ⟨hj, hnd⟩ := List.nodup_cons.mp hnd
    obtain ⟨hG, hmem⟩ := hl j (by simp)
    obtain ⟨n, b, hr, hcomp⟩ := hs.arena.cell_of_mem hmem
    have hzero : n = 0 := by
      rw [← hr.counted]
      exact counted_of_unheld hb hu hG
    subst hzero
    have hcore := core_freeSwept hr
    have hb' : (h.freeSwept j).Balanced G.toFinset X :=
      hb.free hr (.inl (List.mem_toFinset.mpr hG)) hcore rfl rfl
    have hshrinks : Shrinks h (h.freeSwept j) := Shrinks.freeSwept
    obtain ⟨hs', hmem'⟩ := hs.freeSwept hmem
    obtain ⟨hb'', hrest⟩ := ih hs' hb' (hu.of_shrinks hshrinks) hnd fun i hi => by
      refine ⟨(hl i (by simp [hi])).1, ?_⟩
      rw [hmem', List.mem_erase_of_ne (by rintro rfl; exact hj hi)]
      exact (hl i (by simp [hi])).2
    refine ⟨hb'', fun i hi => ?_⟩
    rcases List.mem_cons.mp hi with rfl | hi
    · have hempty : (h.freeSwept i).arena.refsAt i = [] := by
        rw [Arena.refsAt_eq_core, hcore, Function.update_self]
        rfl
      have hrest' : Shrinks (h.freeSwept i) (l.foldl Heap.freeSwept (h.freeSwept i)) :=
        Shrinks.foldl (fun _ _ => Shrinks.freeSwept) l
      exact (hrest'.refsAt i).elim (·.trans hempty) id
    · exact hrest i hi

/-! ## Both phases -/

/-- Garbage is still on the allocated list when its slots are emptied. -/
theorem mem_allocated_releaseGarbage (hs : h.Sound) (hsweep : h.sweeping = true)
    (hi : i ∈ h.arena.members .allocated) :
    i ∈ (h.releaseGarbage G).arena.members .allocated := by
  obtain ⟨hs', hloose⟩ := hs.releaseGarbage (G := G)
  have hchain := hs.arena.mem_members.mp hi
  obtain ⟨ch, hch⟩ := Option.ne_none_iff_exists'.mp (hloose.linked i (by rw [hchain]; simp))
  cases ch with
  | allocated => exact hs'.arena.mem_members.mpr hch
  | queue =>
    have hq := hs'.arena.mem_members.mpr hch
    rw [hloose.still hsweep] at hq
    exact Chain.noConfusion (hs.arena.threaded.eq_of_mem hi hq)

theorem Sound.sweep (hs : h.Sound) (hsweep : h.sweeping = true) (hnd : G.Nodup)
    (hG : ∀ i ∈ G, i ∈ h.arena.members .allocated) : (h.sweep G).Sound ∧
      (h.sweep G).arena.members .queue = h.arena.members .queue ∧
      ∀ i, i ∈ (h.sweep G).arena.members .allocated ↔ i ∈ h.arena.members .allocated ∧ i ∉ G := by
  obtain ⟨hs₁, hloose⟩ := hs.releaseGarbage (G := G)
  have hmem : ∀ i ∈ h.arena.members .allocated,
      i ∈ (h.releaseGarbage G).arena.members .allocated :=
    fun i hi => mem_allocated_releaseGarbage hs hsweep hi
  obtain ⟨hs₂, hqueue, halloc⟩ := hs₁.freeAll hnd fun i hi => hmem i (hG i hi)
  refine ⟨hs₂, hqueue.trans (hloose.still hsweep), fun i => (halloc i).trans ?_⟩
  refine and_congr_left fun _ => ⟨fun hi => ?_, hmem i⟩
  -- What is there after the first phase was there before.
  obtain ⟨n, b, hr, hcomp⟩ := hs₁.arena.cell_of_mem hi
  obtain ⟨m, hm⟩ := Shrinks.releaseGarbage.cells _ n b hr
  obtain ⟨ch, hch⟩ := hs.arena.mem_of_cell hm hcomp
  cases ch with
  | allocated => exact hch
  | queue =>
    have hq := hs₁.arena.threaded.eq_of_mem hi ((hloose.still hsweep).symm ▸ hch)
    cases hq

theorem sweeping_sweep (hs : h.Sound) : (h.sweep G).sweeping = h.sweeping := by
  have hfree : ∀ (l : List ℕ) (h : Heap), (l.foldl Heap.freeSwept h).sweeping = h.sweeping := by
    intro l
    induction l with
    | nil => exact fun _ => rfl
    | cons i l ih => exact fun h => ih (h.freeSwept i)
  exact (hfree G _).trans hs.releaseGarbage.2.sweeping

theorem Balanced.sweep (hs : h.Sound) (hsweep : h.sweeping = true) (hb : h.Balanced ∅ X)
    (hnd : G.Nodup) (hG : ∀ i ∈ G, i ∈ h.arena.members .allocated) (hu : h.Unheld G X) :
    (h.sweep G).Balanced ∅ X := by
  obtain ⟨hb', hempty⟩ := Balanced.freeAll hs.releaseGarbage.1 (hb.releaseGarbage hnd)
    (hu.of_shrinks Shrinks.releaseGarbage) hnd
    fun i hi => ⟨hi, mem_allocated_releaseGarbage hs hsweep (hG i hi)⟩
  refine hb'.shift rfl ?_
  -- Nothing is left in the slots set aside.
  have howned : (h.sweep G).arena.owned ∅ = (h.sweep G).arena.owned G.toFinset := by
    unfold Arena.owned
    rw [Finset.sdiff_empty]
    refine (Finset.sum_subset Finset.sdiff_subset fun i hi hiG => ?_).symm
    have hmem : i ∈ G := by simpa [Finset.mem_range.mp hi] using hiG
    rw [show (h.sweep G).arena.refsAt i = [] from hempty i hmem, Multiset.coe_nil]
  unfold stored
  rw [howned]
  rfl

end CountedHeap.Heap
