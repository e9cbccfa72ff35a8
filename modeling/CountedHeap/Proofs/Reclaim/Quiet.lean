import CountedHeap.Proofs.Reclaim.Drain

/-!
# Quiet passes and drains

Where no finalizer is found, or where finalizers make no use of the heap, passes and drains only free
cells, and every turn of a drain frees one. If counts are exact, every cell in the queue stays uncounted
until it is freed, so they stay exact. If nothing is asked of counts, a finalizer may leave its cell with
counts that it should not have, so there must not be any.

* `Caller.Silent`, `Quiet`: when finalizers leave the heap alone.
* `Heap.Fading`: a heap in a quiet drain.
* `Heap.QueueIdle`: no queued cell is counted.
* `passBody_shrinks`, `drainLoop_quiet`: cells are freed, and nothing else happens.
* `settleHead_quiet`: one turn frees the head.
* `drainLoop_returns`: a drain ends.
-/

namespace CountedHeap

variable {σ : Type} {call : Caller σ} {collect : Action σ Bool} {drain : Action σ Unit}
  {w w' : World σ} {X : Multiset Handle} {o : PassOptions} {i n fuel : ℕ} {l : List ℕ} {s : Prop}

/-! ## Nothing is made -/

/-- Calls of native functions end, and leave the heap alone. -/
def Caller.Silent (call : Caller σ) : Prop :=
  ∀ id v w, ∃ ending s, call id v w = some (ending, ⟨w.heap, s⟩)

theorem Caller.Silent.after (hcall : call.Silent) {id : NativeId} {v : Value} :
    After (call id v) w fun _ w' => w'.heap = w.heap := by
  obtain ⟨ending, s, he⟩ := hcall id v w
  intro a w' e
  rw [he] at e
  cases e
  rfl

/-- Counts are exact and finalizers leave the heap alone, or none is found. -/
def Quiet (s : Prop) (call : Caller σ) (h : Heap) : Prop :=
  (s ∧ call.Silent) ∨ h.Unfinalized

theorem Quiet.of_shrinks {h h' : Heap} (hq : Quiet s call h) (hs : Heap.Shrinks h h') :
    Quiet s call h' :=
  hq.imp_right hs.unfinalized

theorem Heap.Unfinalized.quiet {h : Heap} (hu : h.Unfinalized) : Quiet False call h :=
  .inr hu

/-- A finalizer that is found leaves the heap alone. -/
theorem Quiet.silent {h : Heap} (hq : Quiet s call h) (hu : ¬ h.Unfinalized) : s ∧ call.Silent :=
  hq.resolve_right hu

open Heap (Shrinks)

/-- A silent finalizer only counts how often it has run. -/
theorem runFinalizer_silent {r : Handle} {f : Heap.Finalizer} (hcall : call.Silent) :
    After (runFinalizer call r f) w fun _ w' => ∃ g, w'.heap = w.heap.modifyCounters g := by
  have hrest : ∀ w' : World σ, (∃ g, w'.heap = w.heap.modifyCounters g) → ∀ ending : Ending,
      After (if ending ≠ .returned then modifyHeap (·.modifyCounters fun c =>
        { c with finalizerErrors := c.finalizerErrors + 1 }) else pure ()) w'
        fun _ w'' => ∃ g, w''.heap = w.heap.modifyCounters g := by
    rintro w' ⟨g, hg⟩ ending
    split
    · rw [after_modifyHeap]
      exact ⟨fun c => { g c with finalizerErrors := (g c).finalizerErrors + 1 }, by rw [hg]; rfl⟩
    · exact after_pure.mpr ⟨g, hg⟩
  unfold runFinalizer
  rw [after_bind, after_modifyHeap, after_bind, after_query]
  split
  · rw [after_bind]
    exact hcall.after.mono fun ending w' hw =>
      hrest w' ⟨fun c => { c with finalizerRuns := c.finalizerRuns + 1 }, hw⟩ ending
  · rw [after_bind, after_pure]
    exact hrest _ ⟨fun c => { c with finalizerRuns := c.finalizerRuns + 1 }, rfl⟩ _

theorem runPending_shrinks (hq : Quiet s call w.heap) :
    After (runPending call l) w fun _ w' => Shrinks w.heap w'.heap := by
  induction l generalizing w with
  | nil => exact after_pure.mpr .refl
  | cons i l ih =>
    unfold runPending
    rw [after_bind, after_query]
    split
    · exact ih hq
    · rename_i r f hfound
      obtain ⟨-, hcall⟩ : s ∧ call.Silent := by
        refine hq.silent fun hu => ?_
        obtain ⟨c, -, hf⟩ := Option.bind_eq_some_iff.mp hfound
        obtain ⟨f', hf', -⟩ := Option.map_eq_some_iff.mp hf
        rw [hu] at hf'
        cases hf'
      simp only [after_bind, after_modifyHeap, after_pure]
      refine (runFinalizer_silent hcall).mono ?_
      rintro _ w' ⟨g, hw⟩
      have hstep : Shrinks w.heap (w'.heap.endFinalizer i) := by
        rw [hw]
        exact (Shrinks.beginFinalizer.trans .modifyCounters).trans .endFinalizer
      exact (ih (hq.of_shrinks hstep)).mono fun _ w'' hs => hstep.trans hs

theorem shrinks_finishPass {h : Heap} {p : PassStart} : Shrinks h (h.finishPass o p n).1 := by
  have hfold : ∀ (l : List ℕ) (h : Heap), Shrinks h (l.foldl Heap.enqueue h) :=
    fun l h => Shrinks.foldl (fun _ _ => .of_core Heap.core_enqueue rfl rfl rfl) l
  have hstart : Shrinks h ({ h with sweeping := false } : Heap) := .of_core rfl rfl rfl rfl
  obtain ⟨trigger, counters, lastPass, he⟩ := h.finishPass_eq (o := o) (p := p) (n := n)
  rw [he]
  exact (hstart.trans (hfold _ _)).trans (.of_core rfl rfl rfl rfl)

/-- A quiet pass only frees cells after it has swept. -/
theorem passBody_shrinks (hq : Quiet s call w.heap) :
    After (passBody call o) w fun _ w' => Shrinks (w.heap.beginPass o).1 w'.heap := by
  unfold passBody
  rw [after_bind, after_change, after_bind]
  refine (runPending_shrinks (hq.of_shrinks .beginPass)).mono fun n w' hs => ?_
  dsimp only at hs ⊢
  split
  · rw [after_bind, after_modifyHeap, after_change]
    exact (hs.trans Heap.remarked_settle.shrinks).trans shrinks_finishPass
  · rw [after_change]
    exact hs.trans shrinks_finishPass

/-! ## The queue of a quiet drain -/

namespace Heap

variable {h h' : Heap} {D : Finset ℕ} {r : Handle} {b : Body}

/-- No queued cell is counted. -/
def QueueIdle (h : Heap) : Prop :=
  ∀ i ∈ h.arena.members .queue, h.arena.counted (h.arena.handleAt i) = 0

/-- The cells on the lists of a heap that has shrunk are the same cells. -/
theorem Shrinks.handleAt_eq (hs : Shrinks h h') (hs' : h'.Sound) {ch : Chain}
    (hi : i ∈ h'.arena.members ch) : h'.arena.handleAt i = h.arena.handleAt i := by
  obtain ⟨n, b, hb, -⟩ := hs'.arena.cell_of_mem hi
  obtain ⟨m, hm⟩ := hs.cells _ n b hb
  exact hm.handleAt.symm

/-- Only a cell that is not counted any longer is queued. -/
theorem QueueIdle.release (hq : h.QueueIdle) (hs : h.Sound) (hb : h.Balanced D (X + {r})) :
    (h.release r).1.QueueIdle := by
  obtain ⟨hs', -, hqueue, hone⟩ := hs.release_cases (r := r)
  have hle : ∀ s, (h.release r).1.arena.counted s ≤ h.arena.counted s := fun s =>
    Shrinks.release.counted_le hb hb.release (Multiset.le_add_right X {r})
  intro j hj
  have hsame := Shrinks.release.handleAt_eq hs' hj
  rw [hsame]
  rw [hqueue, List.mem_append] at hj
  rcases hj with hj | hj
  · exact Nat.le_zero.mp ((hle _).trans (hq j hj).le)
  · -- The cell that has been queued was counted once.
    have hqueued : (h.release r).2 = true ∧ j = r.index := by
      by_cases hr : (h.release r).2 = true
      · simpa [hr] using hj
      · simp [hr] at hj
    obtain ⟨hr, rfl⟩ := hqueued
    have hcount := hone hr
    obtain ⟨n, b, hcell⟩ := Arena.isLive_iff.mp (Arena.isLive_of_counted (r := r)
      (a := h.arena) (by omega))
    rw [hcell.handleAt]
    have hstored : (h.release r).1.stored D ≤ h.stored D := Shrinks.release.stored_le
    have hb' := hb.release r
    have hle' := Multiset.count_le_of_le r hstored
    have := hb r
    simp only [Multiset.count_add, Multiset.count_singleton_self] at this hb'
    omega

theorem QueueIdle.releaseQuietly {rs : List Handle} (hq : h.QueueIdle) (hs : h.Sound)
    (hb : h.Balanced D (X + rs)) : (h.releaseQuietly rs).QueueIdle := by
  induction rs generalizing h with
  | nil => exact hq
  | cons r rs ih =>
    rw [add_coe_cons] at hb
    exact ih (hq.release hs hb) hs.release.1 hb.release

/-- A heap in a quiet drain: if counts are exact, no queued cell is counted. -/
structure Fading (s : Prop) (h : Heap) (X : Multiset Handle) : Prop where
  kept : Kept s (Draining []) h X
  idle : s → h.QueueIdle

theorem Fading.remark (hf : Fading s h X) (hr : Remarked h h') : Fading s h' X := by
  refine ⟨hf.kept.remark (yielding_draining []) hr, fun hs i hi => ?_⟩
  rw [hr.arena.members hf.kept.sound.arena] at hi
  rw [hr.arena.handleAt, Arena.counted_congr (congrFun hr.arena.core _)]
  exact hf.idle hs i hi

/-- What a quiet drain does to a heap: cells are freed, and none stays allocated that has lost its last
count. -/
structure Fades (h h' : Heap) : Prop extends Shrinks h h' where
  tight : h.Tight → h'.Tight

theorem Fades.refl : Fades h h :=
  ⟨.refl, id⟩

theorem Fades.trans {h'' : Heap} (h₁ : Fades h h') (h₂ : Fades h' h'') : Fades h h'' :=
  ⟨h₁.toShrinks.trans h₂.toShrinks, fun ht => h₂.tight (h₁.tight ht)⟩

theorem Remarked.fades (hr : Remarked h h') (hs : h.Sound) : Fades h h' := by
  refine ⟨hr.shrinks, fun ht => ht.of_core hr.arena.core fun i hi => ?_⟩
  rwa [hr.arena.members hs.arena] at hi

theorem Tight.evict (ht : h.Tight) (hs : h.Sound) (hr : h.arena.Holds r n b)
    (hc : b.isComposite = true) : (h.evict r.index).Tight := by
  refine ht.update (core_evict hr) (fun j _ hj => ?_) (by rintro _ _ ⟨⟩)
  rw [(hs.evict hr hc).2] at hj
  exact List.mem_of_mem_erase hj

theorem QueueIdle.evict (hq : h.QueueIdle) (hs : h.Sound) (hr : h.arena.Holds r n b)
    (hc : b.isComposite = true) : (h.evict r.index).QueueIdle := by
  obtain ⟨-, hmem⟩ := hs.evict hr hc
  intro j hj
  rw [hmem] at hj
  have hj' : j ∈ h.arena.members .queue := List.mem_of_mem_erase hj
  have hne : j ≠ r.index := by
    rintro rfl
    exact (hs.arena.threaded .queue).nodup.not_mem_erase hj
  have hsame : (h.evict r.index).arena.core j = h.arena.core j := by
    rw [core_evict hr]
    exact Function.update_of_ne hne _ _
  have hat : (h.evict r.index).arena.handleAt j = h.arena.handleAt j := by
    obtain ⟨m, c, hc, -⟩ := hs.arena.cell_of_mem hj'
    exact Arena.handleAt_of_core (hsame.trans hc)
  rw [hat, Arena.counted_congr hsame]
  exact hq j hj'

/-- A slot that has been emptied is not filled while references are given back. -/
theorem emptied_evict {rs : List Handle} {g : UInt32} {x : ℕ × Body} (hr : h.arena.Holds r n b) :
    ((h.evict r.index).releaseQuietly rs).arena.core r.index ≠ some (g, some x) := by
  intro hc
  obtain ⟨k, hk⟩ := Shrinks.releaseQuietly.cells ⟨r.index, g⟩ x.1 x.2 hc
  unfold Arena.Holds at hk
  rw [core_evict hr, Function.update_self] at hk
  cases hk

/-- A queued cell is freed. -/
theorem Fading.leaveQueue (hf : Fading s h X) (hi : i ∈ h.arena.members .queue) :
    Fading s (h.leaveQueue i false).1 X ∧ Fades h (h.leaveQueue i false).1 ∧
      ((h.leaveQueue i false).1.arena.linksAt i).chain = none := by
  obtain ⟨n, b, hr, hcomp⟩ := hf.kept.sound.arena.cell_of_mem hi
  have hkept : Kept s (Draining []) (h.leaveQueue i false).1 X :=
    hf.kept.leaveQueue hf.kept.level.1 hi fun hs _ => hf.idle hs i hi
  have hzero : s → n = 0 := fun hs => hr.counted.symm.trans (hf.idle hs i hi)
  generalize hri : h.arena.handleAt i = r at hr
  obtain rfl : r.index = i := by rw [← hri]; rfl
  have hevicted := (hf.kept.sound.evict hr hcomp).1
  have hfreed := leaveQueue_false hr
  refine ⟨⟨hkept, fun hs => ?_⟩, ⟨Shrinks.leaveQueue, fun ht => ?_⟩, ?_⟩
  · rw [hfreed]
    obtain rfl := hzero hs
    exact ((hf.idle hs).evict hf.kept.sound hr hcomp).releaseQuietly hevicted
      ((hf.kept.balanced hs).evict hr)
  · rw [hfreed]
    exact (ht.evict hf.kept.sound hr hcomp).releaseQuietly hevicted hf.kept.level.1
  · by_contra hlinked
    obtain ⟨g, m, c, hc, -⟩ := (hkept.sound.arena.linked r.index).mp hlinked
    rw [hfreed] at hc
    exact emptied_evict hr hc

/-- A finalizer that leaves the heap alone leaves no trace but its mark. -/
theorem remarked_guarded {g : Counters → Counters} :
    Remarked h (((h.beginFinalizer i).modifyCounters g).endFinalizer i) := by
  refine .of_alike ⟨?_, ?_, rfl, rfl, ?_⟩ rfl rfl rfl rfl rfl rfl
  · change ((h.arena.modifyAt i fun c => (c.modifyMarks ({ · with finalized := true })).modifyHeader
      .acquire).modifyAt i (·.modifyHeader .release)).core = h.arena.core
    rw [Arena.core_modifyAt (F := fun x => (x.1 - 1, x.2)) fun _ => rfl,
      Arena.core_modifyAt (F := fun x => (x.1 + 1, x.2)) fun _ => rfl, Function.update_idem,
      Function.update_self]
    simp [Function.comp_def]
  · exact (Arena.linksAt_modifyAt _).trans (Arena.linksAt_modifyAt _)
  · have hbegin : (h.beginFinalizer i).arena.books = h.arena.books :=
      Arena.books_modifyAt_of_eq fun _ => rfl
    rw [← hbegin]
    exact Arena.books_modifyAt_of_eq (a := (h.beginFinalizer i).arena) fun _ => rfl

/-- The number of composite cells, as a set of slots. -/
theorem Sound.compositeCount_eq (hs : h.Sound) : h.arena.compositeCount =
    ((h.arena.members .allocated ++ h.arena.members .queue).toFinset).card := by
  have hnd : (h.arena.members .allocated ++ h.arena.members .queue).Nodup := by
    refine List.Nodup.append (hs.arena.threaded _).nodup (hs.arena.threaded _).nodup ?_
    intro i ha hq
    exact Chain.noConfusion (hs.arena.threaded.eq_of_mem ha hq)
  rw [List.toFinset_card_of_nodup hnd, List.length_append]
  unfold Arena.compositeCount
  congr 1
  · exact (hs.arena.threaded .allocated).length
  · exact (hs.arena.threaded .queue).length

theorem Sound.mem_lists (hs : h.Sound) :
    i ∈ (h.arena.members .allocated ++ h.arena.members .queue).toFinset ↔
      (h.arena.linksAt i).chain ≠ none := by
  rw [List.mem_toFinset, List.mem_append, hs.arena.mem_members, hs.arena.mem_members]
  cases hc : (h.arena.linksAt i).chain with
  | none => simp
  | some ch => cases ch <;> simp

theorem Shrinks.lasts (hs : Shrinks h h') : Lasts h'.arena h.arena := by
  intro r n b hr
  obtain ⟨m, hm⟩ := hs.cells r n b hr
  exact ⟨m, b, hm, rfl⟩

/-- A slot is on a list if it is on one in a heap whose cells are all there. -/
theorem Sound.linked_of_lasts (h₁ : h.Sound) (h₂ : h'.Sound) (hl : Lasts h'.arena h.arena)
    (hi : (h'.arena.linksAt i).chain ≠ none) : (h.arena.linksAt i).chain ≠ none := by
  obtain ⟨g, n, b, hc, hcomp⟩ := (h₂.arena.linked i).mp hi
  obtain ⟨m, c, hm, hsame⟩ := hl ⟨i, g⟩ n b hc
  exact (h₁.arena.linked i).mpr ⟨g, m, c, hm, hsame.trans hcomp⟩

/-- A heap has no more composite cells than one in which all of its cells are. -/
theorem Sound.compositeCount_le (h₁ : h.Sound) (h₂ : h'.Sound) (hl : Lasts h'.arena h.arena) :
    h'.arena.compositeCount ≤ h.arena.compositeCount := by
  rw [h₁.compositeCount_eq, h₂.compositeCount_eq]
  refine Finset.card_le_card fun i hi => ?_
  rw [h₂.mem_lists] at hi
  rw [h₁.mem_lists]
  exact h₁.linked_of_lasts h₂ hl hi

/-- A heap that shrinks has no more composite cells, and less if one has gone. -/
theorem Shrinks.compositeCount_le (hs : Shrinks h h') (h₁ : h.Sound) (h₂ : h'.Sound) :
    h'.arena.compositeCount ≤ h.arena.compositeCount :=
  h₁.compositeCount_le h₂ hs.lasts

theorem Shrinks.compositeCount_lt (hs : Shrinks h h') (h₁ : h.Sound) (h₂ : h'.Sound)
    (hi : (h.arena.linksAt i).chain ≠ none) (hi' : (h'.arena.linksAt i).chain = none) :
    h'.arena.compositeCount < h.arena.compositeCount := by
  rw [h₁.compositeCount_eq, h₂.compositeCount_eq]
  refine Finset.card_lt_card ((Finset.ssubset_iff_of_subset fun j hj => ?_).mpr ⟨i, ?_, ?_⟩)
  · rw [h₂.mem_lists] at hj
    rw [h₁.mem_lists]
    exact h₁.linked_of_lasts h₂ hs.lasts hj
  · rwa [h₁.mem_lists]
  · rw [h₂.mem_lists, not_not]
    exact hi'

end Heap

/-! ## Quiet drains -/

open Heap (Fading Fades)

/-- A finalizer that leaves the heap alone does not rescue a cell that nothing counts. -/
theorem Heap.endHeadFinalizer_guarded {h : Heap} {b : Body} {g : Counters → Counters}
    (hr : h.arena.Holds (h.arena.handleAt i) 0 b) :
    ((h.beginFinalizer i).modifyCounters g).endHeadFinalizer i =
      (((h.beginFinalizer i).modifyCounters g).endFinalizer i, false) := by
  obtain ⟨c, hc, hn, -⟩ := hr.get?
  rw [Arena.get?_handleAt] at hc
  have hcell : ((h.beginFinalizer i).modifyCounters g).arena.cellAt? i = some
      ((c.modifyMarks ({ · with finalized := true })).modifyHeader .acquire) := by
    rw [show ((h.beginFinalizer i).modifyCounters g).arena = h.arena.modifyAt i _ from rfl,
      Arena.cellAt?_modifyAt, if_pos rfl, hc]
    rfl
  rw [Heap.endHeadFinalizer_eq hcell]
  simp [Cell.modifyHeader, Cell.modifyMarks, Header.acquire, Header.isLast, hn]

/-- A queued cell is freed, whatever its marks have become. -/
theorem Heap.Fading.leaveQueue_remarked {h h' : Heap} (hf : Fading s h X)
    (hmem : i ∈ h.arena.members .queue) (hr : Heap.Remarked h h') :
    Fading s (h'.leaveQueue i false).1 X ∧ Fades h (h'.leaveQueue i false).1 ∧
      (h'.leaveQueue i false).1.arena.compositeCount < h.arena.compositeCount := by
  have hf' := hf.remark hr
  have hmem' : i ∈ h'.arena.members .queue := by
    rwa [hr.arena.members hf.kept.sound.arena]
  obtain ⟨hleft, hfades, hgone⟩ := hf'.leaveQueue hmem'
  have hs : Fades h (h'.leaveQueue i false).1 := (hr.fades hf.kept.sound).trans hfades
  refine ⟨hleft, hs, hs.compositeCount_lt hf.kept.sound hleft.kept.sound ?_ hgone⟩
  rw [hf.kept.sound.arena.mem_members.mp hmem]
  simp

/-- The head of the queue is one of its members. -/
theorem Heap.Fading.mem_head {h : Heap} (hf : Fading s h X) (hi : h.arena.queue.head = some i) :
    i ∈ h.arena.members .queue :=
  ((hf.kept.sound.mem_of_head hi).resolve_right (by simp [hf.kept.level.1])).1

/-- If counts are exact, the head of a quiet drain is not counted. -/
theorem Heap.Fading.head {h : Heap} (hf : Fading s h X) (hs : s) (hi : h.arena.queue.head = some i) :
    ∃ b, h.arena.Holds (h.arena.handleAt i) 0 b := by
  obtain ⟨n, b, hr, -⟩ := hf.kept.sound.arena.cell_of_mem (hf.mem_head hi)
  have hzero := hf.idle hs i (hf.mem_head hi)
  rw [hr.counted] at hzero
  exact ⟨b, hzero ▸ hr⟩

/-- One turn of a quiet drain frees the head of the queue. -/
theorem settleHead_quiet (hq : Quiet s call w.heap) (hf : Fading s w.heap X)
    (hi : w.heap.arena.queue.head = some i) : After (settleHead call i) w fun d w' =>
      d = .freed ∧ Fading s w'.heap X ∧ Fades w.heap w'.heap ∧
        w'.heap.arena.compositeCount < w.heap.arena.compositeCount := by
  have hmem := hf.mem_head hi
  unfold settleHead
  rw [after_bind, after_query]
  cases hfin : w.heap.headFinalizer i with
  | none =>
    rw [after_change]
    exact ⟨rfl, hf.leaveQueue_remarked hmem .refl⟩
  | some f =>
    obtain ⟨hstrict, hcall⟩ : s ∧ call.Silent := by
      refine hq.silent fun hu => ?_
      rw [Heap.headFinalizer_eq_none hu] at hfin
      cases hfin
    obtain ⟨b, hr⟩ := hf.head hstrict hi
    simp only [after_bind, after_query, after_modifyHeap, after_change]
    refine (runFinalizer_silent hcall).mono ?_
    rintro _ w' ⟨g, hw⟩
    dsimp only at hw
    rw [hw, Heap.endHeadFinalizer_guarded hr]
    exact ⟨rfl, hf.leaveQueue_remarked hmem Heap.remarked_guarded⟩

theorem drainLoop_quiet (hq : Quiet s call w.heap) (hf : Fading s w.heap X)
    (hcollect : ∀ w', Shrinks w.heap w'.heap → Fading s w'.heap X →
      w'.heap.arena.queue.head = none →
      After collect w' fun _ w'' => Fading s w''.heap X ∧ Fades w'.heap w''.heap) :
    After (drainLoop call collect fuel n) w fun _ w' =>
      (Fading s w'.heap X ∧ Fades w.heap w'.heap) ∧ w'.heap.arena.queue.head = none := by
  refine drainLoop_invariant (I := fun w' => Fading s w'.heap X ∧ Fades w.heap w'.heap)
    ?_ ?_ ?_ ⟨hf, .refl⟩
  · rintro w' i ⟨hf', hs⟩ hi
    exact (settleHead_quiet (hq.of_shrinks hs.toShrinks) hf' hi).mono fun _ _ h =>
      ⟨h.2.1, hs.trans h.2.2.1⟩
  · rintro w' n ⟨hf', hs⟩ -
    have hspend : Heap.Remarked w'.heap (w'.heap.spendTrigger n) :=
      .of_alike .refl rfl rfl rfl rfl rfl rfl
    exact ⟨hf'.remark hspend, hs.trans (hspend.fades hf'.kept.sound)⟩
  · rintro w' ⟨hf', hs⟩ hhead
    exact (hcollect w' hs.toShrinks hf' hhead).mono fun _ _ h => ⟨h.1, hs.trans h.2⟩

/-! ## Quiet passes and drains end -/

theorem runFinalizer_returns {r : Handle} {f : Heap.Finalizer} (hcall : call.Silent) :
    Returns (runFinalizer call r f) w := by
  have hrest : ∀ (w' : World σ) (ending : Ending),
      Returns (if ending ≠ .returned then modifyHeap (·.modifyCounters fun c =>
        { c with finalizerErrors := c.finalizerErrors + 1 }) else pure ()) w' := by
    intro w' ending
    split
    · exact returns_modifyHeap
    · exact returns_pure
  unfold runFinalizer
  refine Returns.bind returns_modifyHeap (after_modifyHeap.mpr ?_)
  refine Returns.bind returns_query (after_query.mpr ?_)
  split
  · obtain ⟨ending, s, he⟩ := hcall _ (.ref r) _
    exact Returns.bind ⟨ending, _, he⟩ fun _ w' _ => hrest w' _
  · exact Returns.bind returns_pure fun _ w' _ => hrest w' _

theorem runPending_returns (hq : Quiet s call w.heap) : Returns (runPending call l) w := by
  induction l generalizing w with
  | nil => exact returns_pure
  | cons i l ih =>
    unfold runPending
    refine Returns.bind returns_query (after_query.mpr ?_)
    split
    · exact ih hq
    · rename_i r f hfound
      obtain ⟨hstrict, hcall⟩ : s ∧ call.Silent := by
        refine hq.silent fun hu => ?_
        obtain ⟨c, -, hf⟩ := Option.bind_eq_some_iff.mp hfound
        obtain ⟨f', hf', -⟩ := Option.map_eq_some_iff.mp hf
        rw [hu] at hf'
        cases hf'
      refine Returns.bind returns_modifyHeap (after_modifyHeap.mpr ?_)
      refine Returns.bind (runFinalizer_returns hcall) fun _ w' _ => ?_
      refine Returns.bind returns_modifyHeap (after_modifyHeap.mpr ?_)
      exact Returns.bind (ih (.inl ⟨hstrict, hcall⟩)) fun _ w'' _ => returns_pure

theorem passBody_returns (hq : Quiet s call w.heap) : Returns (passBody call o) w := by
  unfold passBody
  refine Returns.bind returns_change (after_change.mpr ?_)
  refine Returns.bind (runPending_returns (hq.of_shrinks .beginPass)) fun n w' _ => ?_
  dsimp only
  split
  · exact Returns.bind returns_modifyHeap (after_modifyHeap.mpr returns_change)
  · exact returns_change

theorem settleHead_returns (hq : Quiet s call w.heap) : Returns (settleHead call i) w := by
  unfold settleHead
  refine Returns.bind returns_query (after_query.mpr ?_)
  split
  · rename_i f hfin
    obtain ⟨-, hcall⟩ : s ∧ call.Silent := by
      refine hq.silent fun hu => ?_
      rw [Heap.headFinalizer_eq_none hu] at hfin
      cases hfin
    refine Returns.bind returns_query (after_query.mpr ?_)
    refine Returns.bind returns_modifyHeap (after_modifyHeap.mpr ?_)
    refine Returns.bind (runFinalizer_returns hcall) fun _ w' _ => ?_
    exact Returns.bind returns_change (after_change.mpr returns_change)
  · exact returns_change

/-- A quiet drain ends: each turn frees a cell, and each voluntary pass follows a turn. -/
theorem drainLoop_returns (hq : Quiet s call w.heap) (hf : Fading s w.heap X)
    (hcollect : ∀ w', Shrinks w.heap w'.heap → Fading s w'.heap X →
      w'.heap.arena.queue.head = none → Returns collect w' ∧
      After collect w' fun _ w'' => Fading s w''.heap X ∧ Fades w'.heap w''.heap)
    (hfuel : 2 * w.heap.arena.compositeCount + (if n = 0 then 0 else 1) < fuel) :
    Returns (drainLoop call collect fuel n) w := by
  induction fuel generalizing w n with
  | zero => omega
  | succ fuel ih =>
    unfold drainLoop
    refine Returns.bind returns_query (after_query.mpr ?_)
    cases hhead : w.heap.arena.queue.head with
    | some i =>
      dsimp only
      refine Returns.bind (settleHead_returns hq) ((settleHead_quiet hq hf hhead).mono ?_)
      rintro _ w' ⟨rfl, hf', hs, hlt⟩
      refine ih (hq.of_shrinks hs.toShrinks) hf'
        (fun w' hs' => hcollect w' (hs.toShrinks.trans hs')) ?_
      rw [if_neg (Nat.succ_ne_zero n)]
      split at hfuel <;> omega
    | none =>
      dsimp only
      refine Returns.bind returns_query (after_query.mpr ?_)
      split
      · exact returns_pure
      · rename_i hn
        have hpos : n ≠ 0 := by
          rintro rfl
          simp at hn
        refine Returns.bind returns_modifyHeap (after_modifyHeap.mpr ?_)
        refine Returns.bind returns_query (after_query.mpr ?_)
        split
        · have hspend : Shrinks w.heap (w.heap.spendTrigger n) := .of_core rfl rfl rfl rfl
          have hf' : Fading s (w.heap.spendTrigger n) X :=
            hf.remark (.of_alike .refl rfl rfl rfl rfl rfl rfl)
          obtain ⟨hret, hafter⟩ := hcollect ⟨w.heap.spendTrigger n, w.host⟩ hspend hf' hhead
          refine Returns.bind hret (hafter.mono ?_)
          rintro _ w' ⟨hf'', hs⟩
          refine Returns.bind returns_query (after_query.mpr ?_)
          split
          · have hs' := hspend.trans hs.toShrinks
            refine ih (hq.of_shrinks hs') hf'' (fun w' hs'' => hcollect w' (hs'.trans hs'')) ?_
            have hle := hs.compositeCount_le hf'.kept.sound hf''.kept.sound
            have hsame : (w.heap.spendTrigger n).arena.compositeCount =
              w.heap.arena.compositeCount := rfl
            rw [if_neg hpos] at hfuel
            rw [if_pos rfl]
            dsimp only at hle
            omega
          · exact returns_pure
        · exact returns_pure

end CountedHeap
