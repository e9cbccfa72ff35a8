import CountedHeap.Proofs.Reclaim.Sweep

/-!
# The first half of a tracing pass

Before anything is swept a pass only marks. What it marks is closed under the references that it
follows and contains everything that is held from outside, so where counts are exact nothing that
stays refers to garbage.

* `Heap.toSweep`, `Heap.garbage`: the marked heap, and what a pass sweeps.
* `marked_toSweep_iff`: what is marked then.
* `unheld_garbage`: nothing that stays refers to garbage.
* `Kept.beginPass`: the first half of a pass keeps a heap sound and its counts exact.
-/

namespace CountedHeap

/-! ## Marks that are not those of reached cells -/

namespace Arena

variable {a a' a'' : Arena} {r : Handle} {i j : ℕ}

/-- Two arenas with the same cells, lists and reached cells. -/
structure Resembles (a a' : Arena) : Prop extends Alike a a' where
  marked : ∀ i, a'.Marked i ↔ a.Marked i

theorem Resembles.refl : Resembles a a :=
  ⟨.refl, fun _ => Iff.rfl⟩

theorem Resembles.trans (h₁ : Resembles a a') (h₂ : Resembles a' a'') : Resembles a a'' :=
  ⟨h₁.toAlike.trans h₂.toAlike, fun i => (h₂.marked i).trans (h₁.marked i)⟩

theorem resembles_modifyMarks {f : Marks → Marks} (hf : ∀ m, (f m).reachable = m.reachable) :
    Resembles a (a.modifyAt i (·.modifyMarks f)) := by
  refine ⟨alike_modifyMarks f, fun j => ?_⟩
  unfold Marked
  rw [cellAt?_modifyAt]
  split
  · cases a.cellAt? j <;> simp [Cell.modifyMarks, hf]
  · rfl

theorem resembles_foldl {f : Marks → Marks} (hf : ∀ m, (f m).reachable = m.reachable)
    (l : List ℕ) : Resembles a (l.foldl (fun a i => a.modifyAt i (·.modifyMarks f)) a) := by
  induction l generalizing a with
  | nil => exact .refl
  | cons i l ih => exact (resembles_modifyMarks hf).trans ih

theorem Resembles.closed (h : Resembles a a') (hc : a.Closed []) : a'.Closed [] := by
  intro p n b hp hm q hq hcomp
  exact (hc p n b (h.holds.mp hp) ((h.marked _).mp hm) q hq (h.composite.mp hcomp)).imp_left
    (h.marked _).mpr

end Arena

/-- A pass follows every reference that a cell owns. -/
theorem Body.mem_tracedRefs {b : Body} {r : Handle} (hr : r ∈ b.refs) : r ∈ b.tracedRefs := by
  cases b with
  | thread t => exact List.mem_append.mpr (.inl hr)
  | string _ => exact hr
  | object _ => exact hr
  | buffer _ => exact hr

namespace Heap

open Arena (Alike Marked Resembles Traces Composite)

variable {h h' h'' : Heap} {X : Multiset Handle} {G K l q : List ℕ} {r : Handle} {n i j : ℕ}
  {b : Body} {o : PassOptions}

/-- Two heaps that differ in marks and counters at most. -/
structure Remarked (h h' : Heap) : Prop where
  arena : Alike h.arena h'.arena
  roots : h'.roots = h.roots
  freeRoots : h'.freeRoots = h.freeRoots
  key : h'.finalizerKey = h.finalizerKey
  sweeping : h'.sweeping = h.sweeping
  strings : h'.strings = h.strings
  recalls : h.Recalls → h'.Recalls
  current : h'.current = h.current

theorem Remarked.refl : Remarked h h :=
  ⟨.refl, rfl, rfl, rfl, rfl, rfl, id, rfl⟩

/-- Only the arena has changed. -/
theorem Remarked.of_alike (ha : Alike h.arena h'.arena) (hr : h'.roots = h.roots)
    (hf : h'.freeRoots = h.freeRoots) (hkey : h'.finalizerKey = h.finalizerKey)
    (hs : h'.sweeping = h.sweeping) (htables : h'.tables = h.tables)
    (hcurrent : h'.current = h.current) : Remarked h h' :=
  ⟨ha, hr, hf, hkey, hs, congrArg Prod.fst htables, fun hc =>
    hc.congr (congrArg (·.2.1) htables) (congrArg (·.2.2) htables) (Arena.texts_of_core ha.core),
    hcurrent⟩

theorem Remarked.trans (h₁ : Remarked h h') (h₂ : Remarked h' h'') : Remarked h h'' :=
  ⟨h₁.arena.trans h₂.arena, h₂.roots.trans h₁.roots, h₂.freeRoots.trans h₁.freeRoots,
    h₂.key.trans h₁.key, h₂.sweeping.trans h₁.sweeping, h₂.strings.trans h₁.strings,
    fun hc => h₂.recalls (h₁.recalls hc), h₂.current.trans h₁.current⟩

theorem Remarked.foldl {f : Heap → ℕ → Heap} (hf : ∀ h i, Remarked h (f h i)) (l : List ℕ) :
    Remarked h (l.foldl f h) := by
  induction l generalizing h with
  | nil => exact .refl
  | cons i l ih => exact (hf h i).trans ih

theorem Remarked.shrinks (hr : Remarked h h') : Shrinks h h' :=
  .of_core hr.arena.core hr.roots hr.key hr.current

theorem Kept.remark {s : Prop} {P : Heap → Prop} (hP : Yielding P) (hk : Kept s P h X)
    (hr : Remarked h h') : Kept s P h' X := by
  refine hk.sameCells hr.arena.core hr.arena.links hr.arena.ends hr.arena.free hr.roots hr.freeRoots
    hr.key fun hmem => hP h h' ?_ hk.level
  exact .of_lasts hr.sweeping hr.key (by rw [hmem]) (by rw [hr.arena.links]; exact fun _ hi => hi)
    (.of_core hr.arena.core) (fun hi => hi.congr hr.strings (Arena.texts_of_core hr.arena.core))
    hr.recalls

theorem remarked_markHeld : Remarked h h.markHeld :=
  .of_alike alike_markHeld rfl rfl rfl rfl rfl rfl

theorem remarked_clearFinalized : Remarked h (h.clearFinalized i) :=
  .of_alike (Arena.alike_modifyMarks _) rfl rfl rfl rfl rfl rfl

/-! ## What a pass sweeps -/

/-- The heap in which a pass looks for finalizers: everything held from outside is marked, and what
is reached may be finalized again. -/
def traced (h : Heap) : Heap :=
  let h := { h with sweeping := true }.markHeld
  ((h.arena.members .allocated).filter h.isReached).foldl clearFinalized h

/-- The cells whose finalizers a pass runs. -/
def pendingCells (h : Heap) (o : PassOptions) : List ℕ :=
  if o.skipFinalizers then [] else
    h.traced.findFinalizable ({ h with sweeping := true }.markHeld.arena.members .allocated)

/-- The heap before it is swept. -/
def toSweep (h : Heap) (o : PassOptions) : Heap :=
  h.traced.markFinalizable (h.pendingCells o)

/-- The cells that a pass sweeps. -/
def garbage (h : Heap) (o : PassOptions) : List ℕ :=
  ({ h with sweeping := true }.markHeld.arena.members .allocated).filter
    fun i => !(h.toSweep o).isReached i

theorem beginPass_eq : h.beginPass o =
    (if o.emergency then ((h.toSweep o).sweep (h.garbage o)).compact
      else (h.toSweep o).sweep (h.garbage o),
      ⟨h.pendingCells o, h.arena.compositeCount, h.arena.usedBytes⟩) :=
  rfl

/-! ## What is marked -/

theorem remarked_traced : Remarked { h with sweeping := true } h.traced :=
  remarked_markHeld.trans (Remarked.foldl (fun _ _ => remarked_clearFinalized) _)

theorem resembles_traced : Resembles h.markHeld.arena h.traced.arena := by
  have hfold : ∀ (l : List ℕ) (h : Heap),
      (l.foldl clearFinalized h).arena = l.foldl (fun a i =>
        a.modifyAt i (·.modifyMarks ({ · with finalized := false }))) h.arena := by
    intro l
    induction l with
    | nil => exact fun _ => rfl
    | cons i l ih => exact fun h => ih (h.clearFinalized i)
  unfold traced
  dsimp only
  rw [hfold]
  refine Arena.resembles_foldl ?_ _
  exact fun _ => rfl

/-- The arena in which marking starts from the cells with pending finalizers. -/
def flagged (h : Heap) (o : PassOptions) : Arena :=
  (h.pendingCells o).foldl
    (fun a i => a.modifyAt i (·.modifyMarks ({ · with finalizable := true }))) h.traced.arena

theorem arena_toSweep : (h.toSweep o).arena =
    ((h.flagged o).mark ((h.pendingCells o).map h.traced.arena.handleAt) 0).1 :=
  rfl

theorem resembles_flagged : Resembles h.markHeld.arena (h.flagged o) := by
  refine resembles_traced.trans (Arena.resembles_foldl ?_ _)
  exact fun _ => rfl

theorem alike_toSweep : Alike h.arena (h.toSweep o).arena :=
  (alike_markHeld.trans resembles_flagged.toAlike).trans Arena.alike_mark

theorem remarked_toSweep : Remarked { h with sweeping := true } (h.toSweep o) :=
  ⟨alike_toSweep, remarked_traced.roots, remarked_traced.freeRoots, remarked_traced.key,
    remarked_traced.sweeping, remarked_traced.strings, fun hc => (remarked_traced.recalls hc).congr rfl
      rfl (Arena.texts_of_core (alike_toSweep.core.trans remarked_traced.arena.core.symm)),
    remarked_traced.current⟩

theorem closed_flagged : (h.flagged o).Closed [] :=
  resembles_flagged.closed closed_markHeld

/-- What is marked is closed under traced references. -/
theorem closed_toSweep : (h.toSweep o).arena.Closed [] := by
  rw [arena_toSweep]
  exact Arena.closed_mark (closed_flagged.mono (by simp))

/-- A pass spares what it reaches from outside and from the cells whose finalizers it runs. -/
theorem marked_toSweep_iff (hr : h.arena.Composite r) : (h.toSweep o).arena.Marked r.index ↔
    h.arena.Traces (fun q => q ∈ h.outsideHolds ∨ q.index ∈ h.pendingCells o) r := by
  have halike : Alike h.arena (h.flagged o) := alike_markHeld.trans resembles_flagged.toAlike
  have hheld : ∀ q, h.arena.Composite q → ((h.flagged o).Marked q.index ↔
      h.arena.Traces (· ∈ h.outsideHolds) q) := by
    intro q hq
    exact (resembles_flagged.marked _).trans (marked_markHeld_iff hq)
  have hpending : ∀ q, h.arena.Composite q →
      (q ∈ (h.pendingCells o).map h.traced.arena.handleAt ↔ q.index ∈ h.pendingCells o) := by
    rintro q ⟨n, b, hq, -⟩
    have hat : h.traced.arena.handleAt = h.arena.handleAt := remarked_traced.arena.handleAt
    simp only [List.mem_map, hat]
    constructor
    · rintro ⟨i, hi, rfl⟩
      exact hi
    · intro hi
      exact ⟨q.index, hi, hq.handleAt⟩
  rw [arena_toSweep, Arena.marked_mark_iff closed_flagged (halike.composite.mpr hr), hheld r hr]
  constructor
  · rintro (ht | ht)
    · exact ht.mono fun _ => .inl
    · replace ht := halike.traces ht
      induction ht with
      | start hq hc => exact .start (.inr ((hpending _ hc).mp hq)) hc
      | step hp' hp hq hc ih => exact .step (ih hp'.composite) hp hq hc
  · intro ht
    induction ht with
    | @start q hq hc =>
      rcases hq with hq | hq
      · exact .inl (.start hq hc)
      · exact .inr (.start ((hpending q hc).mpr hq) (halike.composite.mpr hc))
    | step hp' hp hq hc ih =>
      rcases ih hp'.composite with ht | ht
      · exact .inl (.step ht hp hq hc)
      · exact .inr (.step ht (halike.holds.mpr hp) hq (halike.composite.mpr hc))

/-! ## Garbage -/

theorem isReached_iff : h.isReached i = true ↔ h.arena.cellAt? i = none ∨ h.arena.Marked i := by
  unfold isReached Arena.Marked
  cases h.arena.cellAt? i <;> simp

/-- Garbage are the allocated cells that are not marked. -/
theorem mem_garbage (hs : h.Sound) : i ∈ h.garbage o ↔
    i ∈ h.arena.members .allocated ∧ ¬ (h.toSweep o).arena.Marked i := by
  have hmem : ({ h with sweeping := true } : Heap).markHeld.arena.members .allocated =
      h.arena.members .allocated :=
    congrFun ((alike_markHeld (h := h)).members hs.arena) _
  unfold garbage
  rw [List.mem_filter, hmem]
  refine and_congr_right fun hi => ?_
  obtain ⟨n, b, hb, -⟩ := hs.arena.cell_of_mem hi
  have halike : Alike h.arena (h.toSweep o).arena := alike_toSweep
  obtain ⟨c, hc, -⟩ := (halike.holds.mpr hb).get?
  have hcell := Arena.cellAt?_of_get? hc
  rw [show (h.arena.handleAt i).index = i from rfl] at hcell
  simp [← Bool.not_eq_true, isReached_iff, hcell]

theorem nodup_garbage (hs : h.Sound) : (h.garbage o).Nodup := by
  have hnd := (hs.arena.threaded .allocated).nodup
  rw [← alike_markHeld.members hs.arena] at hnd
  exact hnd.filter _

/-- A cell whose finalizer is to run is not garbage. -/
theorem marked_of_pending (hs : h.Sound) (hi : i ∈ h.pendingCells o) :
    i ∈ h.arena.members .allocated ∧ (h.toSweep o).arena.Marked i := by
  have hmem : i ∈ h.arena.members .allocated := by
    unfold pendingCells findFinalizable at hi
    split at hi
    · cases hi
    · rw [← alike_markHeld.members hs.arena]
      exact List.mem_of_mem_filter hi
  obtain ⟨n, b, hb, hc⟩ := hs.arena.cell_of_mem hmem
  have hcomp : h.arena.Composite (h.arena.handleAt i) := ⟨n, b, hb, hc⟩
  exact ⟨hmem, (marked_toSweep_iff hcomp).mpr (.start (.inr hi) hcomp)⟩

/-- A composite cell that stays is marked: it has been reached, or it is queued and so held from outside. -/
theorem marked_of_not_garbage (hs : h.Sound) (hb : h.Balanced ∅ X) (hr : h.arena.Holds r n b)
    (hcomp : b.isComposite = true) (hG : r.index ∉ h.garbage o) :
    (h.toSweep o).arena.Marked r.index := by
  obtain ⟨ch, hch⟩ := hs.arena.mem_of_cell hr hcomp
  cases ch with
  | allocated =>
    by_contra hn
    exact hG ((mem_garbage hs).mpr ⟨hch, hn⟩)
  | queue =>
    have hc : h.arena.Composite r := ⟨n, b, hr, hcomp⟩
    have hqueued := hs.arena.mem_members.mp hch
    have hheld : r ∈ h.outsideHolds :=
      (hb.mem_outsideHolds hr hcomp).mpr (.inr (.inr (.inr (.inr (.inl hqueued)))))
    exact (marked_toSweep_iff hc).mpr (.start (.inl hheld) hc)

/-- Where counts are exact, nothing that stays refers to garbage. -/
theorem unheld_garbage (hs : h.Sound) (hb : h.Balanced ∅ X) :
    (h.toSweep o).Unheld (h.garbage o) X := by
  intro r hr hG
  have hr : r ∈ h.stored (h.garbage o).toFinset + X := by
    rw [Multiset.mem_add] at hr ⊢
    exact hr.imp_left remarked_toSweep.shrinks.mem_stored
  have hcomposite : h.arena.Composite r := by
    obtain ⟨n, b, hcell, hc⟩ := hs.arena.cell_of_mem ((mem_garbage hs).mp hG).1
    have hlive : h.arena.isLive r = true :=
      hb.live (Multiset.mem_add.mpr ((Multiset.mem_add.mp hr).imp_left mem_stored_of_mem))
    obtain ⟨m, b', hb'⟩ := Arena.isLive_iff.mp hlive
    rw [← hb'.eq_of_index hcell rfl] at hcell
    exact ⟨n, b, hcell, hc⟩
  have hunmarked := ((mem_garbage hs).mp hG).2
  obtain ⟨n, b, hcell, hc⟩ := id hcomposite
  have hheld : r ∉ h.outsideHolds := fun hm =>
    hunmarked ((marked_toSweep_iff hcomposite).mpr (.start (.inl hm) hcomposite))
  have hroots := mt (hb.mem_outsideHolds hcell hc).mpr hheld
  simp only [not_or] at hroots
  unfold stored at hr
  simp only [Multiset.mem_add, Multiset.mem_coe, Option.mem_toList] at hr
  rcases hr with ((hr | hr) | hr) | hr
  · -- A cell that stays and refers to garbage is marked, and so the garbage would be.
    obtain ⟨j, hj, hrj⟩ := Arena.mem_owned.mp hr
    rw [List.mem_toFinset] at hj
    obtain ⟨m, b', hp, hrb⟩ := Arena.exists_holds_of_mem_refsAt hrj
    have hmark := marked_of_not_garbage hs hb hp (Body.isComposite_of_mem_refs hrb) hj
    have halike : Alike h.arena (h.toSweep o).arena := alike_toSweep
    exact hunmarked ((closed_toSweep _ _ _ (halike.holds.mpr hp) hmark r
      (Body.mem_tracedRefs hrb) (halike.composite.mpr hcomposite)).resolve_right (by simp))
  · exact hroots.2.1 hr
  · exact hroots.2.2.1 hr
  · exact hroots.1 hr

/-! ## The first half of a pass -/

/-- A pass is under way: the queue stays what it was, and some cells stay on a list. -/
def WithinPass (queue pending : List ℕ) (h : Heap) : Prop :=
  h.sweeping = true ∧ h.arena.members .queue = queue ∧
    ∀ i ∈ pending, (h.arena.linksAt i).chain ≠ none

theorem yielding_withinPass (queue pending : List ℕ) : Yielding (WithinPass queue pending) := by
  rintro h h' hl ⟨hsweep, hqueue, hlinked⟩
  exact ⟨hl.sweeping.trans hsweep, (hl.still hsweep).trans hqueue,
    fun i hi => hl.linked i (hlinked i hi)⟩

theorem remarked_compact : Remarked h h.compact :=
  ⟨.refl, rfl, rfl, rfl, rfl, rfl, fun hc => hc.flush rfl rfl, rfl⟩

theorem Shrinks.beginPass : Shrinks h (h.beginPass o).1 := by
  have hstart : Shrinks h { h with sweeping := true } := .of_core rfl rfl rfl rfl
  have hswept : Shrinks h ((h.toSweep o).sweep (h.garbage o)) :=
    (hstart.trans remarked_toSweep.shrinks).trans Shrinks.sweep
  rw [beginPass_eq]
  dsimp only
  split
  · exact hswept.trans remarked_compact.shrinks
  · exact hswept

theorem Kept.toSweep {s : Prop} {P : Heap → Prop} (hk : Kept s P h X) :
    Kept s (fun _ => True) (h.toSweep o) X := by
  have hstart : Kept s (fun _ => True) { h with sweeping := true } X :=
    ⟨⟨hk.sound.arena, hk.sound.freeRoots, hk.sound.rootsFree⟩, trivial,
      fun hs => (hk.balanced hs).of_core rfl rfl rfl⟩
  exact hstart.remark (fun _ _ _ _ => trivial) remarked_toSweep

theorem sweeping_toSweep : (h.toSweep o).sweeping = true :=
  remarked_toSweep.sweeping

theorem members_toSweep (hs : h.Sound) : (h.toSweep o).arena.members = h.arena.members :=
  alike_toSweep.members hs.arena

theorem allocated_of_garbage (hs : h.Sound) (hi : i ∈ h.garbage o) :
    i ∈ (h.toSweep o).arena.members .allocated := by
  rw [members_toSweep hs]
  exact ((mem_garbage hs).mp hi).1

/-- What a pass frees at first is garbage. -/
theorem Kept.beginPass {s : Prop} {P : Heap → Prop} (hk : Kept s P h X) :
    Kept s (WithinPass (h.arena.members .queue) (h.beginPass o).2.pending) (h.beginPass o).1 X := by
  have hmarked : Kept s (fun _ => True) (h.toSweep o) X := hk.toSweep
  have hmembers := members_toSweep (o := o) hk.sound
  obtain ⟨hsound, hqueue, halloc⟩ := hmarked.sound.sweep sweeping_toSweep (nodup_garbage hk.sound)
    fun _ => allocated_of_garbage hk.sound
  have hswept : Kept s (WithinPass (h.arena.members .queue) (h.pendingCells o))
      ((h.toSweep o).sweep (h.garbage o)) X := by
    refine ⟨hsound, ⟨?_, ?_, fun i hi => ?_⟩, fun hs => ?_⟩
    · exact (sweeping_sweep hmarked.sound).trans sweeping_toSweep
    · rw [hqueue, hmembers]
    · obtain ⟨hmem, hmark⟩ := marked_of_pending hk.sound hi
      have hi' : i ∈ ((h.toSweep o).sweep (h.garbage o)).arena.members .allocated := by
        rw [halloc, hmembers]
        exact ⟨hmem, fun hi => ((mem_garbage hk.sound).mp hi).2 hmark⟩
      rw [hsound.arena.mem_members.mp hi']
      simp
    · exact (hmarked.balanced hs).sweep hmarked.sound sweeping_toSweep (nodup_garbage hk.sound)
        (fun _ => allocated_of_garbage hk.sound) (unheld_garbage hk.sound (hk.balanced hs))
  rw [beginPass_eq]
  dsimp only
  split
  · exact hswept.remark (yielding_withinPass _ _) remarked_compact
  · exact hswept

end Heap

end CountedHeap
