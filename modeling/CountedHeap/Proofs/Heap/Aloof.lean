import CountedHeap.Proofs.Collection
import CountedHeap.Proofs.Heap.Dwindles

/-!
# Finalized cells are out of use

Outside of drains a pass that starts now would reach the cells in use: those that can be reached from
what is held outside, from roots, from active threads and from the current one. Where no finalized
cell is in use, a pass takes no mark of a finalized cell away, and it sets aside exactly those cells
out of use that have a finalizer which has not run.

* `Heap.InUse`, `Heap.Aloof`: the cells in use, and that finalized cells are not among them.
* `Ages.inUse`, `Dwindles.aloof`: freeing cells puts none to use.
* `Dwindles.toSweep`, `Dwindles.beginPass`: the marks of a pass leave those of finalized cells alone.
* `mem_pendingCells`: the cells whose finalizers a pass runs.
* `settle_eq`: marking anew after finalizers have run rescues no cell that is out of use.
-/

namespace CountedHeap

theorem Arena.Traces.congr {a : Arena} {S S' : Handle → Prop} {r : Handle}
    (h : ∀ q, a.Composite q → (S q ↔ S' q)) : a.Traces S r ↔ a.Traces S' r := by
  have himp : ∀ {S S' : Handle → Prop}, (∀ q, a.Composite q → S q → S' q) →
      a.Traces S r → a.Traces S' r := by
    intro S S' hS ht
    induction ht with
    | start hq hc => exact .start (hS _ hc hq) hc
    | step _ hp hq hc ih => exact .step ih hp hq hc
  exact ⟨himp fun q hc => (h q hc).mp, himp fun q hc => (h q hc).mpr⟩

namespace Heap

open Arena (Traces Composite Marked)

variable {h h' : Heap} {X Y : Multiset Handle} {r : Handle} {n i : ℕ} {b : Body} {l : List ℕ}
  {o : PassOptions} {f : Finalizer}

/-! ## Cells in use -/

/-- A composite cell that a pass would reach. -/
def InUse (h : Heap) (X : Multiset Handle) : Handle → Prop :=
  h.arena.Traces fun q => h.Anchored X q ∨ h.finalizerKey = some q

/-- No finalized cell is in use. -/
def Aloof (h : Heap) (X : Multiset Handle) : Prop :=
  ∀ r, h.arena.Finalized r → ¬ h.InUse X r

theorem InUse.mono (hr : h.InUse X r) (hX : X ≤ Y) : h.InUse Y r :=
  Traces.mono hr fun _ => Or.imp_left (Or.imp_left (Or.imp_left (Multiset.mem_of_le hX)))

/-- What the client reaches is in use. -/
theorem Reached.inUse (hr : h.Reached X r) (hc : h.arena.Composite r) : h.InUse X r := by
  induction hr with
  | start hr => exact .start (.inl (.inl hr)) hc
  | step _ hp hq ih =>
    exact .step (ih ⟨_, _, hp, Body.isComposite_of_mem_refs hq⟩) hp (Body.mem_tracedRefs hq) hc

/-- Freeing cells puts none to use. -/
theorem Ages.inUse (ha : Ages h h') (hr : h'.InUse X r) : h.InUse X r := by
  unfold InUse at hr
  induction hr with
  | @start q hq hc =>
    refine .start ?_ (ha.toShrinks.composite hc)
    rcases hq with ((hheld | hroot) | ⟨n, b, hb, hactive⟩ | hcurrent) | hkey
    · exact .inl (.inl (.inl hheld))
    · exact .inl (.inl (.inr (ha.toShrinks.rootRefs ▸ hroot)))
    · obtain ⟨m, hm⟩ := ha.cells q n b hb
      exact .inl (.inr (.inl ⟨m, b, hm, hactive⟩))
    · exact .inl (.inr (.inr (ha.toShrinks.current_eq hcurrent)))
    · exact .inr (ha.key ▸ hkey)
  | step _ hp hq hc ih =>
    obtain ⟨m, hm⟩ := ha.cells _ _ _ hp
    exact .step ih hm hq (ha.toShrinks.composite hc)

theorem Dwindles.aloof (hd : Dwindles h h') (ha : h.Aloof X) : h'.Aloof X :=
  fun r hr hused => ha r (hd.finalized_iff.mp hr).1 (hd.ages.inUse hused)

/-- Where counts are exact and the queue is empty, a pass starts from what is in use. -/
theorem Balanced.traces_outsideHolds (hb : h.Balanced ∅ X) (hs : h.Sound)
    (hqueue : h.arena.members .queue = []) :
    h.arena.Traces (· ∈ h.outsideHolds) r ↔ h.InUse X r := by
  refine Traces.congr fun q hc => ?_
  obtain ⟨n, b, hq, hcomp⟩ := hc
  have hactive : (∃ n b, h.arena.Holds q n b ∧ b.isActiveThread = true) ↔
      b.isActiveThread = true := by
    refine ⟨?_, fun ha => ⟨n, b, hq, ha⟩⟩
    rintro ⟨m, c, hc, ha⟩
    rwa [(hq.unique hc).2]
  have hidle : (h.arena.linksAt q.index).chain ≠ some .queue := by
    rw [Ne, ← hs.arena.mem_members, hqueue]
    exact List.not_mem_nil
  rw [hb.mem_outsideHolds hq hcomp]
  unfold Anchored Grounded
  rw [hactive]
  tauto

/-- A pass marks what is in use. -/
theorem Balanced.marked_markHeld (hb : h.Balanced ∅ X) (hs : h.Sound)
    (hqueue : h.arena.members .queue = []) (hr : h.arena.Composite r) :
    h.markHeld.arena.Marked r.index ↔ h.InUse X r :=
  (marked_markHeld_iff hr).trans (hb.traces_outsideHolds hs hqueue)

/-! ## Finalizers that are found -/

/-- Freeing cells makes no finalizer turn up. -/
theorem Shrinks.resolveFinalizer (hs : Shrinks h h') (hf : h'.resolveFinalizer r = some f) :
    h.resolveFinalizer r = some f :=
  resolveFinalizer_of_objects (fun _ _ => hs.object) hs.key hf

/-- Which finalizers are found does not depend on marks, lists and counters. -/
theorem resolveFinalizer_of_core (hc : h'.arena.core = h.arena.core)
    (hk : h'.finalizerKey = h.finalizerKey) : h'.resolveFinalizer r = h.resolveFinalizer r := by
  have hobj : ∀ {h h' : Heap}, h'.arena.core = h.arena.core → ∀ r o, h'.object r = .ok o →
      h.object r = .ok o := by
    intro h h' hc r o ho
    obtain ⟨c, hget, hbody⟩ := object_eq_ok.mp ho
    have hr := Arena.holds_of_get? hget
    unfold Arena.Holds at hr
    rw [hc] at hr
    obtain ⟨c', hget', -, hbody'⟩ := Arena.Holds.get? hr
    exact object_eq_ok.mpr ⟨c', hget', hbody' ▸ hbody⟩
  exact Option.ext fun _ =>
    ⟨resolveFinalizer_of_objects (hobj hc) hk, resolveFinalizer_of_objects (hobj hc.symm) hk.symm⟩

/-! ## The marks of a pass -/

theorem ran_markHeld : h.markHeld.arena.ran = h.arena.ran :=
  Arena.ran_mark.trans Arena.ran_clearMarks

theorem ran_clearFinalized (hi : h.arena.ran i = false) :
    (h.clearFinalized i).arena.ran = h.arena.ran := by
  refine (Arena.ran_setFinalized (v := false) fun _ => rfl).trans ?_
  rw [Bool.and_false, ← hi, Function.update_eq_self]

theorem ran_foldl_clearFinalized (hl : ∀ i ∈ l, h.arena.ran i = false) :
    (l.foldl clearFinalized h).arena.ran = h.arena.ran := by
  induction l generalizing h with
  | nil => rfl
  | cons i l ih =>
    have hi := ran_clearFinalized (hl i (by simp))
    exact (ih fun j hj => hi ▸ hl j (by simp [hj])).trans hi

/-- A heap in which no pass or drain is under way, and counts are exact. -/
abbrev Still (h : Heap) (X : Multiset Handle) : Prop :=
  Kept True (OutsidePass []) h X

theorem ran_traced (hk : h.Still X) (ha : h.Aloof X) : h.traced.arena.ran = h.arena.ran := by
  have halike := alike_markHeld (h := { h with sweeping := true })
  refine (ran_foldl_clearFinalized fun i hi => ?_).trans ran_markHeld
  obtain ⟨hmem, hreached⟩ := List.mem_filter.mp hi
  rw [halike.members hk.sound.arena] at hmem
  have hcomp := hk.sound.arena.cell_of_mem hmem
  have hmarked : h.markHeld.arena.Marked i := by
    refine (isReached_iff.mp hreached).resolve_left fun hnone => ?_
    obtain ⟨n, b, hb, -⟩ := hcomp
    obtain ⟨c, hc, -⟩ := (halike.holds.mpr hb).get?
    rw [show ({ h with sweeping := true } : Heap).markHeld.arena.cellAt? i = some c from
      Arena.cellAt?_of_get? hc] at hnone
    cases hnone
  have hused := ((hk.balanced trivial).marked_markHeld hk.sound hk.level.2 hcomp).mp hmarked
  by_contra hran
  rw [show ({ h with sweeping := true } : Heap).markHeld.arena.ran = h.arena.ran from ran_markHeld,
    Bool.not_eq_false] at hran
  exact ha _ ⟨hcomp, hran⟩ hused

theorem ran_toSweep (hk : h.Still X) (ha : h.Aloof X) :
    (h.toSweep o).arena.ran = h.arena.ran := by
  have hflags : ∀ (l : List ℕ) (a : Arena), (l.foldl (fun a i =>
      a.modifyAt i (·.modifyMarks ({ · with finalizable := true }))) a).ran = a.ran := by
    intro l
    induction l with
    | nil => exact fun _ => rfl
    | cons i l ih => exact fun a => (ih _).trans (Arena.ran_modifyAt fun _ => rfl)
  rw [arena_toSweep, Arena.ran_mark]
  exact (hflags _ _).trans (ran_traced hk ha)

/-- Before it sweeps, a pass leaves finalized cells as they are. -/
theorem Dwindles.toSweep (hk : h.Still X) (ha : h.Aloof X) : Dwindles h (h.toSweep o) := by
  have hstart : Dwindles h { h with sweeping := true } := aside rfl rfl rfl rfl
  exact ⟨hstart.toShrinks.trans remarked_toSweep.shrinks, fun r _ => congrFun (ran_toSweep hk ha) _⟩

/-- Up to the point where finalizers run, a pass only frees cells. -/
theorem Dwindles.beginPass (hk : h.Still X) (ha : h.Aloof X) : Dwindles h (h.beginPass o).1 := by
  have hswept : Dwindles h ((h.toSweep o).sweep (h.garbage o)) := (toSweep hk ha).trans sweep
  rw [beginPass_eq]
  dsimp only
  split
  · exact hswept.trans (aside rfl rfl rfl rfl)
  · exact hswept

/-- A pass sets aside the cells out of use that have a finalizer which has not run. -/
theorem mem_pendingCells (hk : h.Still X) (ha : h.Aloof X) : i ∈ h.pendingCells o ↔
    o.skipFinalizers = false ∧ i ∈ h.arena.members .allocated ∧ ¬ h.InUse X (h.arena.handleAt i) ∧
      h.arena.ran i = false ∧ h.hasFinalizer (h.arena.handleAt i) = true := by
  unfold pendingCells
  split
  · rename_i hskip
    simp [hskip]
  · rename_i hskip
    have hmem : ({ h with sweeping := true } : Heap).markHeld.arena.members .allocated =
        h.arena.members .allocated :=
      congrFun ((alike_markHeld (h := { h with sweeping := true })).members hk.sound.arena) _
    unfold findFinalizable
    rw [List.mem_filter, hmem]
    simp only [Bool.not_eq_true] at hskip
    simp only [hskip, true_and]
    refine and_congr_right fun hi => ?_
    have hcomp := hk.sound.arena.cell_of_mem hi
    have halike : Arena.Alike h.arena h.traced.arena := remarked_traced.arena
    have hran : h.traced.arena.ran i = h.arena.ran i := congrFun (ran_traced hk ha) i
    have hused : h.traced.arena.Marked i ↔ h.InUse X (h.arena.handleAt i) :=
      (resembles_traced.marked i).trans
        ((hk.balanced trivial).marked_markHeld hk.sound hk.level.2 hcomp)
    have hfinalizer : h.traced.hasFinalizer (h.arena.handleAt i) =
        h.hasFinalizer (h.arena.handleAt i) :=
      congrArg Option.isSome (resolveFinalizer_of_core halike.core remarked_traced.key)
    obtain ⟨n, b, hb, -⟩ := hcomp
    obtain ⟨c, hc, -⟩ := (halike.holds.mpr hb).get?
    have hcell : h.traced.arena.cellAt? i = some c := Arena.cellAt?_of_get? hc
    rw [← hused, ← hran, ← hfinalizer, halike.handleAt]
    unfold Arena.Marked Arena.ran
    simp [hcell, Bool.not_eq_true, and_assoc]

/-! ## After finalizers have run -/

/-- Marking anew rescues no cell that is out of reach. -/
theorem settle_eq (hl : ∀ i ∈ l, ¬ h.markHeld.arena.Marked i) : h.settle l = h.markHeld := by
  unfold settle
  generalize h.markHeld = h at hl ⊢
  induction l with
  | nil => rfl
  | cons i l ih =>
    have hsame : h.settleRescued i = h := by
      have hnot := hl i (by simp)
      unfold settleRescued
      unfold Arena.Marked at hnot
      cases hc : h.arena.cellAt? i with
      | none => rfl
      | some c =>
        dsimp only
        rw [if_neg]
        simp only [hc] at hnot
        simpa using fun _ => hnot
    rw [List.foldl_cons, hsame]
    exact ih fun j hj => hl j (by simp [hj])

end Heap

end CountedHeap
