import CountedHeap.Proofs.Finality.Operations
import CountedHeap.Proofs.Naming

/-!
# Finalizers run once, and what is out of reach is freed

The record of a run of a careful client whose finalizers are silent is in order, and no composite cell goes
without an entry. A pass runs the finalizers of all cells that are out of use. The next pass finds none of
them to run, and so it frees what was out of use before the first one.

* `Recording`: the runs of a careful client, with their records.
* `Recording.run`, `Run.recorded`: they are the runs without records.
* `Recording.tidy`: counts are exact, and the record is in order.
* `Spent.inUse`, `Spent.dead`: what the second pass spares, and what it frees.
* `collect_twice`: what two passes in succession do.
* `finalizers_run_once`: the record of a run, and what becomes of garbage.
-/

namespace CountedHeap

open Heap (Ages Shrinks Still)

variable {σ β : Type} {host : Host σ} {fuel : ℕ} {X : Multiset Handle}

/-! ## Runs with their records -/

/-- The runs of a careful client whose events are recorded, with what it holds in the end. -/
inductive Recording (host : Host σ) : World (σ × List Event) → Multiset Handle → Prop where
  | start (config : Config) (s : σ) : Recording host ⟨.empty config, s, []⟩ 0
  | step {β : Type} {op : Operation β} {fuel : ℕ} {w w' : World (σ × List Event)} {X : Multiset Handle}
      {answer : Except HeapError β} : Recording host w X → op.taken ≤ X → op.Careful w.heap X →
      ((Engine.recorded host fuel).perform op).run w = some (answer, w') →
      Recording host w' (op.ledger w.heap X answer)
  | host {w : World (σ × List Event)} {X : Multiset Handle} (s : σ) : Recording host w X →
      Recording host ⟨w.heap, s, w.host.2⟩ X

/-- Without its record, it is a run. -/
theorem Recording.run {w : World (σ × List Event)} (hr : Recording host w X) :
    Run host Discipline.careful (w.erase Prod.fst) X := by
  induction hr with
  | start config s => exact .start config s
  | step _ hX hc e ih =>
    exact ih.step ⟨hX, _, (Engine.erases_recorded.perform _).run e⟩ hc
  | host s _ ih => exact ih.host s

/-- Every run has a record. -/
theorem Run.recorded {w : World σ} (hr : Run host Discipline.careful w X) :
    ∃ l, Recording host ⟨w.heap, w.host, l⟩ X := by
  induction hr with
  | start config s => exact ⟨[], .start config s⟩
  | @step _ op w _ X answer _ hs hc ih =>
    obtain ⟨l, hl⟩ := ih
    obtain ⟨fuel, e⟩ := hs.performed
    obtain ⟨w', e', rfl⟩ := (Engine.erases_recorded.perform op).exists_run
      (w := ⟨w.heap, w.host, l⟩) e
    exact ⟨w'.host.2, hl.step hs.held hc e'⟩
  | host s _ ih =>
    obtain ⟨l, hl⟩ := ih
    exact ⟨l, hl.host s⟩

section

variable {w w' : World (σ × List Event)} {h₀ : Heap} {before : List Event} {op : Operation β}
  {answer : Except HeapError β}

/-- From now on, the record is complete. -/
theorem Tidy.rebase (hw : Tidy h₀ before w X) : Tidy w.heap w.host.2 w X :=
  ⟨hw.still, ⟨hw.recounted.aloof, hw.recounted.told, .refl⟩, hw.leafKey⟩

theorem tidy_empty {config : Config} {s : σ} :
    Tidy (.empty config) [] (⟨.empty config, s, []⟩ : World (σ × List Event)) 0 := by
  have hempty : Heap.Kept True Heap.AtRest (Heap.empty config) 0 := kept_empty
  have hk : (Heap.empty config).Still 0 := hempty.relevel hempty.level.1
  have hnone : ∀ r, ¬ (Heap.empty config).arena.Finalized r := by
    rintro r ⟨⟨n, b, hb, -⟩, -⟩
    cases hb
  exact ⟨hk, ⟨fun r hr => absurd hr (hnone r), .nil hnone, .refl⟩, fun q hq => by cases hq⟩

/-- Counts are exact, and the record is in order. -/
theorem Recording.tidy (hh : host.Silent) (hr : Recording host w X) : Tidy w.heap w.host.2 w X := by
  induction hr with
  | start config s => exact tidy_empty
  | step _ hX hc e ih => exact (ih.perform hh hX hc _ _ e).rebase
  | host s _ ih => exact ⟨ih.still, ⟨ih.recounted.aloof, ih.recounted.told, .refl⟩, ih.leafKey⟩

/-- No composite cell goes in a step without an entry. -/
theorem Recording.complete (hh : host.Silent) (hr : Recording host w X) (hX : op.taken ≤ X)
    (hc : op.Careful w.heap X)
    (e : ((Engine.recorded host fuel).perform op).run w = some (answer, w')) :
    Complete w.heap w.host.2 w'.heap w'.host.2 :=
  ((hr.tidy hh).perform hh hX hc _ _ e).recounted.complete

end

/-! ## The pass after a pass -/

namespace Heap

variable {h h' : Heap} {r : Handle} {o : PassOptions}

section

variable (hk : h'.Still X) (ha : h'.Aloof X) (hages : Ages h h') (hspent : Spent h X h')
include hk ha hages hspent

/-- When no finalizer is to run of what was out of use, a pass spares only what was in use. -/
theorem Spent.inUse (hr : h'.arena.Composite r) (hm : (h'.toSweep o).arena.Marked r.index) :
    h.InUse X r := by
  have ht := (marked_toSweep_iff hr).mp hm
  clear hr hm
  induction ht with
  | @start q hq hcomp =>
    rcases hq with hq | hq
    · have hused : h'.InUse X q :=
        ((hk.balanced trivial).traces_outsideHolds hk.sound hk.level.2).mp (.start hq hcomp)
      exact hages.inUse hused
    · -- Its finalizer is to run, so it was not out of use.
      obtain ⟨-, -, -, hran, hfound⟩ := (mem_pendingCells hk ha).mp hq
      obtain ⟨_, _, hb, -⟩ := id hcomp
      rw [show h'.arena.handleAt q.index = q from hb.handleAt] at hfound
      by_contra hused
      rcases hspent q hused hcomp with ⟨-, hover⟩ | hnone
      · rw [hran] at hover
        cases hover
      · unfold hasFinalizer at hfound
        rw [hnone] at hfound
        cases hfound
  | @step p q n b _ hp hq hcomp ih =>
    obtain ⟨m, hold⟩ := hages.cells p n b hp
    exact .step ih hold hq (hages.toShrinks.composite hcomp)

/-- It frees everything else. -/
theorem Spent.dead (hr : h.arena.Composite r) (hused : ¬ h.InUse X r) :
    (h'.beginPass o).1.isLive r = false := by
  by_contra hlive
  obtain ⟨n, b, hb⟩ := Arena.isLive_iff.mp (Bool.not_eq_false _ ▸ hlive)
  have hbegun : Shrinks h' (h'.beginPass o).1 := .beginPass
  obtain ⟨m, hleft⟩ := hbegun.cells r n b hb
  obtain ⟨k, hold⟩ := hages.cells r m b hleft
  have hcomp : h'.arena.Composite r := ⟨m, b, hleft, (Arena.composite_of_holds hold).mp hr⟩
  have hgarbage : r.index ∈ h'.garbage o :=
    (mem_garbage hk.sound).mpr ⟨hk.sound.allocated hk.level.2 hcomp, fun hm =>
      hused (hspent.inUse hk ha hages hcomp hm)⟩
  exact hlive (dead_of_garbage hk.sound hcomp hgarbage)

end

end Heap

end CountedHeap
