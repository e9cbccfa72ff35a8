import CountedHeap.Proofs.Heap.Posts
import CountedHeap.Proofs.Keep.Top

/-!
# Heaps without finalizers

Where no finalizer is found, whatever an operation gives back only frees cells, at the top as well: the
drain that begins ends again.

* `Heap.Wanes`: cells have been freed, and a drain may have begun or ended.
* `passBody_wanes`, `drain_wanes`, `releaseAll_wanes`: passes, drains and counts that are given back.
* `Heap.Attends`: what becomes of the current thread.
-/

namespace CountedHeap

open Heap (Shrinks Withers)

namespace Heap

variable {h h' h'' : Heap} {t : Handle} {p : ThreadState × Option Handle}

/-- Some cells are gone, and the current thread is forgotten if it is. A drain may have begun or ended. -/
def Wanes (h h' : Heap) : Prop :=
  Withers { h with draining := false } { h' with draining := false }

theorem Withers.wanes (hw : Withers h h') : Wanes h h' :=
  ⟨⟨hw.cells, hw.roots, hw.key, hw.current⟩, hw.free, hw.books, rfl, hw.config, hw.spared⟩

namespace Wanes

theorem refl : Wanes h h :=
  Withers.refl

theorem trans (h₁ : Wanes h h') (h₂ : Wanes h' h'') : Wanes h h'' :=
  Withers.trans h₁ h₂

theorem flag {b : Bool} : Wanes h { h with draining := b } :=
  Withers.refl

/-- Whether a drain is under way apart, the heap has withered. -/
theorem withers (hw : Wanes h h') : Withers { h with draining := false } { h' with draining := false } :=
  hw

theorem shrinks (hw : Wanes h h') : Shrinks h h' :=
  ⟨hw.withers.cells, hw.withers.roots, hw.withers.key, hw.withers.current⟩

theorem key (hw : Wanes h h') : h'.finalizerKey = h.finalizerKey :=
  hw.withers.key

theorem unfinalized (hw : Wanes h h') (hu : h.Unfinalized) : h'.Unfinalized :=
  hw.shrinks.unfinalized hu

theorem post (hw : Wanes h h') (hp : h'.post t = some p) : h.post t = some p :=
  hw.withers.post hp

theorem post_of_composite (hw : Wanes h h') (ht : h'.arena.Composite t) : h'.post t = h.post t :=
  hw.withers.post_of_composite ht

end Wanes

/-- The current thread stays, unless it has gone. Then there is none. -/
structure Attends (h h' : Heap) : Prop where
  dead : ∀ c, h.isLive c = false → h'.isLive c = false
  idle : h.current = none → h'.current = none
  busy : ∀ c, h.current = some c → h.arena.Composite c →
    (h'.current = some c ∧ h'.arena.Composite c) ∨ (h'.current = none ∧ h'.isLive c = false)

theorem Attends.trans (h₁ : Attends h h') (h₂ : Attends h' h'') : Attends h h'' := by
  refine ⟨fun c hc => h₂.dead c (h₁.dead c hc), fun hn => h₂.idle (h₁.idle hn), fun c hc hcell => ?_⟩
  rcases h₁.busy c hc hcell with ⟨hc', hcell'⟩ | ⟨hnone, hdead⟩
  · exact h₂.busy c hc' hcell'
  · exact .inr ⟨h₂.idle hnone, h₂.dead c hdead⟩

/-- Afterwards the current thread is the one that was, if it is still there, and none otherwise. -/
theorem Attends.current_eq {c : Handle} (ha : Attends h h') (hc : h.current = some c)
    (hcell : h.arena.Composite c) : h'.current = (some c).filter (h'.isLive ·) := by
  rcases ha.busy c hc hcell with ⟨hc', hcell'⟩ | ⟨hnone, hdead⟩
  · rw [hc', Option.filter_some, if_pos (show h'.isLive c = true from hcell'.isLive)]
  · rw [hnone, Option.filter_some, if_neg (by simp [hdead])]

theorem Wanes.attends (hw : Wanes h h') : Attends h h' := by
  refine ⟨fun c => hw.shrinks.dead, fun hn => ?_, fun c hc hcell => ?_⟩
  · rcases hw.shrinks.current with hsame | ⟨hnone, -⟩
    · exact hsame.trans hn
    · exact hnone
  · rcases hw.shrinks.current with hsame | ⟨hnone, hdead⟩
    · have hc' : h'.current = some c := hsame.trans hc
      exact .inl ⟨hc', hw.withers.spared c hc' hcell⟩
    · exact .inr ⟨hnone, hdead c hc⟩

end Heap

open Heap (Wanes)

variable {σ : Type} {host : Host σ} {call : Caller σ} {drain : Action σ Unit} {w : World σ} {fuel : ℕ}
  {o : PassOptions} {r : Handle} {rs : List Handle}

theorem passBody_wanes (hu : w.heap.Unfinalized) :
    After (passBody call o) w fun _ w' => Wanes w.heap w'.heap ∧
      ∀ r, w.heap.arena.Composite r → r.index ∉ w.heap.garbage o → w'.heap.arena.Composite r := by
  have hbegun : Withers w.heap (w.heap.beginPass o).1 := .beginPass
  have hspared : ∀ r, w.heap.arena.Composite r → r.index ∉ w.heap.garbage o →
      (w.heap.beginPass o).1.arena.Composite r := by
    intro r hr hi
    have hswept : ((w.heap.toSweep o).sweep (w.heap.garbage o)).arena.Composite r :=
      Heap.composite_sweep (Heap.alike_toSweep.composite.mpr hr) hi
    rw [Heap.beginPass_eq]
    dsimp only
    split
    · exact hswept
    · exact hswept
  have hfinish : ∀ (h : Heap) p n, Heap.Spares h (h.finishPass o p n).1 := by
    intro h p n
    obtain ⟨trigger, counters, lastPass, he⟩ := h.finishPass_eq (o := o) (p := p) (n := n)
    rw [he]
    exact .of_core Heap.core_requeue
  unfold passBody
  rw [after_bind, after_change, after_bind]
  refine (runPending_unfinalized (hbegun.toShrinks.unfinalized hu)).mono ?_
  rintro n _ rfl
  split
  · rw [after_bind, after_modifyHeap, after_change]
    refine ⟨((hbegun.trans .settle).trans .finishPass).wanes, fun r hr hi => hfinish _ _ _ r ?_⟩
    exact Heap.remarked_settle.arena.composite.mpr (hspared r hr hi)
  · rw [after_change]
    exact ⟨(hbegun.trans .finishPass).wanes, fun r hr hi => hfinish _ _ _ r (hspared r hr hi)⟩

theorem pass_wanes (hu : w.heap.Unfinalized) (hdrain : ∀ w', w'.heap.Unfinalized →
      After drain w' fun _ w'' => Wanes w'.heap w''.heap) :
    After (pass call drain o) w fun _ w' => Wanes w.heap w'.heap :=
  pass_after ((passBody_wanes hu).mono fun _ _ hw => hw.1) (fun _ hw => hw) fun _ w' hw =>
    (hdrain w' (hw.unfinalized hu)).mono fun _ _ hw' => hw.trans hw'

theorem drain_wanes (hu : w.heap.Unfinalized) :
    After (Engine.top host fuel).drain w fun _ w' => Wanes w.heap w'.heap := by
  change After (drainQueue _ _ fuel) w _
  unfold drainQueue
  rw [after_bind, after_modifyHeap, after_bind]
  refine (drainLoop_invariant (w := ⟨{ w.heap with draining := true }, w.host⟩)
    (I := fun w' => Wanes w.heap w'.heap) ?_ ?_ ?_ Wanes.flag).mono ?_
  · intro w' i hw _
    unfold settleHead
    rw [after_bind, after_query, Heap.headFinalizer_eq_none (hw.unfinalized hu)]
    exact after_change.mpr (hw.trans Withers.leaveQueue.wanes)
  · intro w' n hw _
    have hspend : Withers w'.heap (w'.heap.spendTrigger n) := .spendTrigger
    exact hw.trans hspend.wanes
  · intro w' hw _
    exact (pass_wanes (hw.unfinalized hu) fun _ _ => after_pure.mpr .refl).mono fun _ _ hw' => hw.trans hw'
  · rintro _ w' ⟨hw, -⟩
    exact after_modifyHeap.mpr (hw.trans Wanes.flag)

theorem release_wanes (hu : w.heap.Unfinalized) :
    After ((Engine.top host fuel).release r) w fun _ w' => Wanes w.heap w'.heap := by
  have hrelease : Wanes w.heap (w.heap.release r).1 := Withers.release.wanes
  unfold Engine.release
  rw [after_bind, after_change]
  split
  · have hdrain : After (Engine.top host fuel).drain ⟨(w.heap.release r).1, w.host⟩ fun _ w' =>
        Wanes (w.heap.release r).1 w'.heap := drain_wanes (hrelease.unfinalized hu)
    exact hdrain.mono fun _ _ hw => hrelease.trans hw
  · exact after_pure.mpr hrelease

theorem releaseAll_wanes (hu : w.heap.Unfinalized) :
    After ((Engine.top host fuel).releaseAll rs) w fun _ w' => Wanes w.heap w'.heap := by
  induction rs generalizing w with
  | nil => exact after_pure.mpr .refl
  | cons r rs ih =>
    refine after_bind.mpr ((release_wanes hu).mono fun _ w₁ hw₁ => ?_)
    exact (ih (hw₁.unfinalized hu)).mono fun _ _ hw₂ => hw₁.trans hw₂

end CountedHeap
