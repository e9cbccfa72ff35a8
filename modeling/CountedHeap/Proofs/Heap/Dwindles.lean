import CountedHeap.Proofs.Arena.Marks
import CountedHeap.Proofs.Heap.Posts

/-!
# What becomes of marks while cells are freed

Giving counts back, sweeping and working the queue off free cells. The cells that are left keep the
mark that says that their finalizer has run.

* `Arena.Finalized`: a composite cell with this mark.
* `Heap.Dwindles`: cells have been freed, and those that are left keep their marks.
* `Heap.Ages`: cells have been freed, and finalizers may have run.
* `Dwindles.release`, `Dwindles.leaveQueue`, `Dwindles.sweep`, …: the steps.
-/

namespace CountedHeap

namespace Arena

variable {a a' : Arena} {r q : Handle} {i n : ℕ} {b : Body}

/-- The finalizer of a composite cell has run, and it has not been rescued since. -/
def Finalized (a : Arena) (r : Handle) : Prop :=
  a.Composite r ∧ a.ran r.index = true

theorem composite_of_holds (hr : a.Holds r n b) : a.Composite r ↔ b.isComposite = true := by
  constructor
  · rintro ⟨m, c, hc, hcomp⟩
    obtain ⟨-, rfl⟩ := hr.unique hc
    exact hcomp
  · exact fun hcomp => ⟨n, b, hr, hcomp⟩

theorem finalized_congr (hc : a'.core = a.core) (hm : a'.ran = a.ran) :
    a'.Finalized r ↔ a.Finalized r := by
  unfold Finalized Composite Holds
  rw [hc, hm]

/-- A slot that is emptied changes the mark of no other. -/
theorem ran_release_of_composite (hq : (a.release i).Composite q) :
    (a.release i).ran q.index = a.ran q.index := by
  obtain ⟨n, b, hb, -⟩ := hq
  rw [ran_release, Function.update_of_ne (holds_release.mp hb).2]

end Arena

namespace Heap

open Arena (Composite)

variable {h h' h'' : Heap} {r : Handle} {i : ℕ} {o : PassOptions}

/-- Cells have been freed, and perhaps the current thread with them. Those that are left have the marks
of finalized cells that they had. -/
structure Dwindles (h h' : Heap) : Prop extends Shrinks h h' where
  ran : ∀ r, h'.arena.Composite r → h'.arena.ran r.index = h.arena.ran r.index

/-- Cells have been freed, and perhaps the current thread with them. Finalizers may have run, but no mark
of a finalized cell has been taken away. -/
structure Ages (h h' : Heap) : Prop extends Shrinks h h' where
  finalized : ∀ r, h.arena.Finalized r → h'.arena.Composite r → h'.arena.Finalized r

theorem Shrinks.composite (hs : Shrinks h h') (hr : h'.arena.Composite r) : h.arena.Composite r := by
  obtain ⟨n, b, hb, hcomp⟩ := hr
  obtain ⟨m, hm⟩ := hs.cells r n b hb
  exact ⟨m, b, hm, hcomp⟩

theorem Ages.refl : Ages h h :=
  ⟨.refl, fun _ hr _ => hr⟩

theorem Ages.trans (h₁ : Ages h h') (h₂ : Ages h' h'') : Ages h h'' :=
  ⟨h₁.toShrinks.trans h₂.toShrinks, fun r hr hc =>
    h₂.finalized r (h₁.finalized r hr (h₂.toShrinks.composite hc)) hc⟩

namespace Dwindles

theorem of_withers (hw : Withers h h')
    (hran : ∀ r, h'.arena.Composite r → h'.arena.ran r.index = h.arena.ran r.index) : Dwindles h h' :=
  ⟨hw.toShrinks, hran⟩

/-- Changes that no mark of a finalized cell is part of. -/
theorem of_ran (hw : Withers h h') (hran : h'.arena.ran = h.arena.ran) : Dwindles h h' :=
  of_withers hw fun r _ => congrFun hran r.index

/-- Changes beside the cells. -/
theorem aside (ha : h'.arena = h.arena) (hr : h'.roots = h.roots)
    (hk : h'.finalizerKey = h.finalizerKey) (hc : h'.current = h.current) : Dwindles h h' :=
  ⟨.of_core (by rw [ha]) hr hk hc, fun _ _ => by rw [ha]⟩

theorem refl : Dwindles h h :=
  aside rfl rfl rfl rfl

theorem trans (h₁ : Dwindles h h') (h₂ : Dwindles h' h'') : Dwindles h h'' := by
  refine ⟨h₁.toShrinks.trans h₂.toShrinks, fun r hr => ?_⟩
  rw [h₂.ran r hr, h₁.ran r (h₂.toShrinks.composite hr)]

theorem foldl {f : Heap → ℕ → Heap} (hf : ∀ h i, Dwindles h (f h i)) (l : List ℕ) :
    Dwindles h (l.foldl f h) := by
  induction l generalizing h with
  | nil => exact refl
  | cons i l ih => exact (hf h i).trans ih

/-- The finalized cells are those that are left of them. -/
theorem finalized_iff (hd : Dwindles h h') :
    h'.arena.Finalized r ↔ h.arena.Finalized r ∧ h'.arena.Composite r := by
  unfold Arena.Finalized
  constructor
  · rintro ⟨hr, hran⟩
    exact ⟨⟨hd.toShrinks.composite hr, hd.ran r hr ▸ hran⟩, hr⟩
  · rintro ⟨⟨-, hran⟩, hr⟩
    exact ⟨hr, (hd.ran r hr).trans hran⟩

theorem ages (hd : Dwindles h h') : Ages h h' :=
  ⟨hd.toShrinks, fun _ hr hc => hd.finalized_iff.mpr ⟨hr, hc⟩⟩

/-! ## The steps -/

theorem enqueue : Dwindles h (h.enqueue i) :=
  of_ran .enqueue ((Arena.ran_linkTail _).trans Arena.ran_unlink)

theorem unlink : Dwindles h (h.modifyArena (·.unlink i)) :=
  of_ran .unlink Arena.ran_unlink

theorem modifyCounters {g : Counters → Counters} : Dwindles h (h.modifyCounters g) :=
  aside rfl rfl rfl rfl

theorem release : Dwindles h (h.release r).1 := by
  refine of_withers .release fun q hq => ?_
  have huncount : (h.uncount r.index).arena.ran = h.arena.ran := Arena.ran_modifyAt fun _ => rfl
  rcases h.release_cases r with ⟨-, he⟩ | ⟨_, _, -, ⟨-, he⟩ | ⟨-, -, _, _, _, he⟩ | ⟨-, -, -, -, he⟩⟩
  · rw [he]
  · rw [he, huncount]
  · rw [he] at hq ⊢
    exact (Arena.ran_release_of_composite hq).trans (congrFun huncount _)
  · rw [he] at hq ⊢
    exact (enqueue.ran q hq).trans (congrFun huncount _)

theorem releaseQuietly {rs : List Handle} : Dwindles h (h.releaseQuietly rs) := by
  induction rs generalizing h with
  | nil => exact refl
  | cons r rs ih => exact release.trans ih

theorem vacate : Dwindles h ((h.forgetCurrent i).modifyArena (·.release i)) :=
  of_withers .vacate fun _ hr => Arena.ran_release_of_composite hr

/-- A cell leaves the queue for good. -/
theorem leaveQueue : Dwindles h (h.leaveQueue i false).1 := by
  refine (unlink (i := i)).trans ?_
  change Dwindles _ ((h.modifyArena (·.unlink i)).freeComposite i)
  unfold freeComposite
  split
  · exact refl
  · exact (vacate.trans modifyCounters).trans releaseQuietly

theorem releaseChildren : Dwindles h (h.releaseChildren i) := by
  unfold Heap.releaseChildren
  split
  · exact releaseQuietly
  · exact refl

theorem freeSwept : Dwindles h (h.freeSwept i) := by
  refine of_withers .freeSwept fun q hq => ?_
  exact (Arena.ran_release_of_composite hq).trans (congrFun Arena.ran_unlink _)

theorem sweep {l : List ℕ} : Dwindles h (h.sweep l) :=
  (foldl (fun _ _ => releaseChildren) l).trans (foldl (fun _ _ => freeSwept) l)

theorem finishPass {p : PassStart} {n : ℕ} : Dwindles h (h.finishPass o p n).1 := by
  have hstart : Dwindles h ({ h with sweeping := false } : Heap) := aside rfl rfl rfl rfl
  obtain ⟨trigger, counters, lastPass, he⟩ := h.finishPass_eq (o := o) (p := p) (n := n)
  rw [he]
  exact (hstart.trans (foldl (fun _ _ => enqueue) _)).trans (aside rfl rfl rfl rfl)

end Dwindles

end Heap

end CountedHeap
