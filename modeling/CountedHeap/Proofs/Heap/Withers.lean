import CountedHeap.Proofs.Heap.Strokes
import CountedHeap.Proofs.Reclaim.Quiet

/-!
# The current thread while cells are freed

Passes and drains free cells, and the heap forgets its current thread when they free it. Apart from
what finalizers do, this is all that becomes of threads meanwhile.

* `Heap.Spares`: no composite cell has been freed.
* `Heap.Withers`: cells have been freed, and the current thread is forgotten if it was one of them.
* `Withers.release`, `Withers.beginPass`, `Withers.leaveQueue`, …: the steps.
-/

namespace CountedHeap

namespace Heap

open Arena (Composite)

variable {h h' h'' : Heap} {r : Handle} {i : ℕ} {o : PassOptions}

/-- The composite cells of one heap are there in another. -/
def Spares (h h' : Heap) : Prop :=
  ∀ r, h.arena.Composite r → h'.arena.Composite r

theorem Spares.refl : Spares h h :=
  fun _ => id

theorem Spares.trans (h₁ : Spares h h') (h₂ : Spares h' h'') : Spares h h'' :=
  fun r hr => h₂ r (h₁ r hr)

theorem Spares.of_core (hc : h'.arena.core = h.arena.core) : Spares h h' := by
  rintro r ⟨n, b, hr, hb⟩
  refine ⟨n, b, ?_, hb⟩
  unfold Arena.Holds
  rwa [hc]

/-- Counts and marks of a cell change. -/
theorem Spares.modifyAt {f : Cell → Cell} (hf : ∀ c, (f c).body = c.body) :
    Spares h (h.modifyAt i f) := by
  rintro r ⟨n, b, hr, hb⟩
  obtain ⟨c, hc, -, rfl⟩ := hr.get?
  have hget : ∃ c', (h.modifyAt i f).arena.get? r = some c' ∧ c'.body = c.body := by
    rw [show (h.modifyAt i f).arena = h.arena.modifyAt i f from rfl, Arena.get?_modifyAt, hc]
    split
    · exact ⟨f c, rfl, hf c⟩
    · exact ⟨c, rfl, rfl⟩
  obtain ⟨c', hc', hbody⟩ := hget
  exact ⟨_, _, Arena.holds_of_get? hc', hbody ▸ hb⟩

theorem Spares.release : Spares h (h.release r).1 := by
  rintro q ⟨n, b, hq, hb⟩
  obtain ⟨m, hm⟩ := composite_release (r := r) hq hb
  exact ⟨m, b, hm, hb⟩

theorem Spares.releaseQuietly {rs : List Handle} : Spares h (h.releaseQuietly rs) := by
  induction rs generalizing h with
  | nil => exact refl
  | cons r rs ih => exact release.trans ih

/-- A sweep spares what it is not to free. -/
theorem composite_sweep {l : List ℕ} (hr : h.arena.Composite r) (hi : r.index ∉ l) :
    (h.sweep l).arena.Composite r := by
  have hchildren : ∀ (l : List ℕ) (h : Heap), Spares h (l.foldl Heap.releaseChildren h) := by
    intro l
    induction l with
    | nil => exact fun _ => .refl
    | cons i l ih =>
      refine fun h => Spares.trans ?_ (ih _)
      unfold Heap.releaseChildren
      split
      · exact .releaseQuietly
      · exact .refl
  have hfree : ∀ (l : List ℕ) (h : Heap), h.arena.Composite r → r.index ∉ l →
      (l.foldl Heap.freeSwept h).arena.Composite r := by
    intro l
    induction l with
    | nil => exact fun _ hr _ => hr
    | cons i l ih =>
      intro h hr hi
      obtain ⟨hne, hl⟩ := List.ne_and_not_mem_of_not_mem_cons hi
      obtain ⟨n, b, hb, hcomp⟩ := hr
      have hunlinked : (h.arena.unlink i).Holds r n b := by
        unfold Arena.Holds
        rwa [Arena.core_unlink]
      exact ih _ ⟨n, b, Arena.holds_release.mpr ⟨hunlinked, hne⟩, hcomp⟩ hl
  exact hfree l _ (hchildren l h r hr) hi

theorem free_enqueue : (h.enqueue i).arena.free = h.arena.free :=
  Arena.free_linkTail.trans Arena.free_unlink

theorem books_enqueue : (h.enqueue i).arena.books = h.arena.books :=
  Arena.books_linkTail.trans Arena.books_unlink

/-- Cells have been freed. If the current thread was one of them, the heap has forgotten it. -/
structure Withers (h h' : Heap) : Prop extends Shrinks h h' where
  free : h.arena.FreeOk → h'.arena.FreeOk
  books : h.arena.books.Wanes h'.arena.books
  draining : h'.draining = h.draining
  config : h'.config = h.config
  spared : ∀ c, h'.current = some c → h.arena.Composite c → h'.arena.Composite c

namespace Withers

theorem of_spares (hs : Shrinks h h') (hf : h.arena.FreeOk → h'.arena.FreeOk)
    (hb : h.arena.books.Wanes h'.arena.books) (hd : h'.draining = h.draining)
    (hg : h'.config = h.config) (hcells : Spares h h') : Withers h h' :=
  ⟨hs, hf, hb, hd, hg, fun c _ => hcells c⟩

theorem refl : Withers h h :=
  of_spares .refl id .refl rfl rfl .refl

theorem trans (h₁ : Withers h h') (h₂ : Withers h' h'') : Withers h h'' :=
  ⟨h₁.toShrinks.trans h₂.toShrinks, fun hf => h₂.free (h₁.free hf), h₁.books.trans h₂.books,
    h₂.draining.trans h₁.draining, h₂.config.trans h₁.config, fun c hc hcell =>
      h₂.spared c hc (h₁.spared c (h₂.toShrinks.current_eq hc) hcell)⟩

theorem of_core (hc : h'.arena.core = h.arena.core) (hf : h'.arena.free = h.arena.free)
    (hb : h'.arena.books = h.arena.books) (hr : h'.roots = h.roots)
    (hk : h'.finalizerKey = h.finalizerKey) (hd : h'.draining = h.draining)
    (hcur : h'.current = h.current) (hg : h'.config = h.config) : Withers h h' :=
  of_spares (.of_core hc hr hk hcur) (·.of_core hf hc) (Books.Wanes.of_eq hb) hd hg (.of_core hc)

theorem foldl {f : Heap → ℕ → Heap} (hf : ∀ h i, Withers h (f h i)) (l : List ℕ) :
    Withers h (l.foldl f h) := by
  induction l generalizing h with
  | nil => exact refl
  | cons i l ih => exact (hf h i).trans ih

theorem enqueue : Withers h (h.enqueue i) :=
  of_core core_enqueue free_enqueue books_enqueue rfl rfl rfl rfl rfl

theorem unlink : Withers h (h.modifyArena (·.unlink i)) :=
  of_core Arena.core_unlink Arena.free_unlink Arena.books_unlink rfl rfl rfl rfl rfl

theorem spendTrigger {n : ℕ} : Withers h (h.spendTrigger n) :=
  of_core rfl rfl rfl rfl rfl rfl rfl rfl

theorem release : Withers h (h.release r).1 := by
  have hsame : (h.release r).1.draining = h.draining ∧ (h.release r).1.config = h.config := by
    rcases h.release_cases r with ⟨-, he⟩ | ⟨_, _, -, ⟨-, he⟩ | ⟨-, -, _, _, _, he⟩ |
      ⟨-, -, -, -, he⟩⟩ <;> rw [he] <;> exact ⟨rfl, rfl⟩
  have hfree : h.arena.FreeOk → (h.release r).1.arena.FreeOk := by
    intro hf
    rcases h.release_cases r with ⟨-, he⟩ | ⟨_, _, -, ⟨-, he⟩ | ⟨-, -, _, _, _, he⟩ |
      ⟨-, -, -, -, he⟩⟩ <;> rw [he]
    · exact hf
    · exact hf.modifyAt _
    · exact (hf.modifyAt _).release
    · exact (hf.modifyAt _).of_core free_enqueue core_enqueue
  have hbooks : h.arena.books.Wanes (h.release r).1.arena.books := by
    have hheader : (h.modifyAt r.index (·.modifyHeader .release)).arena.books = h.arena.books :=
      Arena.books_modifyAt_of_eq fun _ => rfl
    rcases h.release_cases r with ⟨-, he⟩ | ⟨_, _, -, ⟨-, he⟩ | ⟨-, -, _, _, _, he⟩ |
      ⟨-, -, -, -, he⟩⟩ <;> rw [he]
    · exact Books.Wanes.of_eq hheader
    · exact .trans (Books.Wanes.of_eq hheader) (.single ⟨_, Arena.books_release⟩)
    · exact Books.Wanes.of_eq (books_enqueue.trans hheader)
  exact of_spares .release hfree hbooks hsame.1 hsame.2 .release

theorem releaseQuietly {rs : List Handle} : Withers h (h.releaseQuietly rs) := by
  induction rs generalizing h with
  | nil => exact refl
  | cons r rs ih => exact release.trans ih

theorem modifyAt {f : Cell → Cell} (hf : ∀ c, (f c).body = c.body) : Withers h (h.modifyAt i f) :=
  of_spares (.modifyHeader hf) (·.modifyAt f) (Books.Wanes.of_eq (Arena.books_modifyAt_of_eq hf)) rfl
    rfl (.modifyAt hf)

theorem modifyCounters {g : Counters → Counters} : Withers h (h.modifyCounters g) :=
  of_core rfl rfl rfl rfl rfl rfl rfl rfl

theorem clearFinalized : Withers h (h.clearFinalized i) :=
  modifyAt fun _ => rfl

/-- A slot is emptied, and the thread in it is forgotten. -/
theorem vacate : Withers h ((h.forgetCurrent i).modifyArena (·.release i)) := by
  refine ⟨.forget, (·.release), .single ⟨i, Arena.books_release⟩, rfl, rfl, fun c hc hcell => ?_⟩
  obtain ⟨n, b, hb, hcomp⟩ := hcell
  refine ⟨n, b, Arena.holds_release.mpr ⟨hb, fun hi => ?_⟩, hcomp⟩
  change (if h.current = some (h.arena.handleAt i) then none else h.current) = some c at hc
  have hat : h.arena.handleAt i = c := hi ▸ hb.handleAt
  rw [hat] at hc
  split at hc
  · cases hc
  · exact absurd hc ‹_›

theorem freeComposite : Withers h (h.freeComposite i) := by
  unfold Heap.freeComposite
  split
  · exact refl
  · exact (vacate.trans modifyCounters).trans releaseQuietly

theorem leaveQueue {keep : Bool} : Withers h (h.leaveQueue i keep).1 := by
  unfold Heap.leaveQueue
  have hunlink : Withers h (h.modifyArena (·.unlink i)) := unlink
  cases keep with
  | true => exact hunlink.trans (of_core
      (by simp [Heap.modifyCounters, Heap.modifyArena, Heap.modifyAt])
      (by simp [Heap.modifyCounters, Heap.modifyArena, Heap.modifyAt, Arena.modifyAt])
      (by simp [Heap.modifyCounters, Heap.modifyArena, Heap.modifyAt]) rfl rfl rfl rfl rfl)
  | false => exact hunlink.trans freeComposite

theorem freeSwept : Withers h (h.freeSwept i) := by
  rw [freeSwept_eq]
  exact (unlink (i := i)).trans vacate

theorem releaseChildren : Withers h (h.releaseChildren i) := by
  unfold Heap.releaseChildren
  split
  · exact releaseQuietly
  · exact refl

theorem sweep {l : List ℕ} : Withers h (h.sweep l) :=
  (foldl (fun _ _ => releaseChildren) l).trans (foldl (fun _ _ => freeSwept) l)

/-- Before it sweeps, a pass only marks. -/
theorem toSweep : Withers h (h.toSweep o) := by
  have hfold : ∀ (l : List ℕ) (h : Heap), Withers h (l.foldl Heap.clearFinalized h) :=
    fun l h => foldl (fun _ _ => clearFinalized) l
  have htraced : Withers { h with sweeping := true } h.traced :=
    .trans (of_core alike_markHeld.core alike_markHeld.free alike_markHeld.books rfl rfl rfl rfl rfl)
      (hfold _ _)
  have hstart : Withers h { h with sweeping := true } := of_core rfl rfl rfl rfl rfl rfl rfl rfl
  refine hstart.trans (htraced.trans ?_)
  have halike : Arena.Alike h.traced.arena (h.toSweep o).arena :=
    remarked_traced.arena.symm.trans remarked_toSweep.arena
  exact of_core halike.core halike.free halike.books rfl rfl rfl rfl rfl

theorem beginPass : Withers h (h.beginPass o).1 := by
  rw [beginPass_eq]
  dsimp only
  split
  · exact (toSweep.trans sweep).trans (of_core rfl rfl rfl rfl rfl rfl rfl rfl)
  · exact toSweep.trans sweep

theorem settle {l : List ℕ} : Withers h (h.settle l) := by
  refine .trans (of_core alike_markHeld.core alike_markHeld.free alike_markHeld.books rfl rfl rfl rfl rfl)
    (foldl (fun h i => ?_) l)
  unfold settleRescued
  split
  · split
    · exact clearFinalized.trans modifyCounters
    · exact refl
  · exact refl

theorem finishPass {p : PassStart} {n : ℕ} : Withers h (h.finishPass o p n).1 := by
  have hstart : Withers h ({ h with sweeping := false } : Heap) := of_core rfl rfl rfl rfl rfl rfl rfl rfl
  obtain ⟨trigger, counters, lastPass, he⟩ := h.finishPass_eq (o := o) (p := p) (n := n)
  rw [he]
  exact (hstart.trans (foldl (fun _ _ => enqueue) _)).trans (of_core rfl rfl rfl rfl rfl rfl rfl rfl)

theorem beginFinalizer : Withers h (h.beginFinalizer i) :=
  modifyAt fun _ => rfl

theorem endFinalizer : Withers h (h.endFinalizer i) :=
  modifyAt fun _ => rfl

theorem endHeadFinalizer : Withers h (h.endHeadFinalizer i).1 := by
  unfold Heap.endHeadFinalizer
  split
  · exact endFinalizer
  · exact refl

end Withers

end Heap

end CountedHeap
