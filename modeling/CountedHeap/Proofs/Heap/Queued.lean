import CountedHeap.Proofs.Heap.Marking
import CountedHeap.Proofs.Heap.Release

/-!
# The queue over time

While the queue is worked off, whatever runs adds to it at its tail only, and frees none of its cells.

* `Heap.queued`: the cells in the queue.
* `Heap.Standing`, `Heap.Lasting`: composite cells that are there, as long as nothing frees them.
* `Heap.Appends`: the queue has only grown, and its cells are there.
* `Heap.Follows`: a heap in which this is so since every heap that has been seen before.
-/

namespace CountedHeap.Heap

variable {h h' : Heap} {seen : List Heap} {q q' : List ℕ} {r : Handle} {n i : ℕ} {b : Body}

/-- The cells in the queue, from its head to its tail. -/
def queued (h : Heap) : List Handle :=
  (h.arena.members .queue).map h.arena.handleAt

/-- Some handles name composite cells. -/
def Standing (l : List Handle) (h : Heap) : Prop :=
  ∀ r ∈ l, h.arena.Composite r

/-- A condition on what the slots and the tables of strings hold that releases keep. -/
structure Lasting (P : Heap → Prop) : Prop where
  yielding : Yielding P
  of_core : ∀ h h', h'.arena.core = h.arena.core → h'.tables = h.tables → P h → P h'

theorem lasting_true : Lasting fun _ => True :=
  ⟨fun _ _ _ _ => trivial, fun _ _ _ _ _ => trivial⟩

theorem lasting_standing (l : List Handle) : Lasting (Standing l) where
  yielding := by
    intro h h' hl hs r hr
    obtain ⟨n, b, hb, hcomp⟩ := hs r hr
    exact hl.cells r n b hb hcomp
  of_core := by
    intro h h' hc _ hs r hr
    obtain ⟨n, b, hb, hcomp⟩ := hs r hr
    refine ⟨n, b, ?_, hcomp⟩
    unfold Arena.Holds
    rw [hc]
    exact hb

/-- The queue has grown at its tail, if at all, and the cells that it had are there. -/
structure Appends (h h' : Heap) : Prop where
  queue : h.queued <+: h'.queued
  live : ∀ r ∈ h.queued, h'.isLive r = true

theorem Sound.standing_queued (hs : h.Sound) : Standing h.queued h := by
  intro r hr
  obtain ⟨i, hi, rfl⟩ := List.mem_map.mp hr
  exact hs.arena.cell_of_mem hi

/-- Cells that are still there are found in the slots they were in. -/
theorem Appends.of_standing (hqueue : h.arena.members .queue <+: h'.arena.members .queue)
    (hs : Standing h.queued h') : Appends h h' := by
  have hat : ∀ i ∈ h.arena.members .queue, h'.arena.handleAt i = h.arena.handleAt i := by
    intro i hi
    obtain ⟨n, b, hb, -⟩ := hs _ (List.mem_map_of_mem hi)
    exact hb.handleAt
  refine ⟨?_, fun r hr => ?_⟩
  · unfold queued
    rw [← List.map_congr_left hat]
    exact hqueue.map _
  · obtain ⟨n, b, hb, -⟩ := hs r hr
    exact hb.isLive

/-- The heaps that have been seen follow on one another, and this one, whose queue starts with some
cells, on all of them. -/
structure Follows (seen : List Heap) (queue : List ℕ) (h : Heap) : Prop where
  order : seen.Pairwise Appends
  queue : ∀ x ∈ seen, x.arena.members .queue <+: queue
  standing : ∀ x ∈ seen, Standing x.queued h

theorem follows_nil : Follows [] q h :=
  ⟨.nil, by simp, by simp⟩

theorem Follows.mono (hf : Follows seen q h) (hq : q <+: q') : Follows seen q' h :=
  ⟨hf.order, fun x hx => (hf.queue x hx).trans hq, hf.standing⟩

theorem Follows.appends (hf : Follows seen (h.arena.members .queue) h) {x : Heap} (hx : x ∈ seen) :
    Appends x h :=
  .of_standing (hf.queue x hx) (hf.standing x hx)

/-- A heap is seen. -/
theorem Follows.look (hf : Follows seen (h.arena.members .queue) h) (hs : h.Sound) :
    Follows (seen ++ [h]) (h.arena.members .queue) h := by
  refine ⟨List.pairwise_append.mpr ⟨hf.order, List.pairwise_singleton _ _, ?_⟩, ?_, ?_⟩
  · intro x hx y hy
    obtain rfl := List.mem_singleton.mp hy
    exact hf.appends hx
  all_goals
    intro x hx
    rcases List.mem_append.mp hx with hx | hx
  · exact hf.queue x hx
  · rw [List.mem_singleton.mp hx]
  · exact hf.standing x hx
  · rw [List.mem_singleton.mp hx]
    exact hs.standing_queued

theorem lasting_follows (seen : List Heap) (queue : List ℕ) : Lasting (Follows seen queue) where
  yielding _ _ hl hf :=
    ⟨hf.order, hf.queue, fun x hx => (lasting_standing x.queued).yielding _ _ hl (hf.standing x hx)⟩
  of_core _ _ hc htables hf :=
    ⟨hf.order, hf.queue, fun x hx =>
      (lasting_standing x.queued).of_core _ _ hc htables (hf.standing x hx)⟩

/-- What has grown since is the queue of the heap itself. -/
theorem yielding_following (seen : List Heap) :
    Yielding fun h => Follows seen (h.arena.members .queue) h :=
  fun _ _ hl hf => ((lasting_follows seen _).yielding _ _ hl hf).mono hl.queue

end CountedHeap.Heap
