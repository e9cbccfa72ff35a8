import CountedHeap.Proofs.Reclaim.Quiet

/-!
# The pace of passes

A drain counts the cells that it frees, and counts them off the trigger counter when a round ends. A pass
sets this counter. Nothing else that drains and passes do has to do with when the next pass begins.

* `pace_leaveQueue`: a cell is freed.
* `pace_beginPass`, `pace_settle`, `pace_finishPass`: the steps of a pass.
* `passBody_pace`: what a pass does where no finalizer is found.
-/

namespace CountedHeap

namespace Heap

variable {h : Heap} {r : Handle} {n : ℕ} {b : Body} {l : List ℕ} {o : PassOptions} {p : PassStart}

theorem pace_foldl {f : Heap → ℕ → Heap} (hf : ∀ h i, (f h i).pace = h.pace) :
    (l.foldl f h).pace = h.pace := by
  induction l generalizing h with
  | nil => rfl
  | cons i l ih => exact ih.trans (hf h i)

/-- A cell that leaves the queue for good is counted. -/
theorem pace_leaveQueue (hr : h.arena.Holds r n b) : (h.leaveQueue r.index false).1.pace =
    { h.pace with freed := h.pace.freed + 1 } := by
  rw [leaveQueue_false hr, pace_releaseQuietly]
  rfl

theorem pace_sweep : (h.sweep l).pace = h.pace := by
  refine (pace_foldl (f := freeSwept) fun _ _ => rfl).trans (pace_foldl fun h i => ?_)
  unfold releaseChildren
  split
  · exact pace_releaseQuietly
  · rfl

theorem pace_beginPass : (h.beginPass o).1.pace = h.pace := by
  have hmarked : (h.toSweep o).pace = h.pace :=
    (pace_foldl fun _ _ => rfl : h.traced.pace = _)
  rw [beginPass_eq]
  dsimp only
  split <;> exact pace_sweep.trans hmarked

theorem pace_settle : (h.settle l).pace = h.pace := by
  refine pace_foldl fun h i => ?_
  unfold settleRescued
  split
  · split <;> rfl
  · rfl

/-- A pass ends with the counter set for the cells that are left. -/
theorem pace_finishPass : (h.finishPass o p n).1.pace =
    { h.pace with
      trigger := h.config.nextTrigger (h.finishPass o p n).1.arena.compositeCount
      passes := h.pace.passes + 1 } := by
  have hrequeued : h.requeue.pace = h.pace :=
    pace_foldl (h := { h with sweeping := false }) fun _ _ => rfl
  -- With the counter as a variable, for what it is set to is not to be computed.
  have hset : ∀ (h : Heap) t c p, ({ h with trigger := t, counters := c, lastPass := p } : Heap).pace =
        ⟨t, c.queueFrees, c.passes, h.config⟩ ∧
      ({ h with trigger := t, counters := c, lastPass := p } : Heap).arena = h.arena :=
    fun _ _ _ _ => ⟨rfl, rfl⟩
  obtain ⟨lastPass, he⟩ : ∃ lastPass, h.finishPass o p n = ({ h.requeue with
      trigger := h.requeue.config.nextTrigger h.requeue.arena.compositeCount
      counters := { h.requeue.counters with passes := h.requeue.counters.passes + 1 }
      lastPass := lastPass }, h.zeroCounts.length) := ⟨_, rfl⟩
  rw [he, (hset _ _ _ _).1, (hset _ _ _ _).2, ← hrequeued,
    ← show h.requeue.config = h.config from congrArg Pace.config hrequeued]
  rfl

end Heap

/-- A pass sets the counter, if no finalizer is found. -/
theorem passBody_pace {σ : Type} {call : Caller σ} {w : World σ} {o : PassOptions}
    (hu : w.heap.Unfinalized) : After (passBody call o) w fun _ w' => w'.host = w.host ∧
      w'.heap.pace = { w.heap.pace with
        trigger := w.heap.config.nextTrigger w'.heap.arena.compositeCount
        passes := w.heap.pace.passes + 1 } := by
  have hbegun : (w.heap.beginPass o).1.pace = w.heap.pace := Heap.pace_beginPass
  have hfinish : ∀ (h : Heap) p n, h.pace = w.heap.pace → (h.finishPass o p n).1.pace =
      { w.heap.pace with
        trigger := w.heap.config.nextTrigger (h.finishPass o p n).1.arena.compositeCount
        passes := w.heap.pace.passes + 1 } := by
    intro h p n hp
    have hconfig : h.config = w.heap.config := congrArg Heap.Pace.config hp
    rw [Heap.pace_finishPass, hp, hconfig]
  unfold passBody
  rw [after_bind, after_change, after_bind]
  refine (runPending_unfinalized (Heap.Shrinks.beginPass.unfinalized hu)).mono ?_
  rintro n _ rfl
  dsimp only
  split
  · rw [after_bind, after_modifyHeap, after_change]
    exact ⟨rfl, hfinish _ _ _ (Heap.pace_settle.trans hbegun)⟩
  · rw [after_change]
    exact ⟨rfl, hfinish _ _ _ hbegun⟩

end CountedHeap
