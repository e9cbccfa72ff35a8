import CountedHeap.Proofs.Keep.Engines

/-!
# The worlds of a drain

A drain looks for the head of the queue again and again, and deals with it, or runs a voluntary pass
where the queue is empty and the trigger counter is used up.

* `Drains`: the worlds in which a drain looks for the head of the queue.
* `drains_of_drain`: a drain ends in one of them.
* `Drains.keeps`: what all of them have in common.
-/

namespace CountedHeap

open Heap (Draining yielding_draining)

variable {σ : Type} {host : Host σ} {due : Heap → ℕ → Prop} {w₀ w w' : World σ}
  {X : Multiset Handle} {T : Terms σ} {fuel n i : ℕ} {d : Departure}

/-- The worlds in which a drain looks for the head of the queue, where all heads so far have satisfied
a condition when their turn came. -/
inductive Drains (host : Host σ) (due : Heap → ℕ → Prop) (w₀ : World σ) : World σ → Prop where
  | start : Drains host due w₀ ⟨{ w₀.heap with draining := true }, w₀.host⟩
  | turn {w w' : World σ} {i : ℕ} {d : Departure} : Drains host due w₀ w →
      w.heap.arena.queue.head = some i → due w.heap i →
      settleHead ((Engine.inDrain host).caller host) i w = some (d, w') → Drains host due w₀ w'
  | spend {w : World σ} {n : ℕ} : Drains host due w₀ w → w.heap.arena.queue.head = none →
      Drains host due w₀ ⟨w.heap.spendTrigger n, w.host⟩
  | pass {w w' : World σ} {ran : Bool} : Drains host due w₀ w → w.heap.arena.queue.head = none →
      (Engine.inDrain host).collect {} w = some (ran, w') → Drains host due w₀ w'

/-- If no head is met that fails a condition, all heads so far have satisfied it. -/
theorem Drains.of_heads (hd : Drains host (fun _ _ => True) w₀ w)
    (hdue : ∀ w i, Drains host (fun _ _ => True) w₀ w → w.heap.arena.queue.head = some i →
      due w.heap i) : Drains host due w₀ w := by
  induction hd with
  | start => exact .start
  | turn hd hi _ e ih => exact ih.turn hi (hdue _ _ hd hi) e
  | spend _ hhead ih => exact ih.spend hhead
  | pass _ hhead e ih => exact ih.pass hhead e

/-- A drain at the top ends in a world that it has looked at, where the queue is empty. -/
theorem drains_of_drain : After (Engine.top host fuel).drain w₀ fun _ w' => ∃ w,
    Drains host (fun _ _ => True) w₀ w ∧ w.heap.arena.queue.head = none ∧
      w' = ⟨{ w.heap with draining := false }, w.host⟩ := by
  change After (drainQueue _ _ fuel) w₀ _
  unfold drainQueue
  rw [after_bind, after_modifyHeap, after_bind]
  refine (drainLoop_invariant (I := Drains host (fun _ _ => True) w₀) ?_ ?_ ?_ .start).mono ?_
  · exact fun w i hd hi d w' e => hd.turn hi trivial e
  · exact fun w n hd hhead => hd.spend hhead
  · exact fun w hd hhead ran w' e => hd.pass hhead e
  · rintro _ w ⟨hd, hhead⟩
    rw [after_modifyHeap]
    exact ⟨w, hd, hhead, rfl⟩

/-- What holds at the start and is kept by finalizers holds in all worlds of a drain, where every head
so far was due if counts are to be exact. -/
theorem Drains.keeps (hH : host.Keeps T) (hdue : ∀ h i s, T.strict s → due h i → h.Due i)
    (hk : (T.during (Draining []) (yielding_draining []).steady).Holds w₀ X)
    (hd : Drains host due w₀ w) :
    (T.during (Draining []) (yielding_draining []).steady).Holds w X := by
  let T' := T.during (Draining []) (yielding_draining []).steady
  have haside : ∀ {w : World σ} {h : Heap}, Heap.Remarked w.heap h → T'.Holds w X →
      T'.Holds ⟨h, w.host⟩ X :=
    fun hr hk => hk.same fun _ hZ => hZ.remark (yielding_draining []) hr
  induction hd with
  | start => exact haside (.of_alike .refl rfl rfl rfl rfl rfl rfl) hk
  | turn _ hi hdue' e ih =>
    exact settleHead_keeps
      (fun _ q => hH _ (.inr rfl) _ _ (inDrain_keeps hH q) fun _ _ _ hP => hP)
      ih ih.level.1 hi (fun s hs => hdue _ _ s hs hdue') _ _ e
  | spend _ _ ih => exact haside (.of_alike .refl rfl rfl rfl rfl rfl rfl) ih
  | pass _ _ e ih => exact innerPass_keeps hH ih _ _ e

end CountedHeap
