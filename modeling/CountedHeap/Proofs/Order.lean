import CountedHeap.Proofs.Erasure
import CountedHeap.Proofs.Rescue

/-!
# The order of a drain

Cells leave the queue in the order in which they entered it. Whatever a finalizer does, the cell it
runs for stays at the head of the queue, no queued cell is freed, and new cells are queued behind all
others.

* `observe`: a call of a native function that takes note of every heap it comes across, also within
  the finalizers of passes that it sets off.
* `observe_appends`: these heaps follow on one another.
* `History`: the cells that have entered the queue in a drain, and those that have left it.
* `drain_in_order`: first in, first out.
-/

namespace CountedHeap

open Heap (Appends Draining DrainFollows Follows Kept PassFollows Standing yielding_draining)

namespace Heap

variable {h h' : Heap} {i : ℕ} {q : List ℕ} {keep : Bool} {r : Handle}

/-- The heap in which the finalizer of the head is called: its count is held, and the call counted. -/
def called (h : Heap) (i : ℕ) : Heap :=
  (h.beginFinalizer i).modifyCounters fun c => { c with finalizerRuns := c.finalizerRuns + 1 }

/-- The cells in the queue of the second heap that were not in that of the first. -/
def newlyQueued (h h' : Heap) : List Handle :=
  h'.queued.filter (· ∉ h.queued)

theorem Sound.nodup_queued (hs : h.Sound) : h.queued.Nodup :=
  (hs.arena.threaded .queue).nodup.map fun _ _ he => congrArg Handle.index he

theorem queued_eq_nil (hs : h.Sound) (hhead : h.arena.queue.head = none) : h.queued = [] := by
  rw [hs.head_queue] at hhead
  unfold queued
  rw [List.head?_eq_none_iff.mp hhead, List.map_nil]

theorem Sound.head_queued (hs : h.Sound) (hhead : h.arena.queue.head = some i) :
    h.queued.head? = some (h.arena.handleAt i) := by
  rw [hs.head_queue] at hhead
  unfold queued
  rw [List.head?_map, hhead, Option.map_some]

/-- The head stays where it is. -/
theorem Appends.head (ha : Appends h h') (hs : h.Sound) (hhead : h.arena.queue.head = some i) :
    h'.queued.head? = some (h.arena.handleAt i) := by
  obtain ⟨l, hl⟩ := ha.queue
  rw [← hl, List.head?_append, hs.head_queued hhead]
  rfl

theorem Sound.leaveQueue (hs : h.Sound) (hsweep : h.sweeping = false)
    (hi : i ∈ h.arena.members .queue) (keep : Bool) :
    (h.leaveQueue i keep).1.Sound ∧ (h.leaveQueue i keep).1.sweeping = false := by
  have hk : Kept False (fun _ => True) h 0 := ⟨hs, trivial, False.elim⟩
  have hleft : Kept False (Draining []) (h.leaveQueue i keep).1 0 :=
    hk.leaveQueue hsweep hi False.elim
  exact ⟨hleft.sound, hleft.level.1⟩

/-- The queue of a heap is that of an earlier one and what has been queued since. -/
theorem Appends.queued_eq (ha : Appends h h') (hs : h'.Sound) :
    h'.queued = h.queued ++ h.newlyQueued h' := by
  obtain ⟨l, hl⟩ := ha.queue
  have hnd : (h.queued ++ l).Nodup := hl ▸ hs.nodup_queued
  unfold newlyQueued
  rw [← hl, List.filter_append, List.filter_eq_nil_iff.mpr (by simp), List.nil_append,
    List.filter_eq_self.mpr fun r hr => ?_]
  simpa using fun hq => (List.nodup_append.mp hnd).2.2 r hq r hr rfl

/-- A cell that leaves the head of the queue leaves the others as they are, and is not queued again. -/
theorem Sound.queue_leaveQueue (hs : h.Sound) (hi : h.arena.members .queue = i :: q) (keep : Bool) :
    q <+: (h.leaveQueue i keep).1.arena.members .queue ∧
      Standing (q.map h.arena.handleAt) (h.leaveQueue i keep).1 ∧
      i ∉ (h.leaveQueue i keep).1.arena.members .queue := by
  have hmem : i ∈ h.arena.members .queue := by
    rw [hi]
    exact List.mem_cons_self
  have hnot : i ∉ q := by
    have hnd := (hs.arena.threaded .queue).nodup
    rw [hi] at hnd
    exact (List.nodup_cons.mp hnd).1
  have hrest : (h.arena.members .queue).erase i = q := by rw [hi, List.erase_cons_head]
  have hstanding : Standing (q.map h.arena.handleAt) h := by
    intro r hr
    refine hs.standing_queued r ?_
    unfold queued
    rw [hi, List.map_cons]
    exact List.mem_cons_of_mem _ hr
  cases keep with
  | true =>
    have hlinked : (h.arena.linksAt i).chain ≠ none := by
      rw [hs.arena.mem_members.mp hmem]
      simp
    have hqueue : (h.leaveQueue i true).1.arena.members .queue = q := by
      have hmembers := congrFun (hs.arena.rescue hlinked ({ · with finalized := false })).2 .queue
      rw [Function.update_of_ne (by simp), hrest] at hmembers
      exact hmembers
    rw [hqueue]
    refine ⟨List.prefix_rfl, (lasting_standing _).of_core h _ ?_ rfl hstanding, hnot⟩
    exact ((Arena.core_linkHead _).trans (Arena.core_modifyMarks _)).trans Arena.core_unlink
  | false =>
    obtain ⟨n, b, hr, hcomp⟩ := hs.arena.cell_of_mem hmem
    set r := h.arena.handleAt i
    obtain ⟨hevicted, hmembers⟩ := hs.evict hr hcomp
    obtain ⟨hsound, hloose⟩ : ((h.evict r.index).releaseQuietly b.refs).Sound ∧
        Loose (h.evict r.index) ((h.evict r.index).releaseQuietly b.refs) := hevicted.releaseQuietly
    -- The other cells are there when the slot has been emptied, and no release frees them.
    have hothers : Standing (q.map h.arena.handleAt) (h.evict r.index) := by
      intro p hp
      obtain ⟨m, c, hc, hkind⟩ := hstanding p hp
      refine ⟨m, c, ?_, hkind⟩
      obtain ⟨j, hj, rfl⟩ := List.mem_map.mp hp
      unfold Arena.Holds
      rw [core_evict hr, Function.update_of_ne]
      · exact hc
      · exact fun he => hnot ((show j = i from he) ▸ hj)
    rw [show i = r.index from rfl, leaveQueue_false hr]
    refine ⟨?_, (lasting_standing _).yielding _ _ hloose hothers, fun hq => ?_⟩
    · have hqueue := hloose.queue
      rw [hmembers] at hqueue
      exact hrest ▸ hqueue
    · -- A queued cell would be in the slot that has been emptied.
      obtain ⟨m, c, hc, -⟩ := hsound.arena.cell_of_mem hq
      exact emptied_evict hr hc

theorem Sound.queued_leaveQueue (hs : h.Sound) (hs' : (h.leaveQueue i keep).1.Sound)
    (hi : h.arena.queue.head = some i) : h.queued ++ h.newlyQueued (h.leaveQueue i keep).1 =
      h.arena.handleAt i :: (h.leaveQueue i keep).1.queued := by
  rw [hs.head_queue] at hi
  obtain ⟨q, hq⟩ := List.head?_eq_some_iff.mp hi
  obtain ⟨⟨l, hl⟩, hstanding, hnot⟩ := hs.queue_leaveQueue hq keep
  set h' := (h.leaveQueue i keep).1
  have hqueued : h.queued = h.arena.handleAt i :: q.map h.arena.handleAt := by
    unfold queued
    rw [hq, List.map_cons]
  have hkept : q.map h'.arena.handleAt = q.map h.arena.handleAt := by
    refine List.map_congr_left fun j hj => ?_
    obtain ⟨n, b, hb, -⟩ := hstanding _ (List.mem_map_of_mem hj)
    exact hb.handleAt
  have hafter : h'.queued = q.map h.arena.handleAt ++ l.map h'.arena.handleAt := by
    unfold queued
    rw [← hl, List.map_append, hkept]
  have hnd := hs'.nodup_queued
  have hnew : h.newlyQueued h' = l.map h'.arena.handleAt := by
    unfold newlyQueued
    rw [hafter, List.filter_append, hqueued, List.filter_eq_nil_iff.mpr, List.nil_append,
      List.filter_eq_self.mpr]
    · intro r hr
      obtain ⟨j, hj, rfl⟩ := List.mem_map.mp hr
      have hne : h'.arena.handleAt j ≠ h.arena.handleAt i := by
        intro he
        have hji : j = i := congrArg Handle.index he
        exact hnot (hl ▸ List.mem_append_right q (hji ▸ hj))
      have hnotq : h'.arena.handleAt j ∉ q.map h.arena.handleAt := fun hq' =>
        (List.nodup_append.mp (hafter ▸ hnd)).2.2 _ hq' _ (List.mem_map_of_mem hj) rfl
      simpa using ⟨hne, by simpa using hnotq⟩
    · exact fun r hr => by simp [hr]
  rw [hnew, hafter, hqueued, List.cons_append]

end Heap

variable {σ α ε : Type} {host : Host σ} {w₀ w w₁ : World σ} {i fuel : ℕ} {keep : Bool}
  {entered : List Handle} {left : List (Handle × Departure)}

/-! ## While a finalizer runs -/

/-- A native function is called while the queue is worked off. It and whatever is called meanwhile take
note of every heap that they come across. -/
def observe (host : Host σ) (id : NativeId) (v : Value) (w : World σ) :
    Option (Ending × World (σ × List Heap)) :=
  (Engine.inDrain (host.noting fun h => [h])).caller (host.noting fun h => [h]) id v
    ⟨w.heap, w.host, []⟩

/-- What is observed is what happens without notes. -/
theorem observe_erase {id : NativeId} {v : Value} : (Engine.inDrain host).caller host id v w =
    (observe host id v w).map fun p => (p.1, p.2.erase Prod.fst) :=
  ((erases_inDrain erases_noting).run_noting (host id v) ⟨w.heap, w.host, []⟩).symm

/-- A program that takes notes is loyal if its notes are. -/
theorem Program.loyal_noting {look : Heap → List ε} {P : σ × List ε → Heap → Prop}
    (hlook : ∀ s h, h.Sound → P s h → P (s.1, s.2 ++ look h) h)
    (hhost : ∀ s s' h, P s h → P (s', s.2) h) (p : Program σ α) (h : Heap) :
    (p.noting look).Loyal P h := by
  induction p generalizing h with
  | done a => exact ⟨fun s hs hP => hlook s h hs hP, trivial⟩
  | perform op next ih => exact ⟨fun s hs hP => hlook s h hs hP, fun answer h' => ih answer h'⟩
  | readHeap next ih => exact ⟨fun s hs hP => hlook s h hs hP, ih h h⟩
  | readHost next ih => exact ⟨fun s hs hP => hlook s h hs hP, fun s => ih s.1 h⟩
  | modifyHost f next ih =>
    exact ⟨fun s hs hP => hlook s h hs hP, fun s _ hP => hhost s (f s.1) h hP, ih () h⟩

/-- Within a pass and within a drain, the heaps that are noted follow on one another. -/
theorem caller_noting_follows (host : Host σ) (x : Heap) : (∀ q K, Caller.Keeps
      (Engine.inPass.caller (host.noting fun h => [h])) ((Terms.lax (σ × List Heap)).among
        (fun s => PassFollows q K (x :: s.2))
        fun s => (Heap.yielding_passFollows q K (x :: s.2)).steady)) ∧
    ∀ q, Caller.Keeps ((Engine.inDrain (host.noting fun h => [h])).caller
      (host.noting fun h => [h])) ((Terms.lax (σ × List Heap)).among
        (fun s => DrainFollows q (x :: s.2))
        fun s => (Heap.yielding_drainFollows q (x :: s.2)).steady) := by
  have hpass : ∀ q K, Caller.Keeps (Engine.inPass.caller (host.noting fun h => [h]))
      ((Terms.lax (σ × List Heap)).among (fun s => PassFollows q K (x :: s.2))
        fun s => (Heap.yielding_passFollows q K (x :: s.2)).steady) := by
    intro q K id v w X hk
    have hkeeps := inPass_keeps (T := Terms.lax (σ × List Heap))
      fun s => Heap.yielding_passFollows q K (x :: s.2)
    refine hkeeps.run_lax (fun _ => not_false) Terms.rekeys_passFollows _
      (Program.loyal_noting (fun s h hs hP => ⟨hP.1, ?_⟩) (fun _ _ _ hP => hP) _ _) hk
    have hqueue : h.arena.members .queue = q := hP.1.2.1
    exact hqueue ▸ Follows.look (hqueue.symm ▸ hP.2) hs
  refine ⟨hpass, fun q id v w X hk => ?_⟩
  exact (inDrain_follows hpass q).run_lax (fun _ => not_false) Terms.rekeys_drainFollows _
    (Program.loyal_noting (fun s h hs hP => ⟨hP.1, hP.2.look hs⟩) (fun _ _ _ hP => hP) _ _) hk

/-- All heaps that are observed in a call follow on the one that the drain has reached, and on one
another. -/
theorem observe_appends {x h : Heap} {s : σ} {id : NativeId} {v : Value} {ending : Ending}
    {w' : World (σ × List Heap)} (hk : Kept False (DrainFollows [] [x]) h 0)
    (e : observe host id v ⟨h, s⟩ = some (ending, w')) :
    w'.heap.Sound ∧ (x :: w'.host.2 ++ [w'.heap]).Pairwise Appends := by
  have hcall := (caller_noting_follows host x).2 [] id v ⟨h, s, []⟩ 0
    (lax_holds_iff.mpr ⟨hk.sound, hk.level⟩) ending w' e
  exact ⟨hcall.sound, (hcall.level.2.look hcall.sound).order⟩

/-- The head has its count raised when its finalizer is called. -/
theorem Heap.kept_called {h : Heap} (hs : h.Sound) (hsweep : h.sweeping = false)
    (hi : i ∈ h.arena.members .queue) : Kept False (DrainFollows [] [h]) (h.called i) 0 := by
  have hsteady := (Heap.yielding_drainFollows [] [h]).steady
  have hk : Kept False (DrainFollows [] [h]) h 0 :=
    ⟨hs, ⟨Heap.draining_nil hsweep, Heap.follows_nil.look hs⟩, False.elim⟩
  obtain ⟨n, b, hr, -⟩ := hs.arena.cell_of_mem hi
  have hbegun := hk.beginFinalizer hsteady hr
  exact (⟨hbegun.sound, hbegun.level, False.elim⟩ : Kept False (DrainFollows [] [h])
    (h.beginFinalizer i) 0).aside hsteady rfl rfl rfl rfl rfl rfl rfl

/-- A drain that goes on has the same head, and has queued cells behind it, if at all. -/
structure Resumes (w w₁ : World σ) (i : ℕ) : Prop where
  sound : w₁.heap.Sound
  sweeping : w₁.heap.sweeping = false
  appends : Appends w.heap w₁.heap
  head : w₁.heap.arena.queue.head = some i
  mem : i ∈ w₁.heap.arena.members .queue
  handleAt : w₁.heap.arena.handleAt i = w.heap.arena.handleAt i

/-- When the head departs, it is still the head. -/
theorem Departs.resumes (hs : w.heap.Sound) (hsweep : w.heap.sweeping = false)
    (hi : w.heap.arena.queue.head = some i)
    (hd : Departs ((Engine.inDrain host).caller host) i w keep w₁) : Resumes w w₁ i := by
  have hH : host.Keeps (Terms.lax σ) := Host.keeps_lax fun _ => not_false
  have hpass : ∀ q K, Caller.Keeps (Engine.inPass.caller host) ((Terms.lax σ).during
      (PassFollows q K [w.heap]) (Heap.yielding_passFollows q K [w.heap]).steady) := fun q K =>
    hH _ (.inl rfl) _ _ (inPass_keeps fun _ => Heap.yielding_passFollows q K [w.heap])
      (Terms.rekeys_passFollows (L := fun _ => [w.heap]))
  have hdrain : Caller.Keeps ((Engine.inDrain host).caller host) ((Terms.lax σ).during
      (DrainFollows [i] [w.heap]) (Heap.yielding_drainFollows [i] [w.heap]).steady) :=
    hH _ (.inr rfl) _ _ (inDrain_follows (L := fun _ => [w.heap]) hpass [i])
      (Terms.rekeys_drainFollows (L := fun _ => [w.heap]))
  have hw : ((Terms.lax σ).during (DrainFollows [i] [w.heap])
      (Heap.yielding_drainFollows [i] [w.heap]).steady).Holds w 0 :=
    lax_holds_iff.mpr ⟨hs, ((hs.mem_of_head hi).resolve_right (by simp [hsweep])).2,
      Heap.follows_nil.look hs⟩
  have hk := (hd.keeps_at (fun _ => Heap.yielding_drainFollows [i] [w.heap]) (fun _ => hdrain)
    (fun _ h hl => hl.1.2.subset (by simp)) hw).1
  have ha : Appends w.heap w₁.heap := hk.level.2.appends (by simp)
  have hhead := ha.head hs hi
  unfold Heap.queued at hhead
  rw [List.head?_map, ← hk.sound.head_queue] at hhead
  obtain ⟨j, hj, he⟩ := Option.map_eq_some_iff.mp hhead
  obtain rfl : j = i := congrArg Handle.index he
  exact ⟨hk.sound, hk.level.1.1, ha, hj, hk.level.1.2.subset (by simp), he⟩

/-! ## The history of a drain -/

/-- What becomes of the head of the queue. -/
structure HeadTurn (host : Host σ) (w : World σ) (i : ℕ) : Prop where
  /-- Taking note of the heap changes nothing else. -/
  noted : ∀ id v w', (Engine.inDrain host).caller host id v w' =
    (observe host id v w').map fun p => (p.1, p.2.erase Prod.fst)
  /-- Whatever native function is called with the head in whatever state of the host, and whatever it
  does: the heaps that it and all others called meanwhile come across, and the one that it leaves,
  follow on the one before and on one another. -/
  appends : ∀ id s ending w', observe host id (.ref (w.heap.arena.handleAt i))
    ⟨w.heap.called i, s⟩ = some (ending, w') → (w.heap :: w'.host.2 ++ [w'.heap]).Pairwise Appends
  /-- In all of them the head is live and the head. -/
  head : ∀ id s ending w', observe host id (.ref (w.heap.arena.handleAt i))
    ⟨w.heap.called i, s⟩ = some (ending, w') → ∀ h ∈ w'.host.2 ++ [w'.heap],
      h.isLive (w.heap.arena.handleAt i) = true ∧
      h.queued.head? = some (w.heap.arena.handleAt i)
  /-- The head is the one cell that leaves. -/
  leaves : ∀ keep w₁, Departs ((Engine.inDrain host).caller host) i w keep w₁ →
    Appends w.heap w₁.heap ∧ w₁.heap.queued ++ w₁.heap.newlyQueued (w₁.heap.leaveQueue i keep).1 =
      w.heap.arena.handleAt i :: (w₁.heap.leaveQueue i keep).1.queued
  /-- If it is freed, it is gone. -/
  freed : ∀ keep w₁, Departs ((Engine.inDrain host).caller host) i w keep w₁ →
    (w₁.heap.leaveQueue i keep).2 = .freed →
      (w₁.heap.leaveQueue i keep).1.isLive (w.heap.arena.handleAt i) = false
  /-- If it is rescued, it is back on the list of allocated cells. -/
  rescued : ∀ keep w₁, Departs ((Engine.inDrain host).caller host) i w keep w₁ →
    (w₁.heap.leaveQueue i keep).2 = .rescued →
      (w₁.heap.leaveQueue i keep).1.isLive (w.heap.arena.handleAt i) = true ∧
      i ∈ (w₁.heap.leaveQueue i keep).1.arena.members .allocated

theorem headTurn (hs : w.heap.Sound) (hsweep : w.heap.sweeping = false)
    (hi : w.heap.arena.queue.head = some i) : HeadTurn host w i := by
  have hcalled := Heap.kept_called hs hsweep
    ((hs.mem_of_head hi).resolve_right (by simp [hsweep])).1
  refine ⟨fun _ _ _ => observe_erase, ?_, ?_, ?_, ?_, ?_⟩
  · exact fun id s ending w' e => (observe_appends hcalled e).2
  · intro id s ending w' e h hh
    have ha : Appends w.heap h :=
      (List.pairwise_cons.mp (observe_appends hcalled e).2).1 h hh
    exact ⟨ha.live _ (List.mem_of_head? (hs.head_queued hi)), ha.head hs hi⟩
  · intro keep w₁ hd
    have hr := hd.resumes hs hsweep hi
    refine ⟨hr.appends, ?_⟩
    rw [← hr.handleAt]
    exact hr.sound.queued_leaveQueue (hr.sound.leaveQueue hr.sweeping hr.mem keep).1 hr.head
  · intro keep w₁ hd hfreed
    have hr := hd.resumes hs hsweep hi
    rw [← hr.handleAt, Heap.leaveQueue_freed.mp hfreed]
    exact Heap.dead_leaveQueue hr.sound hr.mem
  · intro keep w₁ hd hrescued
    have hr := hd.resumes hs hsweep hi
    rw [← hr.handleAt, Heap.leaveQueue_rescued.mp hrescued]
    exact Heap.live_leaveQueue hr.sound hr.mem

/-- The worlds in which a drain looks for the head of the queue, with the cells that have entered the
queue so far, in their order, and those that have left it, and how. -/
inductive History (host : Host σ) (w₀ : World σ) :
    World σ → List Handle → List (Handle × Departure) → Prop where
  | start : History host w₀ ⟨{ w₀.heap with draining := true }, w₀.host⟩ w₀.heap.queued []
  | turn {w w₁ : World σ} {i : ℕ} {keep : Bool} {entered : List Handle}
      {left : List (Handle × Departure)} : History host w₀ w entered left →
      w.heap.arena.queue.head = some i →
      Departs ((Engine.inDrain host).caller host) i w keep w₁ →
      History host w₀ ⟨(w₁.heap.leaveQueue i keep).1, w₁.host⟩
        (entered ++ w.heap.newlyQueued w₁.heap ++
          w₁.heap.newlyQueued (w₁.heap.leaveQueue i keep).1)
        (left ++ [(w.heap.arena.handleAt i, (w₁.heap.leaveQueue i keep).2)])
  | spend {w : World σ} {n : ℕ} {entered : List Handle} {left : List (Handle × Departure)} :
      History host w₀ w entered left → w.heap.arena.queue.head = none →
      History host w₀ ⟨w.heap.spendTrigger n, w.host⟩ entered left
  | pass {w w' : World σ} {ran : Bool} {entered : List Handle} {left : List (Handle × Departure)} :
      History host w₀ w entered left → w.heap.arena.queue.head = none →
      (Engine.inDrain host).collect {} w = some (ran, w') →
      History host w₀ w' (entered ++ w.heap.newlyQueued w'.heap) left

/-- A drain at the top makes a history, at the end of which the queue is empty. -/
theorem history_of_drain : After (Engine.top host fuel).drain w₀ fun _ w' => ∃ w entered left,
    History host w₀ w entered left ∧ w.heap.arena.queue.head = none ∧
      w' = ⟨{ w.heap with draining := false }, w.host⟩ := by
  change After (drainQueue _ _ fuel) w₀ _
  unfold drainQueue
  rw [after_bind, after_modifyHeap, after_bind]
  refine (drainLoop_invariant (I := fun w => ∃ entered left, History host w₀ w entered left)
    ?_ ?_ ?_ ⟨_, _, .start⟩).mono ?_
  · rintro w i ⟨entered, left, hd⟩ hi
    exact after_settleHead.mpr fun keep w₁ hdep => ⟨_, _, hd.turn hi hdep⟩
  · rintro w n ⟨entered, left, hd⟩ hhead
    exact ⟨_, _, hd.spend hhead⟩
  · rintro w ⟨entered, left, hd⟩ hhead ran w' e
    exact ⟨_, _, hd.pass hhead e⟩
  · rintro _ w ⟨⟨entered, left, hd⟩, hhead⟩
    rw [after_modifyHeap]
    exact ⟨w, entered, left, hd, hhead, rfl⟩

/-- What a step of a drain preserves: the cells that have left are the first of those that have entered,
and the queue has the others. -/
theorem History.invariant (hs : w₀.heap.Sound) (hsweep : w₀.heap.sweeping = false)
    (hh : History host w₀ w entered left) :
    w.heap.Sound ∧ w.heap.sweeping = false ∧ left.map Prod.fst ++ w.heap.queued = entered := by
  induction hh with
  | start => exact ⟨⟨hs.arena, hs.freeRoots, hs.rootsFree⟩, hsweep, rfl⟩
  | @turn w w₁ i keep entered left _ hi hd ih =>
    obtain ⟨hs, hsweep, rfl⟩ := ih
    have hr := hd.resumes hs hsweep hi
    obtain ⟨ha, hleaves⟩ := (headTurn hs hsweep hi).leaves keep w₁ hd
    obtain ⟨hs', hsweep'⟩ := hr.sound.leaveQueue hr.sweeping hr.mem keep
    refine ⟨hs', hsweep', ?_⟩
    rw [List.append_assoc (left.map Prod.fst), ← ha.queued_eq hr.sound, List.append_assoc, hleaves,
      List.map_append, List.map_cons, List.map_nil, List.append_assoc, List.singleton_append]
  | spend _ _ ih => exact ⟨⟨ih.1.arena, ih.1.freeRoots, ih.1.rootsFree⟩, ih.2⟩
  | @pass w w' ran entered left _ hhead e ih =>
    obtain ⟨hs, hsweep, rfl⟩ := ih
    have hH : host.Keeps (Terms.lax σ) := Host.keeps_lax fun _ => not_false
    have hk : ((Terms.lax σ).during (Draining []) (yielding_draining []).steady).Holds w' 0 :=
      innerPass_keeps hH (lax_holds_iff.mpr ⟨hs, Heap.draining_nil hsweep⟩) _ _ e
    refine ⟨hk.sound, hk.level.1, ?_⟩
    have hempty := Heap.queued_eq_nil hs hhead
    unfold Heap.newlyQueued
    simp [hempty]

/-- First in, first out. In a drain, whatever finalizers do, the cells that have left the queue are
those that entered it first, in that order, and each entry leaves it once; a drain that ends has dealt
with all of them. While native functions run for the head, it stays there, and others are only queued
behind those that are. -/
theorem drain_in_order (hs : w₀.heap.Sound) (hsweep : w₀.heap.sweeping = false) :
    (∀ w entered left, History host w₀ w entered left →
      left.map Prod.fst ++ w.heap.queued = entered ∧
      ∀ i, w.heap.arena.queue.head = some i → HeadTurn host w i) ∧
    ∀ fuel, After (Engine.top host fuel).drain w₀ fun _ w' => ∃ w entered left,
      History host w₀ w entered left ∧ left.map Prod.fst = entered ∧ w'.heap.queued = [] ∧
        w' = ⟨{ w.heap with draining := false }, w.host⟩ := by
  refine ⟨fun w entered left hh => ?_, fun fuel => ?_⟩
  · obtain ⟨hs, hsweep, he⟩ := hh.invariant hs hsweep
    exact ⟨he, fun i hi => headTurn hs hsweep hi⟩
  · refine history_of_drain.mono ?_
    rintro _ _ ⟨w, entered, left, hh, hhead, rfl⟩
    obtain ⟨hs, -, he⟩ := hh.invariant hs hsweep
    have hempty := Heap.queued_eq_nil hs hhead
    rw [hempty, List.append_nil] at he
    exact ⟨w, entered, left, hh, he, hempty, rfl⟩

/-- An array is dropped and a drain begins: the array is freed, which queues its two elements, and the
first of these has its turn. -/
theorem drain_in_order_elements : unpaired.heap.Sound ∧ unpaired.heap.sweeping = false ∧
    ∃ w entered left, History pairHost unpaired w entered left ∧
      entered = [⟨5, 0⟩, ⟨2, 0⟩, ⟨4, 0⟩] ∧ left = [(⟨5, 0⟩, .freed)] ∧
      left.map Prod.fst ++ w.heap.queued = entered ∧ HeadTurn pairHost w 2 := by
  have hs : unpaired.heap.Sound := kept_unpaired.sound
  have hsweep : unpaired.heap.sweeping = false := kept_unpaired.level.1
  let w : World Unit := ⟨{ unpaired.heap with draining := true }, ()⟩
  have hplain : Departs ((Engine.inDrain pairHost).caller pairHost) 5 w false w :=
    .plain (by decide +kernel)
  have hfirst := (History.start : History pairHost unpaired w _ _).turn (by decide +kernel) hplain
  obtain ⟨horder, hturn⟩ := (drain_in_order hs hsweep).1 _ _ _ hfirst
  exact ⟨hs, hsweep, _, _, _, hfirst, by decide +kernel, by decide +kernel, horder,
    hturn 2 (by decide +kernel)⟩

end CountedHeap
