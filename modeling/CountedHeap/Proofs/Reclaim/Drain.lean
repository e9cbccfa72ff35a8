import CountedHeap.Proofs.Reclaim.Pass

/-!
# Drains keep the terms

The head of the queue is rescued if something counts it after its finalizer has run, and otherwise
freed. A cell whose finalizer has run already, or that has none, is freed without a look at its count.
So the terms are kept at every turn at which the head has a finalizer to run or is not counted.

* `Heap.Draining`: no pass is under way, and the queue has grown at its tail, if at all.
* `Kept.leaveQueue`: the head leaves the queue.
* `Departs`, `settleHead_keeps`: one turn.
* `workOff_invariant`, `drainLoop_invariant`: what every turn and every voluntary pass keeps holds in
  the end.
-/

namespace CountedHeap

namespace Heap

variable {h h' : Heap} {X : Multiset Handle} {q : List ℕ} {r : Handle} {n i : ℕ} {b : Body}

/-- No pass is under way, and the queue starts with these cells. -/
def Draining (queue : List ℕ) (h : Heap) : Prop :=
  h.sweeping = false ∧ queue <+: h.arena.members .queue

theorem yielding_draining (queue : List ℕ) : Yielding (Draining queue) := by
  rintro h h' hl ⟨hsweep, hqueue⟩
  exact ⟨hl.sweeping.trans hsweep, hqueue.trans hl.queue⟩

theorem draining_nil (hsweep : h.sweeping = false) : Draining [] h :=
  ⟨hsweep, List.nil_prefix⟩

/-- The head of the queue is the first of its members. -/
theorem Sound.head_queue (hs : h.Sound) :
    h.arena.queue.head = (h.arena.members .queue).head? :=
  (hs.arena.threaded .queue).head

/-- Where no cell is queued, every composite cell is allocated. -/
theorem Sound.allocated (hs : h.Sound) (hqueue : h.arena.members .queue = [])
    (hr : h.arena.Composite r) : r.index ∈ h.arena.members .allocated := by
  obtain ⟨n, b, hb, hcomp⟩ := hr
  have hlinked := (hs.arena.linked r.index).mpr ⟨_, n, b, hb, hcomp⟩
  cases hchain : (h.arena.linksAt r.index).chain with
  | none => exact absurd hchain hlinked
  | some ch =>
    have hmem := hs.arena.mem_members.mpr hchain
    cases ch with
    | allocated => exact hmem
    | queue => simp [hqueue] at hmem

theorem Sound.mem_of_head (hs : h.Sound) (hi : h.arena.queue.head = some i) :
    i ∈ h.arena.members .queue ∧ Draining [i] h ∨ h.sweeping = true := by
  rw [hs.head_queue] at hi
  cases hsweep : h.sweeping with
  | true => exact .inr rfl
  | false =>
    obtain ⟨l, hl⟩ := List.head?_eq_some_iff.mp hi
    exact .inl ⟨by rw [hl]; simp, hsweep, ⟨l, by rw [hl]; rfl⟩⟩

/-! ## The head leaves the queue -/

/-- The heap once a cell has left its list and its slot has been emptied. -/
def evict (h : Heap) (i : ℕ) : Heap :=
  (((h.modifyArena (·.unlink i)).forgetCurrent i).modifyArena (·.release i)).modifyCounters
    fun c => { c with queueFrees := c.queueFrees + 1 }

theorem core_evict (hr : h.arena.Holds r n b) : (h.evict r.index).arena.core =
    Function.update h.arena.core r.index (some (r.generation + 1, none)) := by
  have := Arena.core_release (a := h.arena.unlink r.index) hr.unlink
  rwa [Arena.core_unlink] at this

theorem Sound.evict (hs : h.Sound) (hr : h.arena.Holds r n b) (hc : b.isComposite = true) :
    (h.evict r.index).Sound ∧
      (h.evict r.index).arena.members = fun ch => (h.arena.members ch).erase r.index := by
  obtain ⟨hsound, hmem⟩ := hs.arena.remove hr hc
  exact ⟨⟨hsound, hs.freeRoots, hs.rootsFree⟩, hmem⟩

/-- What a cell that nothing counts refers to is in flight once its slot has been emptied. -/
theorem Balanced.evict (hb : h.Balanced ∅ X) (hr : h.arena.Holds r 0 b) :
    (h.evict r.index).Balanced ∅ (X + b.refs) := by
  -- The references of the cell are set aside while its slot is emptied.
  have haside : h.Balanced {r.index} (X + b.refs) := by
    refine hb.shift rfl ?_
    have hinsert := Arena.owned_insert (a := h.arena) (Finset.notMem_empty r.index)
    rw [insert_empty_eq, hr.refsAt] at hinsert
    unfold stored
    rw [← hinsert]
    abel
  have hcore := core_evict hr
  have hfreed : (h.evict r.index).Balanced {r.index} (X + b.refs) :=
    haside.free hr (.inl (Finset.mem_singleton_self _)) hcore rfl rfl
  refine hfreed.shift rfl ?_
  have hinsert := Arena.owned_insert (a := (h.evict r.index).arena) (Finset.notMem_empty r.index)
  rw [insert_empty_eq, Arena.refsAt_eq_core, hcore, Function.update_self] at hinsert
  unfold stored
  rw [← hinsert]
  simp

theorem headFinalizer_eq_none (hu : h.Unfinalized) : h.headFinalizer i = none := by
  unfold headFinalizer
  split
  · split
    · rfl
    · exact hu _
  · exact hu _

/-- The head is kept if it has a count that is not its finalizer's. -/
theorem endHeadFinalizer_eq {c : Cell} (hc : h.arena.cellAt? i = some c) :
    h.endHeadFinalizer i = (h.endFinalizer i, !c.header.isLast) := by
  unfold endHeadFinalizer
  rw [hc]

theorem counted_endFinalizer (hi : (h.endHeadFinalizer i).2 = false) :
    (h.endFinalizer i).arena.counted ((h.endFinalizer i).arena.handleAt i) = 0 := by
  rw [Arena.counted_handleAt, show (h.endFinalizer i).arena =
    h.arena.modifyAt i (·.modifyHeader .release) from rfl, Arena.cellAt?_modifyAt, if_pos rfl]
  cases hc : h.arena.cellAt? i with
  | none => rfl
  | some c =>
    rw [endHeadFinalizer_eq hc] at hi
    have hone : c.header.count = 1 := by simpa [Header.isLast] using hi
    simp [Cell.modifyHeader, Header.release, hone]

/-- A cell leaves the queue for good. -/
theorem leaveQueue_false (hr : h.arena.Holds r n b) :
    (h.leaveQueue r.index false).1 = (h.evict r.index).releaseQuietly b.refs := by
  obtain ⟨c, hc, -, rfl⟩ := (hr.unlink (i := r.index)).get?
  have hcell := Arena.cellAt?_of_get? hc
  unfold leaveQueue freeComposite
  simp only [Bool.false_eq_true, if_false]
  rw [show (h.modifyArena (·.unlink r.index)).arena.cellAt? r.index = some c from hcell]
  rfl

namespace Kept

variable {s : Prop} {P : Heap → Prop}

/-- A cell that leaves the queue is rescued, or freed if nothing counts it. -/
theorem leaveQueue (hk : Kept s P h X) (hsweep : h.sweeping = false)
    (hi : i ∈ h.arena.members .queue) {keep : Bool}
    (hzero : s → keep = false → h.arena.counted (h.arena.handleAt i) = 0) :
    Kept s (Draining []) (h.leaveQueue i keep).1 X := by
  obtain ⟨n, b, hr, hcomp⟩ := hk.sound.arena.cell_of_mem hi
  cases keep with
  | true =>
    have hlinked : (h.arena.linksAt i).chain ≠ none := by
      rw [hk.sound.arena.mem_members.mp hi]
      simp
    have hsound := (hk.sound.arena.rescue hlinked ({ · with finalized := false })).1
    refine ⟨⟨hsound, hk.sound.freeRoots, hk.sound.rootsFree⟩, draining_nil hsweep, fun hs => ?_⟩
    exact (hk.balanced hs).of_core (((Arena.core_linkHead _).trans
      (Arena.core_modifyMarks _)).trans Arena.core_unlink) rfl rfl
  | false =>
    set r := h.arena.handleAt i
    rw [show i = r.index from rfl, leaveQueue_false hr]
    obtain ⟨hsound, hloose⟩ : ((h.evict r.index).releaseQuietly b.refs).Sound ∧
        Loose (h.evict r.index) ((h.evict r.index).releaseQuietly b.refs) :=
      (hk.sound.evict hr hcomp).1.releaseQuietly
    refine ⟨hsound, draining_nil (hloose.sweeping.trans hsweep), fun hs => ?_⟩
    have hn := hzero hs rfl
    rw [hr.counted] at hn
    subst hn
    exact Balanced.releaseQuietly ((hk.balanced hs).evict hr)

end Kept

end Heap

/-! ## Turns -/

section

variable {σ : Type} {call : Caller σ} {collect : Action σ Bool} {T : Terms σ} {w : World σ}
  {X : Multiset Handle} {i n fuel : ℕ} {P : Heap → Prop} {hP : Heap.Steady P}

/-- How the head of the queue comes to leave it, and whether it is kept: it goes at once, or after its
finalizer has run and the count that this held has been taken back. -/
inductive Departs (call : Caller σ) (i : ℕ) (w : World σ) : Bool → World σ → Prop where
  | plain : w.heap.headFinalizer i = none → Departs call i w false w
  | finalized {f : Heap.Finalizer} {w₁ : World σ} : w.heap.headFinalizer i = some f →
      runFinalizer call (w.heap.arena.handleAt i) f ⟨w.heap.beginFinalizer i, w.host⟩ =
        some ((), w₁) →
      Departs call i w (w₁.heap.endHeadFinalizer i).2 ⟨(w₁.heap.endHeadFinalizer i).1, w₁.host⟩

/-- A turn is a departure, after which the head leaves the queue. -/
theorem after_settleHead {Q : Departure → World σ → Prop} : After (settleHead call i) w Q ↔
    ∀ keep w₁, Departs call i w keep w₁ →
      Q (w₁.heap.leaveQueue i keep).2 ⟨(w₁.heap.leaveQueue i keep).1, w₁.host⟩ := by
  unfold settleHead
  rw [after_bind, after_query]
  cases hf : w.heap.headFinalizer i with
  | none =>
    rw [after_change]
    constructor
    · rintro hQ keep w₁ (_ | ⟨hf', -⟩)
      · exact hQ
      · rw [hf] at hf'
        cases hf'
    · exact fun hQ => hQ false w (.plain hf)
  | some f =>
    dsimp only
    simp only [after_bind, after_query, after_modifyHeap, after_change]
    constructor
    · rintro hQ keep w₁ (hf' | ⟨hf', e⟩)
      · rw [hf] at hf'
        cases hf'
      · rw [hf] at hf'
        cases hf'
        exact hQ () _ e
    · intro hQ _ w₁ e
      have hdone := hQ _ _ (Departs.finalized hf e)
      exact hdone

/-- The cell at the head of the queue has a finalizer to run, or nothing counts it. -/
def Heap.Due (h : Heap) (i : ℕ) : Prop :=
  h.headFinalizer i = none → h.arena.counted (h.arena.handleAt i) = 0

/-- When the head departs the terms are met, at any level at which it stays in the queue. It is not
kept if nothing counts it but its own finalizer has seen it. -/
theorem Departs.keeps_at {keep : Bool} {w₁ : World σ} {P' : σ → Heap → Prop}
    (hP' : ∀ s, Heap.Yielding (P' s))
    (hcall : ¬ w.heap.Unfinalized → Caller.Keeps call (T.among P' fun s => (hP' s).steady))
    (hlinked : ∀ s h, P' s h → i ∈ h.arena.members .queue)
    (hk : (T.among P' fun s => (hP' s).steady).Holds w X)
    (hd : Departs call i w keep w₁) : (T.among P' fun s => (hP' s).steady).Holds w₁ X ∧
      (keep = false → w.heap.headFinalizer i = none ∨
        w₁.heap.arena.counted (w₁.heap.arena.handleAt i) = 0) := by
  cases hd with
  | plain hf => exact ⟨hk, fun _ => .inl hf⟩
  | @finalized f w₁ hf e =>
    have hfinalized : ¬ w.heap.Unfinalized := by
      intro hu
      rw [Heap.headFinalizer_eq_none hu] at hf
      cases hf
    obtain ⟨hbumped, hended⟩ := (hcall hfinalized).guarded hP' hk (fun s h hs hl => by
      rw [hs.arena.mem_members.mp (hlinked s h hl)]
      simp) rfl () w₁ e
    obtain ⟨m, b, hr, -⟩ := hbumped.sound.arena.cell_of_mem (hlinked _ _ hbumped.level)
    obtain ⟨c, hc, -, -⟩ := hr.get?
    rw [Arena.get?_handleAt] at hc
    have hfst : (w₁.heap.endHeadFinalizer i).1 = w₁.heap.endFinalizer i := by
      rw [Heap.endHeadFinalizer_eq hc]
    rw [hfst]
    exact ⟨hended, fun hkeep => .inr (Heap.counted_endFinalizer hkeep)⟩

theorem Departs.keeps {keep : Bool} {w₁ : World σ}
    (hcall : ¬ w.heap.Unfinalized → ∀ q,
      Caller.Keeps call (T.during (Heap.Draining q) (Heap.yielding_draining q).steady))
    (hk : (T.during P hP).Holds w X) (hsweep : w.heap.sweeping = false)
    (hi : w.heap.arena.queue.head = some i) (hd : Departs call i w keep w₁) :
    (T.during (Heap.Draining [i]) (Heap.yielding_draining [i]).steady).Holds w₁ X ∧
      (keep = false → w.heap.headFinalizer i = none ∨
        w₁.heap.arena.counted (w₁.heap.arena.handleAt i) = 0) := by
  have hdraining := ((hk.sound.mem_of_head hi).resolve_right (by simp [hsweep])).2
  exact hd.keeps_at (fun _ => Heap.yielding_draining [i]) (fun hf => hcall hf [i])
    (fun _ h hl => hl.2.subset (by simp)) (hk.relevel hdraining)

/-- One turn keeps the terms if the head has a finalizer to run or is not counted. -/
theorem settleHead_keeps
    (hcall : ¬ w.heap.Unfinalized → ∀ q,
      Caller.Keeps call (T.during (Heap.Draining q) (Heap.yielding_draining q).steady))
    (hk : (T.during P hP).Holds w X) (hsweep : w.heap.sweeping = false)
    (hi : w.heap.arena.queue.head = some i) (hdue : ∀ s, T.strict s → w.heap.Due i) :
    After (settleHead call i) w fun _ w' =>
      (T.during (Heap.Draining []) (Heap.yielding_draining []).steady).Holds w' X := by
  refine after_settleHead.mpr fun keep w₁ hd => ?_
  obtain ⟨hk₁, hzero⟩ := hd.keeps hcall hk hsweep hi
  refine hk₁.leaveQueue hk₁.level.1 (hk₁.level.2.subset (by simp)) fun hs hkeep => ?_
  rcases hzero hkeep with hf | hcounted
  · cases hd with
    | plain _ => exact hdue _ hs hf
    | finalized hf' _ =>
      rw [hf] at hf'
      cases hf'
  · exact hcounted

/-- The queue is worked off, given what is done with its head. -/
def workOff (settle : ℕ → Action σ Departure) (collect : Action σ Bool) : ℕ → ℕ → Action σ Unit
  | 0, _ => fun _ => none
  | fuel + 1, freed => do
    match ← query (·.arena.queue.head) with
    | some i =>
      match ← settle i with
      | .freed => workOff settle collect fuel (freed + 1)
      | .rescued => workOff settle collect fuel freed
    | none =>
      let paced ← query (·.config.voluntary)
      if freed = 0 || !paced then pure ()
      else
        modifyHeap (·.spendTrigger freed)
        let exhausted ← query fun h => decide (h.trigger ≤ 0)
        if exhausted then
          let _ ← collect
          let queued ← query (·.arena.queue.head.isSome)
          if queued then workOff settle collect fuel 0

theorem drainLoop_eq :
    drainLoop call collect fuel n = workOff (settleHead call) collect fuel n := by
  induction fuel generalizing n with
  | zero => rfl
  | succ fuel ih =>
    unfold drainLoop workOff
    refine bind_congr fun head => ?_
    cases head with
    | some i =>
      refine bind_congr fun d => ?_
      cases d with
      | freed => exact ih
      | rescued => exact ih
    | none => simp only [ih]

/-- What every turn and every voluntary pass keeps holds when the queue has been worked off. -/
theorem workOff_invariant {settle : ℕ → Action σ Departure} {I : World σ → Prop}
    (hturn : ∀ w i, I w → w.heap.arena.queue.head = some i → After (settle i) w fun _ w' => I w')
    (hspend : ∀ w n, I w → w.heap.arena.queue.head = none → I ⟨w.heap.spendTrigger n, w.host⟩)
    (hpass : ∀ w, I w → w.heap.arena.queue.head = none → After collect w fun _ w' => I w')
    (hI : I w) : After (workOff settle collect fuel n) w fun _ w' =>
      I w' ∧ w'.heap.arena.queue.head = none := by
  induction fuel generalizing w n with
  | zero => exact after_none.mpr trivial
  | succ fuel ih =>
    unfold workOff
    rw [after_bind, after_query]
    cases hhead : w.heap.arena.queue.head with
    | some i =>
      dsimp only
      rw [after_bind]
      refine (hturn w i hI hhead).mono fun d w' hI' => ?_
      cases d with
      | freed => exact ih hI'
      | rescued => exact ih hI'
    | none =>
      dsimp only
      rw [after_bind, after_query]
      split
      · exact after_pure.mpr ⟨hI, hhead⟩
      · simp only [after_bind, after_modifyHeap, after_query]
        split
        · rw [after_bind]
          refine (hpass _ (hspend w n hI hhead) hhead).mono fun _ w' hI' => ?_
          rw [after_bind, after_query]
          split
          · exact ih hI'
          · rename_i hqueue
            exact after_pure.mpr ⟨hI', by simpa using hqueue⟩
        · exact after_pure.mpr ⟨hspend w n hI hhead, hhead⟩

theorem drainLoop_invariant {I : World σ → Prop}
    (hturn : ∀ w i, I w → w.heap.arena.queue.head = some i →
      After (settleHead call i) w fun _ w' => I w')
    (hspend : ∀ w n, I w → w.heap.arena.queue.head = none → I ⟨w.heap.spendTrigger n, w.host⟩)
    (hpass : ∀ w, I w → w.heap.arena.queue.head = none → After collect w fun _ w' => I w')
    (hI : I w) : After (drainLoop call collect fuel n) w fun _ w' =>
      I w' ∧ w'.heap.arena.queue.head = none := by
  rw [drainLoop_eq]
  exact workOff_invariant hturn hspend hpass hI

end

end CountedHeap
