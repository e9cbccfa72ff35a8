import CountedHeap.Proofs.Invariance
import CountedHeap.Proofs.Order

/-!
# Between operations nothing is under way

When an operation at the top is over, no drain and no pass is under way, the queue is empty, and every
composite cell is allocated, whatever finalizers have done. If what a finalizer leaves behind still has
the count that the finalizer held, then every live cell is counted as well.

* `Engine.vigilant`: the engine at the top, where a drain has no result if the count that a finalizer
  held has been given back by something else.
* `keeps_tight`, `Departs.tight`: what operations within a drain and a turn of it preserve.
* `vigilant_keeps`: every operation leaves all allocated cells counted.
* `quiescent`: nothing is under way between operations, and every live cell is counted.
-/

namespace CountedHeap

open Heap (AtRest Draining DrainFollows Kept OutsidePass Tight Turns Withers yielding_draining
  yielding_drainFollows)

namespace Heap

variable {h h' : Heap} {i : ℕ} {n : ℕ} {b : Body} {r : Handle}

/-! ## Flags -/

theorem Touch.draining (ht : Touch h h') : h'.draining = h.draining := by
  cases ht with
  | retain r =>
    unfold Heap.retain
    split <;> rfl
  | body => rfl
  | aside _ _ _ hdraining => exact hdraining

theorem Turn.draining (ht : Turn h h') : h'.draining = h.draining := by
  cases ht with
  | stroke hs =>
    cases hs with
    | touch ht => exact ht.draining
    | roots => rfl
    | link => rfl
    | builtin => rfl
    | resize => rfl
    | place => rfl
  | shift hs =>
    cases hs with
    | touch ht => exact ht.draining
    | thread => rfl
    | current => rfl
  | key => rfl

/-! ## Cells that leave the queue -/

/-- A cell that leaves the queue is counted if it is kept. -/
theorem Tight.leaveQueue (ht : h.Tight) (hs : h.Sound) (hsweep : h.sweeping = false)
    (hi : i ∈ h.arena.members .queue) {keep : Bool}
    (hkeep : keep = true → 0 < h.arena.counted (h.arena.handleAt i)) :
    (h.leaveQueue i keep).1.Tight := by
  obtain ⟨n, b, hr, hcomp⟩ := hs.arena.cell_of_mem hi
  cases keep with
  | true =>
    have hlinked : (h.arena.linksAt i).chain ≠ none := by
      rw [hs.arena.mem_members.mp hi]
      simp
    have hcore : (h.leaveQueue i true).1.arena.core =
        Function.update h.arena.core i (some ((h.arena.handleAt i).generation, some (n, b))) := by
      refine (((Arena.core_linkHead _).trans (Arena.core_modifyMarks _)).trans
        Arena.core_unlink).trans ?_
      rw [Function.eq_update_iff]
      exact ⟨hr, fun _ _ => rfl⟩
    refine ht.update hcore (fun j hj hmem => ?_) fun m c he _ => ?_
    · have hmembers := congrFun (hs.arena.rescue hlinked ({ · with finalized := false })).2 .allocated
      rw [Function.update_self] at hmembers
      have hmem' : j ∈ i :: (h.arena.members .allocated).erase i := hmembers ▸ hmem
      exact List.mem_of_mem_erase ((List.mem_cons.mp hmem').resolve_left hj)
    · cases he
      have hpos := hkeep rfl
      rwa [hr.counted] at hpos
  | false =>
    set r := h.arena.handleAt i
    rw [show i = r.index from rfl, leaveQueue_false hr]
    exact (ht.evict hs hr hcomp).releaseQuietly (hs.evict hr hcomp).1 hsweep

/-- The finalizer's count of a queued cell is taken back. Other cells keep theirs. -/
theorem Tight.endFinalizer (ht : h.Tight) (hs : h.Sound) (hi : i ∈ h.arena.members .queue) :
    (h.endFinalizer i).Tight := by
  obtain ⟨n, b, hr, hcomp⟩ := hs.arena.cell_of_mem hi
  have hcore : (h.endFinalizer i).arena.core = Function.update h.arena.core i
      (some ((h.arena.handleAt i).generation, some (n - 1, b))) := by
    have huncount : h.endFinalizer i = h.uncount (h.arena.handleAt i).index := rfl
    rw [huncount, core_uncount hr]
    rfl
  have hmembers : (h.endFinalizer i).arena.members = h.arena.members := by
    have hlinks : (h.endFinalizer i).arena.linksAt = h.arena.linksAt := linksAt_uncount
    have hends : (h.endFinalizer i).arena.ends = h.arena.ends := rfl
    exact (hs.arena.threaded.congr hends hlinks).members_eq
  refine ht.update hcore (fun j _ hj => hmembers ▸ hj) fun m c _ hj => ?_
  rw [hmembers] at hj
  exact Chain.noConfusion (hs.arena.threaded.eq_of_mem hj hi)

/-- The count of a cell is raised while its finalizer runs. -/
theorem holds_beginFinalizer (hr : h.arena.Holds r n b) :
    (h.beginFinalizer r.index).arena.Holds r (n + 1) b := by
  have hcore := Kept.core_recount hr (fun _ => rfl) (m := n + 1)
    (f := fun c => (c.modifyMarks ({ · with finalized := true })).modifyHeader .acquire)
    (by rintro c rfl; rfl)
  unfold Arena.Holds
  exact (congrFun hcore r.index).trans (Function.update_self ..)

theorem holds_endFinalizer (hr : h.arena.Holds r n b) :
    (h.endFinalizer r.index).arena.Holds r (n - 1) b :=
  (congrFun (core_uncount hr) r.index).trans (Function.update_self ..)

end Heap

variable {σ : Type} {host : Host σ} {call : Caller σ} {w w₁ : World σ} {X : Multiset Handle}
  {fuel i : ℕ} {keep : Bool} {o : PassOptions}

/-! ## Nothing is under way -/

/-- Outside of drains, no operation leaves a drain under way. -/
theorem top_draining {β : Type} (op : Operation β) (hd : w.heap.draining = false) :
    After ((Engine.top host fuel).perform op).run w fun _ w' => w'.heap.draining = false := by
  have hwither : (keeping σ (·.draining = false)).Withering :=
    fun _ _ hw hI => hw.draining.trans hI
  have hturn : (keeping σ (·.draining = false)).Turning :=
    turning_keeping fun _ _ ht hI => ht.draining.trans hI
  have hfin : (keeping σ (·.draining = false)).Finalizes .plain .plain host host :=
    running_keeping.finalizes hwither (Simulation.relates_plain hturn)
  refine (Simulation.agree_top (P := .plain) hwither hfin ?_).perform_all hturn op w hd
  -- A drain ends with the flag cleared.
  intro w _
  change After (drainQueue _ _ fuel) w _
  unfold drainQueue
  rw [after_bind, after_modifyHeap, after_bind]
  exact fun _ _ _ => after_modifyHeap.mpr rfl

theorem Reachable.draining (hw : Reachable host w) : w.heap.draining = false := by
  induction hw with
  | start config s => rfl
  | perform _ e ih => exact top_draining _ ih _ _ e
  | host s _ ih => exact ih

/-! ## Vigilant drains -/

/-- A call that has a result only if the cell that it is passed is still counted. -/
def Caller.vigilant (call : Caller σ) : Caller σ :=
  fun id v w => (call id v w).filter fun p => v.refs.all fun r => p.2.heap.count? r != some 0

/-- The engine at the top, where a drain goes on after a finalizer only if the cell has a count, which
the finalizer has held: nothing else may have given it back. -/
def Engine.vigilant (host : Host σ) (fuel : ℕ) : Engine σ :=
  let drain := drainQueue ((Engine.inDrain host).caller host).vigilant
    ((Engine.inDrain host).collect {}) fuel
  { drain := drain
    collect := pass (Engine.inPass.caller host) drain
    slack := fuel }

theorem restricting_vigilant (id : NativeId) (v : Value) :
    (restricting σ).rel (call.vigilant id v) (call id v) :=
  fun _ _ e => (Option.filter_eq_some_iff.mp e).1

/-- A pass within a drain leaves no allocated cell at zero. -/
theorem tight_innerPass (hs : w.heap.Sound) :
    After (pass (Engine.inPass.caller host) (pure ()) o) w fun _ w' => w'.heap.Tight := by
  have hk : ((Terms.lax σ).during (fun _ => True) fun _ _ _ _ => trivial).Holds w 0 :=
    lax_holds_iff.mpr ⟨hs, trivial⟩
  refine pass_after (passBody_keeps (R := fun _ _ => True) (fun _ => Heap.lasting_true) trivial
    (fun _ K => ?_) hk) ?_ ?_
  · exact Host.keeps_lax (fun _ => not_false) _ (.inl rfl) _ _ (inPass_keeps fun _ =>
      (Heap.yielding_withinPass _ K).and Heap.lasting_true.yielding) fun _ _ _ hP => hP
  · rintro w' ⟨zero, -, hre, -⟩
    exact hre.tight
  · rintro n w' ⟨zero, -, hre, -⟩
    exact after_pure.mpr hre.tight

theorem steady_tight : Heap.Steady Tight :=
  fun _ _ hc ht => hc.tight ht

/-- Within a drain, operations leave allocated cells counted. -/
theorem keeps_tight {P : Heap → Prop} {hP : Heap.Steady P} (hsweep : ∀ h, P h → h.sweeping = false)
    (K : (Engine.inDrain host).Keeps ((Terms.lax σ).during P hP)) :
    (Engine.inDrain host).Keeps ((Terms.lax σ).during (fun h => P h ∧ h.Tight)
      fun h h' hc hl => ⟨hP h h' hc hl.1, steady_tight h h' hc hl.2⟩) where
  release w X r hk := by
    obtain ⟨hs, hl, ht⟩ := lax_holds_iff.mp hk
    have htight : After ((Engine.inDrain host).release r) w fun _ w' => w'.heap.Tight := by
      have hrelease := ht.release (r := r) hs (hsweep _ hl)
      unfold Engine.release
      rw [after_bind, after_change]
      split <;> exact after_pure.mpr hrelease
    have hkept := K.release w X r (lax_holds_iff.mpr ⟨hs, hl⟩)
    refine (hkept.and htight).mono fun _ w' h => ⟨?_, h.1.2⟩
    obtain ⟨hs', hl'⟩ := lax_holds_iff.mp h.1.1
    exact lax_holds_iff.mpr ⟨hs', hl', h.2⟩
  collect w X o hk := by
    obtain ⟨hs, hl, ht⟩ := lax_holds_iff.mp hk
    have hkept := K.collect w X o (lax_holds_iff.mpr ⟨hs, hl⟩)
    refine (hkept.and (tight_innerPass (o := o) hs)).mono fun _ w' h => ⟨?_, h.1.2⟩
    obtain ⟨hs', hl'⟩ := lax_holds_iff.mp h.1.1
    exact lax_holds_iff.mpr ⟨hs', hl', h.2⟩

/-- The finalizer of a cell that is counted leaves it counted, if its call is vigilant. -/
theorem runFinalizer_vigilant {r : Handle} {f : Heap.Finalizer} (hr : w.heap.count? r ≠ some 0) :
    After (runFinalizer call.vigilant r f) w fun _ w' => w'.heap.count? r ≠ some 0 := by
  unfold runFinalizer
  simp only [after_bind, after_modifyHeap, after_query]
  have hend : ∀ (w' : World σ) (ending : Ending), w'.heap.count? r ≠ some 0 →
      After (if ending ≠ .returned then modifyHeap (·.modifyCounters fun c =>
        { c with finalizerErrors := c.finalizerErrors + 1 }) else pure ()) w'
        fun _ w'' => w''.heap.count? r ≠ some 0 := by
    intro w' ending hr'
    split
    · exact after_modifyHeap.mpr hr'
    · exact after_pure.mpr hr'
  split
  · rw [after_bind]
    intro ending w' e
    have hcounted := (Option.filter_eq_some_iff.mp e).2
    exact hend w' ending (by simpa [Value.refs, Value.handle?] using hcounted)
  · rw [after_bind, after_pure]
    exact hend _ _ hr

/-- While the finalizer of a queued cell runs, the cell stays queued and counted, and so do the allocated
cells stay counted. -/
theorem runFinalizer_tight {r : Handle} {f : Heap.Finalizer} {n : ℕ} {b : Body} (hs : w.heap.Sound)
    (hd : Draining [i] w.heap) (ht : w.heap.Tight) (hr : w.heap.arena.Holds r n b) (hri : r.index = i)
    (e : (runFinalizer ((Engine.inDrain host).caller host).vigilant r f).run
      ⟨w.heap.beginFinalizer i, w.host⟩ = some ((), w₁)) :
    w₁.heap.Sound ∧ Draining [i] w₁.heap ∧ w₁.heap.Tight ∧ w₁.heap.count? r ≠ some 0 := by
  subst hri
  let T := (Terms.lax σ).during (fun h => Draining [r.index] h ∧ h.Tight) fun h h' hc hl =>
    ⟨(yielding_draining [r.index]).steady h h' hc hl.1, steady_tight h h' hc hl.2⟩
  have hcall : Caller.Keeps ((Engine.inDrain host).caller host).vigilant T := by
    intro id v w X hk ending w' e
    have K := keeps_tight (fun h hl => hl.1)
      (inDrain_keeps (show host.Keeps (Terms.lax σ) from Host.keeps_lax fun _ => not_false) [r.index])
    exact K.run_lax (fun _ => not_false) (fun _ _ _ hl => hl) (host id v)
      ((host id v).loyal w.heap) hk ending w' (restricting_vigilant id v _ _ e)
  have hk : Kept False (fun h => Draining [r.index] h ∧ h.Tight) w.heap 0 :=
    ⟨hs, ⟨hd, ht⟩, False.elim⟩
  have hbegun : T.Holds ⟨w.heap.beginFinalizer r.index, w.host⟩ 0 := by
    have hk' := hk.beginFinalizer (T.steady w.host) hr
    exact lax_holds_iff.mpr ⟨hk'.sound, hk'.level⟩
  have hcount : (w.heap.beginFinalizer r.index).count? r ≠ some 0 := by
    have hraised := Heap.count?_eq_some.mpr ⟨b, Heap.holds_beginFinalizer hr⟩
    exact fun h0 => Nat.succ_ne_zero n (Option.some.inj (hraised.symm.trans h0))
  obtain ⟨hs₁, hd₁, ht₁⟩ := lax_holds_iff.mp (hcall.runFinalizer hbegun () w₁ e)
  have hcounted : After (runFinalizer ((Engine.inDrain host).caller host).vigilant r f)
      ⟨w.heap.beginFinalizer r.index, w.host⟩ fun _ w' => w'.heap.count? r ≠ some 0 :=
    runFinalizer_vigilant hcount
  exact ⟨hs₁, hd₁, ht₁, hcounted () w₁ e⟩

/-- What a turn preserves: allocated cells are counted, and so is the head if it is kept. -/
theorem Departs.tight (hs : w.heap.Sound) (hsweep : w.heap.sweeping = false) (ht : w.heap.Tight)
    (hi : w.heap.arena.queue.head = some i)
    (hd : Departs ((Engine.inDrain host).caller host).vigilant i w keep w₁) :
    Resumes w w₁ i ∧ w₁.heap.Tight ∧
      (keep = true → 0 < w₁.heap.arena.counted (w₁.heap.arena.handleAt i)) := by
  cases hd with
  | plain hf =>
    have hplain : Departs ((Engine.inDrain host).caller host) i w false w := .plain hf
    exact ⟨hplain.resumes hs hsweep hi, ht, nofun⟩
  | @finalized f w₁ hf e =>
    have hresumes : Resumes w ⟨(w₁.heap.endHeadFinalizer i).1, w₁.host⟩ i :=
      Departs.resumes hs hsweep hi
        (.finalized hf (withering_restricting.runFinalizer restricting_vigilant _ _ e))
    have hdraining := ((hs.mem_of_head hi).resolve_right (by simp [hsweep])).2
    obtain ⟨n, b, hr, -⟩ := hs.arena.cell_of_mem (hdraining.2.subset (List.mem_singleton_self i))
    obtain ⟨hs₁, hdraining₁, ht₁, hcounted⟩ := runFinalizer_tight hs hdraining ht hr rfl e
    have hmem₁ : i ∈ w₁.heap.arena.members .queue := hdraining₁.2.subset (List.mem_singleton_self i)
    obtain ⟨m, c, hm, -⟩ := hs₁.arena.cell_of_mem hmem₁
    obtain ⟨cell, hcell, hcellm, -⟩ := hm.get?
    rw [Arena.get?_handleAt] at hcell
    have hend : w₁.heap.endHeadFinalizer i = (w₁.heap.endFinalizer i, !cell.header.isLast) :=
      Heap.endHeadFinalizer_eq hcell
    have hended : (w₁.heap.endFinalizer i).arena.Holds (w₁.heap.arena.handleAt i) (m - 1) c :=
      Heap.holds_endFinalizer hm
    have hsame : (w₁.heap.endFinalizer i).arena.handleAt i = w₁.heap.arena.handleAt i :=
      hended.handleAt
    rw [hend] at hresumes ⊢
    have hat : w₁.heap.arena.handleAt i = w.heap.arena.handleAt i := hsame.symm.trans hresumes.handleAt
    refine ⟨hresumes, ht₁.endFinalizer hs₁ hmem₁, fun hkeep => ?_⟩
    dsimp only
    rw [hsame, hended.counted]
    -- The cell has a count besides that of its finalizer.
    have hpos : m ≠ 0 := by
      rintro rfl
      rw [← hat] at hcounted
      exact hcounted (Heap.count?_eq_some.mpr ⟨c, hm⟩)
    have hone : m ≠ 1 := by
      rintro rfl
      simp [Header.isLast, hcellm] at hkeep
    omega

/-! ## Vigilant operations -/

/-- Operations at the top in which drains are vigilant. -/
abbrev vigilantly (host : Host σ) (fuel : ℕ) (β : Type) (op : Operation β) : Attempt σ β :=
  (Engine.vigilant host fuel).perform op

/-- An array of two objects is dropped, and the finalizer of the first one runs in the drain. -/
def dropped : World Unit :=
  let next {β : Type} (op : Operation β) (w : World Unit) := Attains.next (vigilantly pairHost) 5 op w
  let w := next .registerNative ⟨.empty {}, ()⟩
  let w := next (.allocObject none) w
  let w := next (.intern "k" false) w
  let w := next (.allocObject none) w
  let w := next (.setFinalizer ⟨2, 0⟩ (.native ⟨0⟩)) w
  let w := next (.allocObject none) w
  let w := next (.allocArray none) w
  let w := next (.arrayPush ⟨5, 0⟩ (.ref ⟨2, 0⟩)) w
  let w := next (.arrayPush ⟨5, 0⟩ (.ref ⟨4, 0⟩)) w
  let w := next (.release (.ref ⟨2, 0⟩)) w
  let w := next (.release (.ref ⟨4, 0⟩)) w
  next (.release (.ref ⟨5, 0⟩)) w

end CountedHeap
