import CountedHeap.Proofs.Keep.Basic
import CountedHeap.Proofs.Reclaim.Begin

/-!
# Tracing passes keep the terms

After the first half of a pass finalizers run, each while it holds a count on its cell, and cells that
nothing counts any longer are queued. If the native functions keep the terms within a pass, then the
pass keeps them.

* `Caller.Keeps`: calls of native functions keep the terms.
* `Caller.Keeps.runFinalizer`, `Caller.Keeps.runPending`: so does running finalizers.
* `Kept.finishPass`: cells that nothing counts are queued.
* `passBody_keeps`: a pass, up to the point where what it has queued is worked off.
-/

namespace CountedHeap

namespace Heap

variable {h h' : Heap} {X : Multiset Handle} {K l q : List ℕ} {r : Handle} {n i j : ℕ} {b : Body}
  {o : PassOptions}

/-! ## The count of a finalizer -/

namespace Kept

variable {s : Prop} {P P' : Heap → Prop}

theorem relevel (hk : Kept s P h X) (hP : P' h) : Kept s P' h X :=
  ⟨hk.sound, hP, hk.balanced⟩

/-- A finalizer holds a count on its cell. -/
theorem beginFinalizer (hP : Steady P) (hk : Kept s P h X) (hr : h.arena.Holds r n b) :
    Kept s P (h.beginFinalizer r.index) (X + {r}) := by
  refine hk.recount hP hr (m := n + 1) (fun _ => rfl) ?_ (Nat.succ_pos n) ?_ ?_
  · rintro c rfl
    rfl
  · intro _
    rw [Multiset.count_add, Multiset.count_singleton_self]
    omega
  · intro _ q hq
    rw [Multiset.count_add, Multiset.count_singleton, if_neg hq, add_zero]

/-- The count of a finalizer is taken back, and the cell stays where it is. -/
theorem endFinalizer (hP : Yielding P) (hk : Kept s P h (X + {r}))
    (hi : (h.arena.linksAt r.index).chain ≠ none) : Kept s P (h.endFinalizer r.index) X := by
  obtain ⟨g, n, b, hc, hcomp⟩ := (hk.sound.arena.linked r.index).mp hi
  have hr : h.arena.Holds ⟨r.index, g⟩ n b := hc
  -- The handle that is given back names this cell.
  have heq : s → r = ⟨r.index, g⟩ := by
    intro hs
    obtain ⟨m, b', hr'⟩ := Arena.isLive_iff.mp ((hk.balanced hs).live_of_held (r := r) (by simp))
    exact hr'.eq_of_index hr rfl
  refine hk.recountWith hr (m := n - 1) (fun _ => rfl) ?_ (fun hleaf => ?_) (fun hs => ?_)
    (fun hs q hq => ?_) fun hcore hmem => ?_
  · rintro c rfl
    rfl
  · rw [hcomp] at hleaf
    cases hleaf
  · rw [← heq hs] at hr ⊢
    have hn := (hk.balanced hs).count_eq hr
    simp only [Multiset.count_add, Multiset.count_singleton_self] at hn ⊢
    omega
  · rw [← heq hs] at hq
    rw [Multiset.count_add, Multiset.count_singleton, if_neg hq, add_zero]
  · refine hP h _ (Loose.of_lasts rfl rfl (by rw [hmem]) ?_ (.update hr hcore rfl)
      (fun hi => hi.congr rfl (Arena.texts_update hr hcore rfl))
      fun hc => hc.congr rfl rfl (Arena.texts_update hr hcore rfl)) hk.level
    intro i hi
    rw [show (h.modifyAt r.index (·.modifyHeader .release)).arena.linksAt = h.arena.linksAt from
      Arena.linksAt_modifyAt _]
    exact hi

end Kept

end Heap

/-! ## Finalizers -/

/-- Calls of native functions keep the terms. -/
def Caller.Keeps {σ : Type} (call : Caller σ) (T : Terms σ) : Prop :=
  ∀ id v w X, T.Holds w X → After (call id v) w fun _ w' => T.Holds w' X

namespace Caller.Keeps

variable {σ : Type} {call : Caller σ} {T : Terms σ} {w : World σ} {X : Multiset Handle}
  {r : Handle} {f : Heap.Finalizer} {i : ℕ}

theorem runFinalizer (hcall : Caller.Keeps call T) (hk : T.Holds w X) :
    After (runFinalizer call r f) w fun _ w' => T.Holds w' X := by
  -- A finalizer that runs, and one that fails, is counted.
  have haside : ∀ {w : World σ} {n m : ℕ}, T.Holds w X → T.Holds ⟨w.heap.modifyCounters fun c =>
      { c with finalizerRuns := c.finalizerRuns + n, finalizerErrors := c.finalizerErrors + m },
      w.host⟩ X :=
    fun hk => hk.same fun _ hZ => hZ.aside (T.steady _) rfl rfl rfl rfl rfl rfl rfl
  unfold CountedHeap.runFinalizer
  simp only [after_bind, after_modifyHeap, after_query]
  have hrest : ∀ w' : World σ, T.Holds w' X → ∀ ending : Ending,
      After (if ending ≠ .returned then modifyHeap (·.modifyCounters fun c =>
        { c with finalizerErrors := c.finalizerErrors + 1 }) else pure ()) w'
        fun _ w'' => T.Holds w'' X := by
    intro w' hk' ending
    split
    · exact after_modifyHeap.mpr (haside (n := 0) (m := 1) hk')
    · simpa only [after_pure] using hk'
  split
  · rw [after_bind]
    exact (hcall _ _ _ X (haside (n := 1) (m := 0) hk)).mono fun ending w' hk' => hrest w' hk' ending
  · rw [after_bind, after_pure]
    exact hrest _ (haside (n := 1) (m := 0) hk) _

/-- The finalizer of a cell on a list is run, and holds a count on the cell meanwhile. -/
theorem guarded (hcall : Caller.Keeps call T) (hT : ∀ s, Heap.Yielding (T.level s))
    (hk : T.Holds w X)
    (hlinked : ∀ s h, h.Sound → T.level s h → (h.arena.linksAt i).chain ≠ none) {r : Handle}
    (hr : r = w.heap.arena.handleAt i) :
    After (CountedHeap.runFinalizer call r f) ⟨w.heap.beginFinalizer i, w.host⟩ fun _ w' =>
      T.Holds w' (X + {r}) ∧ T.Holds ⟨w'.heap.endFinalizer i, w'.host⟩ X := by
  obtain ⟨g, n, b, hc, -⟩ := (hk.sound.arena.linked i).mp (hlinked _ _ hk.sound hk.level)
  have hcell : w.heap.arena.Holds r n b := hr ▸ Arena.holds_handleAt_iff.mpr ⟨g, hc⟩
  have hi : r.index = i := by rw [hr]; rfl
  subst hi
  have hbegun : T.Holds ⟨w.heap.beginFinalizer r.index, w.host⟩ (X + {r}) :=
    hk.give fun _ hZ => hZ.beginFinalizer (T.steady _) hcell
  refine (hcall.runFinalizer hbegun).mono fun _ w' hk' => ⟨hk', ?_⟩
  have hended : T.Holds ⟨w'.heap.endFinalizer r.index, w'.host⟩ (X + 0) := hk'.trade fun Z hZ => by
    rw [add_zero]
    exact hZ.endFinalizer (hT _) (hlinked _ _ hZ.sound hZ.level)
  rwa [add_zero] at hended

theorem runPending (hcall : Caller.Keeps call T) (hT : ∀ s, Heap.Yielding (T.level s)) {l : List ℕ}
    (hlinked : ∀ s h, T.level s h → ∀ i ∈ l, (h.arena.linksAt i).chain ≠ none) (hk : T.Holds w X) :
    After (runPending call l) w fun _ w' => T.Holds w' X := by
  induction l generalizing w with
  | nil => simpa only [CountedHeap.runPending, after_pure] using hk
  | cons i l ih =>
    have hrest : ∀ s h, T.level s h → ∀ j ∈ l, (h.arena.linksAt j).chain ≠ none :=
      fun s h hP j hj => hlinked s h hP j (by simp [hj])
    unfold CountedHeap.runPending
    simp only [after_bind, after_query]
    split
    · exact ih hrest hk
    · rename_i r f hfound
      simp only [after_bind, after_modifyHeap, after_pure]
      have hr : r = w.heap.arena.handleAt i := by
        obtain ⟨c, -, hf⟩ := Option.bind_eq_some_iff.mp hfound
        obtain ⟨f', -, he⟩ := Option.map_eq_some_iff.mp hf
        cases he
        rfl
      exact (hcall.guarded hT hk (fun s h _ hP => hlinked s h hP i (by simp)) hr).mono
        fun _ w' hk' => ih hrest hk'.2

end Caller.Keeps

/-- Where no finalizer is found, none is run. -/
theorem runPending_unfinalized {σ : Type} {call : Caller σ} {w : World σ} {l : List ℕ}
    (hu : w.heap.Unfinalized) : After (runPending call l) w fun _ w' => w' = w := by
  induction l with
  | nil => exact after_pure.mpr rfl
  | cons i l ih =>
    unfold runPending
    rw [after_bind, after_query]
    split
    · exact ih
    · rename_i r f hfound
      obtain ⟨c, -, hf⟩ := Option.bind_eq_some_iff.mp hfound
      obtain ⟨f', hf', -⟩ := Option.map_eq_some_iff.mp hf
      rw [hu] at hf'
      cases hf'

/-! ## The end of a pass -/

namespace Heap

variable {h : Heap} {X : Multiset Handle} {K l q : List ℕ} {i : ℕ} {o : PassOptions}
  {p : PassStart} {n : ℕ}

/-- No pass is under way, and these cells are queued. -/
def OutsidePass (queue : List ℕ) (h : Heap) : Prop :=
  h.sweeping = false ∧ h.arena.members .queue = queue

theorem steady_outsidePass (queue : List ℕ) : Steady (OutsidePass queue) := by
  rintro h h' hc ⟨hsweep, hqueue⟩
  exact ⟨hc.sweeping.trans hsweep, hc.queue.trans hqueue⟩

/-- Nothing is under way: no cell is queued, and all allocated cells are counted. -/
def AtRest (h : Heap) : Prop :=
  OutsidePass [] h ∧ h.Tight

theorem steady_atRest : Steady AtRest :=
  fun h h' hc hr => ⟨steady_outsidePass [] h h' hc hr.1, hc.tight hr.2⟩

theorem remarked_settle : Remarked h (h.settle l) := by
  refine remarked_markHeld.trans (Remarked.foldl (fun h i => ?_) l)
  unfold settleRescued
  split
  · split
    · have hcounters : ∀ (h : Heap) (g : Counters → Counters), Remarked h (h.modifyCounters g) :=
        fun _ _ => .of_alike .refl rfl rfl rfl rfl rfl rfl
      exact remarked_clearFinalized.trans (hcounters _ _)
    · exact .refl
  · exact .refl

/-- Allocated cells are queued, one after the other. -/
theorem Sound.enqueueAll (hs : h.Sound) (hnd : l.Nodup)
    (hl : ∀ i ∈ l, i ∈ h.arena.members .allocated) : (l.foldl Heap.enqueue h).Sound ∧
      (l.foldl Heap.enqueue h).arena.members .queue = h.arena.members .queue ++ l ∧
      (∀ i ∈ (l.foldl Heap.enqueue h).arena.members .allocated,
        i ∈ h.arena.members .allocated ∧ i ∉ l) ∧
      l.foldl Heap.enqueue h = { h with arena := (l.foldl Heap.enqueue h).arena } ∧
      (l.foldl Heap.enqueue h).arena.core = h.arena.core := by
  induction l generalizing h with
  | nil => exact ⟨hs, by simp, by simp, rfl, rfl⟩
  | cons i l ih =>
    obtain ⟨hi, hnd⟩ := List.nodup_cons.mp hnd
    have hmem := hl i (by simp)
    have hchain : (h.arena.linksAt i).chain ≠ none := by
      rw [hs.arena.mem_members.mp hmem]
      simp
    obtain ⟨hs', hmem'⟩ := hs.enqueue hchain
    have hnot : i ∉ h.arena.members .queue :=
      fun hq => Chain.noConfusion (hs.arena.threaded.eq_of_mem hmem hq)
    have hlists : (h.enqueue i).arena.members .allocated = (h.arena.members .allocated).erase i := by
      rw [hmem', Function.update_of_ne (by simp)]
    obtain ⟨hs'', hqueue, halloc, heq, hcore⟩ := ih hs' hnd fun j hj => by
      rw [hlists, List.mem_erase_of_ne (by rintro rfl; exact hi hj)]
      exact hl j (by simp [hj])
    refine ⟨hs'', ?_, fun j hj => ?_, ?_, hcore.trans core_enqueue⟩
    · rw [List.foldl_cons, hqueue, hmem', Function.update_self, List.erase_of_not_mem hnot,
        List.append_assoc, List.singleton_append]
    · obtain ⟨hj', hnot'⟩ := halloc j hj
      rw [hlists] at hj'
      refine ⟨List.mem_of_mem_erase hj', fun hmem => ?_⟩
      rcases List.mem_cons.mp hmem with rfl | hmem
      · exact (hs.arena.threaded .allocated).nodup.not_mem_erase hj'
      · exact hnot' hmem
    · rw [List.foldl_cons, heq]
      rfl

theorem nodup_zeroCounts (hs : h.Sound) : h.zeroCounts.Nodup :=
  (hs.arena.threaded .allocated).nodup.filter _

/-- A pass queues allocated cells that nothing counts. -/
theorem mem_zeroCounts (hi : i ∈ h.zeroCounts) :
    i ∈ h.arena.members .allocated ∧ h.arena.counted (h.arena.handleAt i) = 0 := by
  unfold zeroCounts at hi
  obtain ⟨hmem, hzero⟩ := List.mem_filter.mp hi
  refine ⟨hmem, ?_⟩
  rw [Arena.counted_handleAt]
  cases hc : h.arena.cellAt? i with
  | none => rfl
  | some c => simpa [hc] using hzero

/-- The heap after a pass has queued what nothing counts. -/
def requeue (h : Heap) : Heap :=
  h.zeroCounts.foldl enqueue { h with sweeping := false }

theorem core_requeue : h.requeue.arena.core = h.arena.core := by
  have hfold : ∀ (l : List ℕ) (h : Heap), (l.foldl enqueue h).arena.core = h.arena.core := by
    intro l
    induction l with
    | nil => exact fun _ => rfl
    | cons i l ih => exact fun h => (ih (h.enqueue i)).trans core_enqueue
  exact hfold _ _

theorem finishPass_eq : ∃ trigger counters lastPass, h.finishPass o p n =
    ({ h.requeue with trigger := trigger, counters := counters, lastPass := lastPass },
      h.zeroCounts.length) :=
  ⟨_, _, _, rfl⟩

theorem tables_finishPass : (h.finishPass o p n).1.tables = h.tables := by
  have hfold : ∀ (l : List ℕ) (h : Heap), (l.foldl enqueue h).tables = h.tables := by
    intro l
    induction l with
    | nil => exact fun _ => rfl
    | cons i l ih => exact fun h => ih (h.enqueue i)
  obtain ⟨trigger, counters, lastPass, he⟩ := h.finishPass_eq (o := o) (p := p) (n := n)
  rw [he]
  exact hfold h.zeroCounts { h with sweeping := false }

/-- A pass ends with the cells queued that nothing counts. -/
theorem Kept.finishPass {s : Prop} (hk : Kept s (WithinPass q K) h X) :
    Kept s (OutsidePass (q ++ h.zeroCounts)) (h.finishPass o p n).1 X ∧
      (h.finishPass o p n).1.Tight ∧ (h.finishPass o p n).1.arena.core = h.arena.core := by
  have hopen : ({ h with sweeping := false } : Heap).Sound :=
    ⟨hk.sound.arena, hk.sound.freeRoots, hk.sound.rootsFree⟩
  obtain ⟨hsound, hqueue, halloc, heq, hcore⟩ := hopen.enqueueAll (nodup_zeroCounts hk.sound)
    fun i hi => (mem_zeroCounts hi).1
  have hsweep : h.requeue.sweeping = false := congrArg (·.sweeping) heq
  have hroots : h.requeue.roots = h.roots := congrArg (·.roots) heq
  have hkey : h.requeue.finalizerKey = h.finalizerKey := congrArg (·.finalizerKey) heq
  obtain ⟨trigger, counters, lastPass, hfinish⟩ := h.finishPass_eq (o := o) (p := p) (n := n)
  rw [hfinish]
  refine ⟨⟨⟨hsound.arena, hsound.freeRoots, hsound.rootsFree⟩, ⟨hsweep, ?_⟩, fun hs => ?_⟩, ?_, hcore⟩
  · exact hqueue.trans (congrArg (· ++ h.zeroCounts) hk.level.2.1)
  · exact (hk.balanced hs).of_core hcore hroots hkey
  · intro r n b hr hi
    obtain ⟨hmem, hnot⟩ := halloc _ hi
    have hr' : h.arena.Holds r n b := by
      unfold Arena.Holds
      rw [← hcore]
      exact hr
    obtain ⟨c, hc, hn, -⟩ := hr'.get?
    have hcell := Arena.cellAt?_of_get? hc
    unfold zeroCounts at hnot
    rw [List.mem_filter] at hnot
    by_contra hzero
    refine hnot ⟨hmem, ?_⟩
    rw [hcell]
    simp only [beq_iff_eq]
    omega

end Heap

/-! ## All of a pass -/

section

variable {σ : Type} {call : Caller σ} {drain : Action σ Unit} {T : Terms σ} {w : World σ}
  {X : Multiset Handle} {o : PassOptions}

/-- What holds when a pass has queued some cells: these are not counted, and those that stay
allocated are. -/
structure Requeued (T : Terms σ) (X : Multiset Handle) (queue zero : List ℕ) (w : World σ) :
    Prop where
  kept : w.heap.Kept (T.strict w.host) (Heap.OutsidePass (queue ++ zero)) (T.held w.host + X)
  tight : w.heap.Tight
  zero : ∀ i ∈ zero, w.heap.arena.counted (w.heap.arena.handleAt i) = 0

/-- A pass up to the point where what it has queued is worked off. -/
def passBody (call : Caller σ) (o : PassOptions) : Action σ ℕ := do
  let start ← change (·.beginPass o)
  let finalized ← runPending call start.pending
  if finalized > 0 then modifyHeap (·.settle start.pending)
  change (·.finishPass o start finalized)

theorem pass_eq : pass call drain o = do
    let requeued ← passBody call o
    if requeued > 0 then drain
    return true := by
  unfold pass passBody
  simp only [bind_assoc]
  refine bind_congr fun p => bind_congr fun n => ?_
  split
  · simp only [bind_assoc]
  · rfl

/-- A pass keeps the terms if native functions do within it, unless there are no finalizers. So does
what holds of the cells that are there when it has swept. -/
theorem passBody_keeps {R : σ → Heap → Prop} (hR : ∀ s, Heap.Lasting (R s))
    (hbegin : R w.host (w.heap.beginPass o).1)
    (hcall : ¬ w.heap.Unfinalized → ∀ K, Caller.Keeps call (T.among
      (fun s h => Heap.WithinPass (w.heap.arena.members .queue) K h ∧ R s h)
      fun s => ((Heap.yielding_withinPass _ K).and (hR s).yielding).steady))
    (hk : T.Holds w X) : After (passBody call o) w fun n w' => ∃ zero, n = zero.length ∧
      Requeued T X (w.heap.arena.members .queue) zero w' ∧ R w'.host w'.heap := by
  set q := w.heap.arena.members .queue
  set K := (w.heap.beginPass o).2.pending
  let T' := T.among (fun s h => Heap.WithinPass q K h ∧ R s h)
    fun s => ((Heap.yielding_withinPass _ K).and (hR s).yielding).steady
  have hbegun : T'.Holds ⟨(w.heap.beginPass o).1, w.host⟩ X := by
    have hpass := Heap.Kept.beginPass (o := o) hk
    exact hpass.relevel ⟨hpass.level, hbegin⟩
  have hpending : After (runPending call K) ⟨(w.heap.beginPass o).1, w.host⟩
      fun _ w' => T'.Holds w' X := by
    by_cases hu : w.heap.Unfinalized
    · refine (runPending_unfinalized (Heap.Shrinks.beginPass.unfinalized hu)).mono ?_
      rintro _ _ rfl
      exact hbegun
    · exact (hcall hu K).runPending (fun s => (Heap.yielding_withinPass _ K).and (hR s).yielding)
        (fun s h hP i hi => hP.1.2.2 i hi) hbegun
  -- The cells that are queued when finalizers have run.
  have hfinish : ∀ w' n, T'.Holds w' X →
      After (change (·.finishPass o (w.heap.beginPass o).2 n)) w' fun n w'' => ∃ zero,
        n = zero.length ∧ Requeued T X q zero w'' ∧ R w''.host w''.heap := by
    intro w' n hk'
    obtain ⟨hkept, htight, hcore⟩ := Heap.Kept.finishPass (o := o) (p := (w.heap.beginPass o).2)
      (n := n) (hk'.relevel hk'.level.1)
    rw [after_change]
    refine ⟨w'.heap.zeroCounts, rfl, ⟨hkept, htight, fun i hi => ?_⟩,
      (hR _).of_core _ _ hcore Heap.tables_finishPass hk'.level.2⟩
    rw [Arena.handleAt_congr hcore, Arena.counted_congr (congrFun hcore _)]
    exact (Heap.mem_zeroCounts hi).2
  unfold passBody
  rw [after_bind, after_change, after_bind]
  refine hpending.mono fun n w' hk' => ?_
  dsimp only
  split
  · rw [after_bind, after_modifyHeap]
    refine hfinish ⟨w'.heap.settle _, w'.host⟩ n ?_
    exact hk'.same fun _ hZ =>
      hZ.remark ((Heap.yielding_withinPass _ K).and (hR _).yielding) Heap.remarked_settle
  · exact hfinish w' n hk'

/-- All of a pass: what it queues is dealt with. -/
theorem pass_after {Q : World σ → Prop} {R : ℕ → World σ → Prop}
    (hbody : After (passBody call o) w R) (hidle : ∀ w', R 0 w' → Q w')
    (hdrain : ∀ n w', R (n + 1) w' → After drain w' fun _ w'' => Q w'') :
    After (pass call drain o) w fun _ w' => Q w' := by
  rw [pass_eq, after_bind]
  refine hbody.mono fun n w' hR => ?_
  cases n with
  | zero =>
    rw [if_neg (Nat.lt_irrefl 0)]
    exact after_pure.mpr (hidle w' hR)
  | succ n =>
    rw [if_pos (Nat.succ_pos n), after_bind]
    exact (hdrain n w' hR).mono fun _ w'' hQ => after_pure.mpr hQ

/-- A pass that begins says so. -/
theorem pass_ran : After (pass call drain o) w fun ran _ => ran = true := by
  rw [pass_eq, after_bind]
  intro n w' _
  split
  · exact after_bind.mpr fun _ _ _ => after_pure.mpr rfl
  · exact after_pure.mpr rfl

theorem pass_returns {R : ℕ → World σ → Prop} (hbody : Returns (passBody call o) w)
    (hR : After (passBody call o) w R) (hdrain : ∀ n w', R (n + 1) w' → Returns drain w') :
    Returns (pass call drain o) w := by
  rw [pass_eq]
  refine Returns.bind hbody (hR.mono fun n w' hR => ?_)
  cases n with
  | zero =>
    rw [if_neg (Nat.lt_irrefl 0)]
    exact returns_pure
  | succ n =>
    rw [if_pos (Nat.succ_pos n)]
    exact Returns.bind (hdrain n w' hR) fun _ w'' _ => returns_pure

end

end CountedHeap
