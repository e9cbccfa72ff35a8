import CountedHeap.Proofs.Keep.Drains

/-!
# Passes and drains at the top

Outside of passes and drains the queue is empty between two operations: whatever is queued is worked
off before the operation ends.

* `top_keeps_lax`: the heap stays sound, whatever finalizers do.
* `Host.Quiet`, `top_drain_quiet`, `top_collect_quiet`: quiet drains and passes keep counts exact.
* `top_releaseAll_quiet`: so do counts that are given back.
* `top_keeps_quiet`: so does every operation with a quiet host.
* `top_drain_returns`, `top_collect_returns`: quiet drains and passes end.
-/

namespace CountedHeap

open Heap (Shrinks Fades Fading Kept OutsidePass AtRest Draining)

variable {σ : Type} {call : Caller σ} {T : Terms σ} {w : World σ} {X : Multiset Handle}
  {host : Host σ} {fuel n : ℕ} {h h' : Heap} {o : PassOptions} {r : Handle} {s : Prop}

theorem kept_outsidePass (hk : Kept s (Draining []) h X) (hhead : h.arena.queue.head = none) :
    Kept s (OutsidePass []) h X := by
  refine hk.relevel ⟨hk.level.1, ?_⟩
  rw [hk.sound.head_queue] at hhead
  exact List.head?_eq_none_iff.mp hhead

theorem kept_draining (hk : Kept s (OutsidePass []) h X) : Kept s (Draining []) h X :=
  hk.relevel (Heap.draining_nil hk.level.1)

/-- Only what a release has queued is in the queue. -/
theorem queue_release (hs : h.Sound) (hlevel : OutsidePass [] h) :
    (h.release r).1.sweeping = false ∧
      ((h.release r).2 = false → OutsidePass [] (h.release r).1) := by
  obtain ⟨-, hloose, hqueue, -⟩ := hs.release_cases (r := r)
  refine ⟨hloose.sweeping.trans hlevel.1, fun hr => ⟨hloose.sweeping.trans hlevel.1, ?_⟩⟩
  rw [hqueue, hlevel.2, hr]
  rfl

theorem plain_holds {held : σ → Multiset Handle} {P : Heap → Prop} {hP : Heap.Steady P} :
    ((Terms.plain s held).during P hP).Holds w X ↔ Kept s P w.heap (held w.host + X) :=
  Iff.rfl

/-! ## Whatever finalizers do -/

/-- The level at which operations run at the top. -/
abbrev Terms.atTop (T : Terms σ) : Terms σ :=
  T.during (OutsidePass []) (Heap.steady_outsidePass [])

/-- A drain keeps the terms if no head that it meets is counted without having been finalized, or if
nothing is asked of counts. -/
theorem top_drain_keeps (hH : host.Keeps T)
    (hdue : ∀ s w' i, T.strict s → Drains host (fun _ _ => True) w w' →
      w'.heap.arena.queue.head = some i → w'.heap.Due i)
    (hk : (T.during (Draining []) (Heap.yielding_draining []).steady).Holds w X) :
    After (Engine.top host fuel).drain w fun _ w' => T.atTop.Holds w' X := by
  rintro _ w' e
  obtain ⟨w₁, hd, hhead, rfl⟩ := drains_of_drain _ _ e
  have hheads : Drains host (fun h i => ∀ s, T.strict s → h.Due i) w w₁ :=
    hd.of_heads fun w' i hd hi s hs => hdue s w' i hs hd hi
  have hk₁ := hheads.keeps hH (fun _ _ s hs hd => hd s hs) hk
  have hend : (T.during (Draining []) (Heap.yielding_draining []).steady).Holds
      ⟨{ w₁.heap with draining := false }, w₁.host⟩ X :=
    hk₁.same fun _ hZ =>
      hZ.remark (Heap.yielding_draining []) (.of_alike .refl rfl rfl rfl rfl rfl rfl)
  exact kept_outsidePass hend hhead

theorem top_drain_lax (hT : ∀ s, ¬ T.strict s)
    (hk : (T.during (Draining []) (Heap.yielding_draining []).steady).Holds w X) :
    After (Engine.top host fuel).drain w fun _ w' => T.atTop.Holds w' X :=
  top_drain_keeps (Host.keeps_lax hT) (fun s _ _ hs => absurd hs (hT s)) hk

/-- Where there is no key of finalizers, a drain makes none. -/
theorem top_drain_key (h0 : w.heap.finalizerKey = none) :
    After (Engine.top host fuel).drain w fun _ w' => w'.heap.finalizerKey = none := by
  have hstart : ({ w.heap with draining := true } : Heap).finalizerKey = none := h0
  change After (drainQueue _ _ fuel) w _
  unfold drainQueue
  rw [after_bind, after_modifyHeap, after_bind]
  refine (drainLoop_invariant (w := ⟨{ w.heap with draining := true }, w.host⟩)
    (I := fun w' => w'.heap.finalizerKey = none) ?_ ?_ ?_ hstart).mono fun _ w' h0' => ?_
  · intro w' i h0' _
    unfold settleHead
    rw [after_bind, after_query, Heap.headFinalizer_eq_none (Heap.unfinalized_of_key h0')]
    exact after_change.mpr (Shrinks.leaveQueue.key.trans h0')
  · exact fun _ _ h0' _ => h0'
  · exact fun w' h0' _ => pass_key h0'
  · rw [after_modifyHeap]
    exact h0'.1

/-- Operations at the top keep the terms if drains do. -/
theorem top_keeps_of_drain {drain : Action σ Unit} (hH : host.Keeps T)
    (hdrain : ∀ w X, (T.during (Draining []) (Heap.yielding_draining []).steady).Holds w X →
      After drain w fun _ w' => T.atTop.Holds w' X)
    (hkey : ∀ w, w.heap.finalizerKey = none → After drain w fun _ w' => w'.heap.finalizerKey = none) :
    Engine.Keeps { drain := drain, collect := pass (Engine.inPass.caller host) drain, slack := fuel }
      T.atTop where
  release w X r hk := by
    have hopen : (T.during (Draining []) (Heap.yielding_draining []).steady).Holds w (X + {r}) :=
      kept_draining hk
    have hkept : (T.during (Draining []) (Heap.yielding_draining []).steady).Holds
        ⟨(w.heap.release r).1, w.host⟩ X := by
      unfold Terms.Holds at hopen
      rw [← add_assoc] at hopen
      exact hopen.release (Heap.yielding_draining [])
    have hkey' : w.heap.finalizerKey = none → (w.heap.release r).1.finalizerKey = none :=
      fun h0 => Shrinks.release.key.trans h0
    unfold Engine.release
    rw [after_bind, after_change]
    split
    · refine After.and (hdrain _ _ hkept) fun a w' e h0 => ?_
      exact hkey ⟨(w.heap.release r).1, w.host⟩ (hkey' h0) a w' e
    · rename_i hr
      exact after_pure.mpr ⟨hkept.relevel ((queue_release hk.sound hk.level).2 (by simpa using hr)),
        hkey'⟩
  collect w X o hk := by
    refine After.and ?_ ?_
    · refine pass_after (passBody_keeps (R := fun _ _ => True) (fun _ => Heap.lasting_true) trivial
        (fun _ K => ?_) hk) ?_ ?_
      · exact hH _ (.inl rfl) _ _ (inPass_keeps fun _ =>
          (Heap.yielding_withinPass _ K).and Heap.lasting_true.yielding) fun _ _ _ hP => hP
      · rintro w' ⟨zero, hn, hre, -⟩
        refine hre.kept.relevel ⟨hre.kept.level.1, hre.kept.level.2.trans ?_⟩
        rw [hk.level.2, List.eq_nil_of_length_eq_zero hn.symm]
        rfl
      · rintro n w' ⟨zero, -, hre, -⟩
        exact hdrain _ _ (hre.kept.relevel (Heap.draining_nil hre.kept.level.1))
    · intro a w' e h0
      have hbegun : (w.heap.beginPass o).1.finalizerKey = none := Shrinks.beginPass.key.trans h0
      refine pass_after (Q := fun w' => w'.heap.finalizerKey = none)
        (passBody_shrinks (Heap.unfinalized_of_key h0).quiet) ?_ ?_ a w' e
      · exact fun _ hs => hs.key.trans hbegun
      · exact fun _ _ hs => hkey _ (hs.key.trans hbegun)

/-- Whatever finalizers do, operations at the top keep a heap sound and its queue empty. -/
theorem top_keeps_lax (hT : ∀ s, ¬ T.strict s) : (Engine.top host fuel).Keeps T.atTop :=
  top_keeps_of_drain (Host.keeps_lax hT) (fun _ _ hk => top_drain_lax hT hk)
    fun _ h0 => top_drain_key h0

/-! ## Quiet hosts -/

/-- Counts are exact and finalizers perform no operation, or none is found. -/
def Host.Quiet (s : Prop) (host : Host σ) (h : Heap) : Prop :=
  (s ∧ host.Silent) ∨ h.Unfinalized

theorem Host.Quiet.caller (hq : host.Quiet s h) (E : Engine σ) :
    CountedHeap.Quiet s (E.caller host) h :=
  hq.imp_left fun hs => ⟨hs.1, hs.2.caller E⟩

theorem Host.Quiet.of_shrinks (hq : host.Quiet s h) (hs : Shrinks h h') : host.Quiet s h' :=
  hq.imp_right hs.unfinalized

/-- The host holds nothing. -/
abbrev Terms.alone (s : Prop) (σ : Type) : Terms σ :=
  .plain s fun _ => 0

theorem alone_holds {P : Heap → Prop} {hP : Heap.Steady P} :
    ((Terms.alone s σ).during P hP).Holds w X ↔ Kept s P w.heap X := by
  rw [plain_holds, zero_add]

theorem Caller.Silent.keeps (hcall : call.Silent) {P : Heap → Prop} {hP : Heap.Steady P} :
    Caller.Keeps call ((Terms.alone s σ).during P hP) := by
  intro id v w X hk
  refine hcall.after.mono fun _ w' hw => ?_
  rw [alone_holds] at hk ⊢
  rwa [hw]

/-- A quiet pass, when the queue is empty. -/
theorem passBody_fading (hq : Quiet s call w.heap) (hk : Kept s (OutsidePass []) w.heap X) :
    After (passBody call o) w fun n w' =>
      (Fading s w'.heap X ∧ w'.heap.Tight ∧ Shrinks (w.heap.beginPass o).1 w'.heap) ∧
        (n = 0 → OutsidePass [] w'.heap) := by
  have hk' : ((Terms.alone s σ).during (OutsidePass []) (Heap.steady_outsidePass [])).Holds w X :=
    alone_holds.mpr hk
  have hbody := passBody_keeps (R := fun _ _ => True) (o := o) (fun _ => Heap.lasting_true) trivial
    (T := (Terms.alone s σ).during (OutsidePass []) (Heap.steady_outsidePass []))
    (fun hu K => (Caller.Silent.keeps (hq.silent hu).2 : Caller.Keeps call
      ((Terms.alone s σ).during _ ((Heap.yielding_withinPass _ K).and Heap.lasting_true.yielding).steady)))
    hk'
  refine (hbody.and (passBody_shrinks hq)).mono ?_
  rintro n w' ⟨⟨zero, hn, hre, -⟩, hs⟩
  obtain ⟨hkept, htight, hzero⟩ := hre
  rw [hk.level.2, List.nil_append] at hkept
  have hkept : Kept s (OutsidePass zero) w'.heap X :=
    (alone_holds : ((Terms.alone s σ).during _ (Heap.steady_outsidePass zero)).Holds w' X ↔ _).mp
      hkept
  refine ⟨⟨⟨hkept.relevel (Heap.draining_nil hkept.level.1), fun _ i hi => ?_⟩, htight, hs⟩,
    fun h0 => ?_⟩
  · rw [hkept.level.2] at hi
    exact hzero i hi
  · rw [List.eq_nil_of_length_eq_zero (hn.symm.trans h0)] at hkept
    exact hkept.level

/-- A voluntary pass of a quiet drain. -/
theorem innerPass_quiet (hq : host.Quiet s w.heap) (hf : Fading s w.heap X)
    (hhead : w.heap.arena.queue.head = none) :
    Returns ((Engine.inDrain host).collect o) w ∧ After ((Engine.inDrain host).collect o) w
      fun _ w' => Fading s w'.heap X ∧ Fades w.heap w'.heap := by
  have hbody := passBody_fading (o := o) (hq.caller Engine.inPass) (kept_outsidePass hf.kept hhead)
  refine ⟨pass_returns (passBody_returns (hq.caller _)) hbody fun _ _ _ => returns_pure, ?_⟩
  refine pass_after hbody ?_ ?_
  · exact fun _ hR => ⟨hR.1.1, Shrinks.beginPass.trans hR.1.2.2, fun _ => hR.1.2.1⟩
  · exact fun _ _ hR =>
      after_pure.mpr ⟨hR.1.1, Shrinks.beginPass.trans hR.1.2.2, fun _ => hR.1.2.1⟩

/-- A drain at the top ends with an empty queue, and has only freed cells. -/
theorem top_drain_quiet (hq : host.Quiet s w.heap) (hf : Fading s w.heap X) :
    After (Engine.top host fuel).drain w fun _ w' =>
      Kept s (OutsidePass []) w'.heap X ∧ Fades w.heap w'.heap := by
  have haside : ∀ (h : Heap) (b : Bool), Heap.Remarked h { h with draining := b } :=
    fun _ _ => .of_alike .refl rfl rfl rfl rfl rfl rfl
  have hopen : Fades w.heap { w.heap with draining := true } := (haside _ _).fades hf.kept.sound
  change After (drainQueue _ _ fuel) w _
  unfold drainQueue
  rw [after_bind, after_modifyHeap, after_bind]
  refine (drainLoop_quiet (w := ⟨{ w.heap with draining := true }, w.host⟩)
    ((hq.caller _).of_shrinks hopen.toShrinks) (hf.remark (haside _ _))
    fun w' hs hf' hhead => ?_).mono ?_
  · exact (innerPass_quiet (hq.of_shrinks (hopen.toShrinks.trans hs)) hf' hhead).2
  · rintro _ w' ⟨⟨hf', hs⟩, hhead⟩
    rw [after_modifyHeap]
    exact ⟨kept_outsidePass (hf'.remark (haside _ false)).kept hhead,
      (hopen.trans hs).trans ((haside _ _).fades hf'.kept.sound)⟩

theorem top_drain_returns (hq : host.Quiet s w.heap) (hf : Fading s w.heap X)
    (hfuel : 2 * w.heap.arena.compositeCount < fuel) :
    Returns (Engine.top host fuel).drain w := by
  have hstart : Fading s { w.heap with draining := true } X :=
    hf.remark (.of_alike .refl rfl rfl rfl rfl rfl rfl)
  have hopen : Shrinks w.heap { w.heap with draining := true } := .of_core rfl rfl rfl rfl
  change Returns (drainQueue _ _ fuel) w
  unfold drainQueue
  refine Returns.bind returns_modifyHeap (after_modifyHeap.mpr ?_)
  refine Returns.bind ?_ fun _ _ _ => returns_modifyHeap
  refine drainLoop_returns (w := ⟨{ w.heap with draining := true }, w.host⟩)
    ((hq.caller _).of_shrinks hopen) hstart (fun w' hs hf' hhead => ?_) ?_
  · exact innerPass_quiet (hq.of_shrinks (hopen.trans hs)) hf' hhead
  · simpa using hfuel

/-- A pass at the top ends with an empty queue, and only frees cells after it has swept. -/
theorem top_collect_quiet (hq : host.Quiet s w.heap) (hk : Kept s (OutsidePass []) w.heap X) :
    After ((Engine.top host fuel).collect o) w fun _ w' =>
      Kept s AtRest w'.heap X ∧ Shrinks (w.heap.beginPass o).1 w'.heap := by
  refine pass_after (passBody_fading (hq.caller Engine.inPass) hk) ?_ ?_
  · rintro w' ⟨⟨hf, ht, hs⟩, h0⟩
    exact ⟨hf.kept.relevel ⟨h0 rfl, ht⟩, hs⟩
  · rintro n w' ⟨⟨hf, ht, hs⟩, -⟩
    exact (top_drain_quiet (hq.of_shrinks (Shrinks.beginPass.trans hs)) hf).mono
      fun _ _ h => ⟨h.1.relevel ⟨h.1.level, h.2.tight ht⟩, hs.trans h.2.toShrinks⟩

theorem top_collect_returns (hq : host.Quiet s w.heap) (hk : Kept s (OutsidePass []) w.heap X)
    (hfuel : 2 * w.heap.arena.compositeCount < fuel) :
    Returns ((Engine.top host fuel).collect o) w := by
  refine pass_returns (passBody_returns (hq.caller _)) (passBody_fading (hq.caller _) hk) ?_
  rintro n w' ⟨⟨hf, -, hs'⟩, -⟩
  have hs : Shrinks w.heap w'.heap := Shrinks.beginPass.trans hs'
  have hle := hs.compositeCount_le hk.sound hf.kept.sound
  exact top_drain_returns (hq.of_shrinks hs) hf (by omega)

/-- A count that is given back, while nothing is counted that has been queued. -/
theorem fading_release (hk : Kept s (OutsidePass []) w.heap (X + {r})) :
    Fading s (w.heap.release r).1 X ∧ Fades w.heap (w.heap.release r).1 := by
  obtain ⟨hsweep, -⟩ := queue_release (r := r) hk.sound hk.level
  refine ⟨⟨⟨hk.sound.release.1, Heap.draining_nil hsweep, fun hs => (hk.balanced hs).release⟩,
    fun hs => ?_⟩, .release, fun ht => ht.release hk.sound hk.level.1⟩
  refine Heap.QueueIdle.release (fun i hi => ?_) hk.sound (hk.balanced hs)
  rw [hk.level.2] at hi
  cases hi

/-- Giving a count back at the top only frees cells, if the host is quiet. -/
theorem top_release_quiet (hq : host.Quiet s w.heap)
    (hk : Kept s (OutsidePass []) w.heap (X + {r})) :
    After ((Engine.top host fuel).release r) w fun _ w' =>
      Kept s (OutsidePass []) w'.heap X ∧ Fades w.heap w'.heap := by
  obtain ⟨hf, hs⟩ := fading_release hk
  unfold Engine.release
  rw [after_bind, after_change]
  split
  · exact (top_drain_quiet (w := ⟨(w.heap.release r).1, w.host⟩) (hq.of_shrinks hs.toShrinks) hf).mono
      fun _ _ h => ⟨h.1, hs.trans h.2⟩
  · rename_i hr
    exact after_pure.mpr
      ⟨hf.kept.relevel ((queue_release hk.sound hk.level).2 (by simpa using hr)), hs⟩

theorem top_release_returns (hq : host.Quiet s w.heap)
    (hk : Kept s (OutsidePass []) w.heap (X + {r})) (hfuel : 2 * w.heap.arena.compositeCount < fuel) :
    Returns ((Engine.top host fuel).release r) w := by
  obtain ⟨hf, hs⟩ := fading_release hk
  unfold Engine.release
  refine Returns.bind returns_change (after_change.mpr ?_)
  split
  · have hle := hs.compositeCount_le hk.sound hf.kept.sound
    exact top_drain_returns (w := ⟨(w.heap.release r).1, w.host⟩) (hq.of_shrinks hs.toShrinks) hf
      (by dsimp only; omega)
  · exact returns_pure

/-- So does giving back one count after the other. -/
theorem top_releaseAll_fades {rs : List Handle} (hq : host.Quiet s w.heap)
    (hk : Kept s (OutsidePass []) w.heap (X + rs)) :
    After ((Engine.top host fuel).releaseAll rs) w fun _ w' =>
      Kept s (OutsidePass []) w'.heap X ∧ Fades w.heap w'.heap := by
  induction rs generalizing w with
  | nil => exact after_pure.mpr ⟨by simpa using hk, .refl⟩
  | cons r rs ih =>
    rw [add_coe_cons] at hk
    refine after_bind.mpr ((top_release_quiet hq hk).mono ?_)
    rintro _ w' ⟨hw, hs⟩
    exact (ih (hq.of_shrinks hs.toShrinks) hw).mono fun _ _ h => ⟨h.1, hs.trans h.2⟩

/-- With enough steps all counts are given back. -/
theorem top_releaseAll_quiet {rs : List Handle} (hq : host.Quiet s w.heap)
    (hk : Kept s (OutsidePass []) w.heap (X + rs))
    (hfuel : 2 * w.heap.arena.compositeCount < fuel) :
    Returns ((Engine.top host fuel).releaseAll rs) w ∧
      After ((Engine.top host fuel).releaseAll rs) w fun _ w' =>
        Kept s (OutsidePass []) w'.heap X ∧ Fades w.heap w'.heap := by
  refine ⟨?_, top_releaseAll_fades hq hk⟩
  induction rs generalizing w with
  | nil => exact returns_pure
  | cons r rs ih =>
    rw [add_coe_cons] at hk
    refine Returns.bind (top_release_returns hq hk hfuel) ((top_release_quiet hq hk).mono ?_)
    rintro _ w' ⟨hw, hs⟩
    have hle := hs.compositeCount_le hk.sound hw.sound
    exact ih (hq.of_shrinks hs.toShrinks) hw (by omega)

/-! ## Operations with a quiet host -/

/-- Terms on which counts are exact while finalizers are silent or there are none. -/
def Terms.quiet (host : Host σ) : Terms σ where
  strict _ := True
  held _ := 0
  level _ h := AtRest h ∧ (host.Silent ∨ h.finalizerKey = none)
  steady := by
    rintro - h h' hc ⟨hlevel, hq⟩
    exact ⟨Heap.steady_atRest h h' hc hlevel, hq.imp_right hc.key.trans⟩
  since := Shrinks
  since_refl _ := .refl
  since_key _ _ hs h0 := hs.key.trans h0

theorem quiet_holds_iff : (Terms.quiet host).Holds w X ↔
    Kept True AtRest w.heap X ∧ (host.Silent ∨ w.heap.finalizerKey = none) := by
  unfold Terms.Holds
  rw [show (Terms.quiet host).held w.host = 0 from rfl, zero_add]
  exact ⟨fun hk => ⟨hk.relevel hk.level.1, hk.level.2⟩, fun hk => hk.1.relevel ⟨hk.1.level, hk.2⟩⟩

theorem quiet_of_key (hq : host.Silent ∨ h.finalizerKey = none) : host.Quiet True h :=
  hq.imp (fun hs => ⟨trivial, hs⟩) Heap.unfinalized_of_key

/-- With a quiet host, operations at the top keep counts exact. -/
theorem top_keeps_quiet : (Engine.top host fuel).Keeps (Terms.quiet host) where
  release w X r hk := by
    rw [quiet_holds_iff] at hk
    obtain ⟨hk, hq⟩ := hk
    refine (top_release_quiet (quiet_of_key hq) (hk.relevel hk.level.1)).mono ?_
    rintro _ w' ⟨hk', hs⟩
    exact ⟨quiet_holds_iff.mpr ⟨hk'.relevel ⟨hk'.level, hs.tight hk.level.2⟩, hq.imp_right hs.key.trans⟩,
      hs.toShrinks⟩
  collect w X o hk := by
    rw [quiet_holds_iff] at hk
    obtain ⟨hk, hq⟩ := hk
    refine (top_collect_quiet (quiet_of_key hq) (hk.relevel hk.level.1)).mono ?_
    rintro _ w' ⟨hk', hs'⟩
    have hs : Shrinks w.heap w'.heap := Shrinks.beginPass.trans hs'
    exact ⟨quiet_holds_iff.mpr ⟨hk', hq.imp_right hs.key.trans⟩, hs⟩

end CountedHeap
