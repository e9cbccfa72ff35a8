import CountedHeap.Proofs.Heap.Posts
import CountedHeap.Proofs.Invariance
import CountedHeap.Proofs.Rescue

/-!
# One thread runs

At most one thread runs, and it is the current one, as long as no thread is ended that waits for
another one. A thread comes to be ended in this way if a finalizer that runs while its stacks are
emptied resumes another thread from it.

* `Heap.Controlled`: the current thread runs, and no other.
* `Controlled.stroke`, `Controlled.withers`, `Controlled.start`, …: what the steps preserve.
* `Engine.orderly`: operations where a termination has a result only if the thread can be ended.
* `orderly_keeps`: what an orderly operation preserves.
* `one_thread_runs`: between operations, the current thread runs, and no other.
* `two_threads_run`: a thread that is ended while it waits.
-/

namespace CountedHeap

open Heap (Stroke Withers)

namespace Heap

variable {h h' : Heap} {t c r : Handle} {o : Option Handle} {s : ThreadState}

/-! ## The current thread runs -/

/-- The current thread runs, and no other, and only a thread that runs or waits has a resumer. -/
structure Controlled (h : Heap) : Prop where
  free : h.arena.FreeOk
  running : ∀ t o, h.post t = some (.running, o) → h.current = some t
  current : ∀ t, h.current = some t → ∃ o, h.post t = some (.running, o)
  resumer : ∀ t s r, h.post t = some (s, some r) → s = .running ∨ s = .resumed

namespace Controlled

theorem empty {config : Config} : Controlled (.empty config) := by
  have hnone : ∀ t, (Heap.empty config).post t = none := fun _ => rfl
  refine ⟨(kept_empty (s := False)).sound.arena.free, fun t o ht => ?_, nofun, fun t s r ht => ?_⟩
  · rw [hnone] at ht
    cases ht
  · rw [hnone] at ht
    cases ht

theorem stands (hc : Controlled h) (hs : Stands h h') : Controlled h' := by
  refine ⟨hs.free, fun t o ht => ?_, fun t ht => ?_, fun t s r ht => ?_⟩
  · rcases hs.new t _ ht with hold | hnew
    · exact hs.current.trans (hc.running t o hold)
    · cases hnew
  · obtain ⟨o, ho⟩ := hc.current t (hs.current ▸ ht)
    exact ⟨o, hs.old t _ ho⟩
  · rcases hs.new t _ ht with hold | hnew
    · exact hc.resumer t s r hold
    · cases hnew

theorem withers (hc : Controlled h) (hw : Withers h h') : Controlled h' := by
  refine ⟨hw.free hc.free, fun t o ht => ?_, fun t ht => ?_, fun t s r ht =>
    hc.resumer t s r (hw.post ht)⟩
  · have hcur := hc.running t o (hw.post ht)
    rcases hw.current with hsame | ⟨-, hdead⟩
    · exact hsame.trans hcur
    · obtain ⟨n, b, hb, -⟩ := post_eq_some.mp ht
      have hlive : h'.isLive t = true := hb.isLive
      rw [hdead t hcur] at hlive
      cases hlive
  · obtain ⟨o, ho⟩ := hc.current t (hw.current_eq ht)
    exact ⟨o, hw.post_current ht ho⟩

/-- Whether a drain is under way says nothing about threads. -/
theorem flag (hc : Controlled h) (b : Bool) : Controlled { h with draining := b } :=
  ⟨hc.free, hc.running, hc.current, hc.resumer⟩

/-- Nor does the key of finalizers. -/
theorem rekey (hc : Controlled h) (key : Option Handle) : Controlled { h with finalizerKey := key } :=
  ⟨hc.free, hc.running, hc.current, hc.resumer⟩

/-- A thread that neither runs nor waits has no resumer. -/
theorem no_resumer (hc : Controlled h) (ht : h.post t = some (s, o)) (hr : s ≠ .running)
    (hw : s ≠ .resumed) : o = none := by
  cases o with
  | none => rfl
  | some r => exact ((hc.resumer t s r ht).elim hr hw).elim

/-! ## Switches -/

theorem start (hc : Controlled h) (ht : h.checkStart t = .ok ()) :
    Controlled ((h.setState t .running).setCurrent (some t)) := by
  obtain ⟨⟨o, ho⟩, hidle⟩ := posts_of_checkStart ht
  obtain rfl := hc.no_resumer ho (by simp) (by simp)
  -- No other thread runs.
  have hnone : ∀ r o, h.post r ≠ some (.running, o) := by
    intro r o hr
    exact hidle r (hc.running r o hr) o hr
  have hpost : ((h.setState t .running).setCurrent (some t)).post =
      Function.update h.post t (some (.running, none)) := post_setState ho _
  refine ⟨hc.free.modifyAt _, fun r o hr => ?_, fun r hr => ?_, fun r s q hr => ?_⟩
  · by_cases hrt : r = t
    · exact hrt ▸ rfl
    · rw [hpost, Function.update_of_ne hrt] at hr
      exact absurd hr (hnone r o)
  · obtain rfl : t = r := Option.some.inj hr
    exact ⟨none, by rw [hpost, Function.update_self]⟩
  · by_cases hrt : r = t
    · rw [hpost, hrt, Function.update_self] at hr
      cases hr
    · rw [hpost, Function.update_of_ne hrt] at hr
      exact hc.resumer r s q hr

/-- From one thread to another: whichever runs afterwards is the current one. -/
theorem switch {p : Option (ThreadState × Option Handle)} (hc : Controlled h)
    (hcur : h.current = some c) (hf : h'.arena.FreeOk) (hcur' : h'.current = some t)
    (hpost : h'.post = Function.update (Function.update h.post c p) t (some (.running, o)))
    (hidle : ∀ o, p ≠ some (.running, o)) (hp : ∀ s r, p = some (s, some r) → s = .resumed) :
    Controlled h' := by
  refine ⟨hf, fun r q hr => ?_, fun r hr => ?_, fun r s q hr => ?_⟩
  · by_cases hrt : r = t
    · rw [hcur', hrt]
    · rw [hpost, Function.update_of_ne hrt] at hr
      by_cases hrc : r = c
      · rw [hrc, Function.update_self] at hr
        exact absurd hr (hidle q)
      · rw [Function.update_of_ne hrc] at hr
        exact absurd (Option.some.inj ((hc.running r q hr).symm.trans hcur)) hrc
  · obtain rfl : t = r := Option.some.inj (hcur'.symm.trans hr)
    exact ⟨o, by rw [hpost, Function.update_self]⟩
  · by_cases hrt : r = t
    · rw [hpost, hrt, Function.update_self] at hr
      cases hr
      exact .inl rfl
    · rw [hpost, Function.update_of_ne hrt] at hr
      by_cases hrc : r = c
      · rw [hrc, Function.update_self] at hr
        exact .inr (hp s q hr)
      · rw [Function.update_of_ne hrc] at hr
        exact hc.resumer r s q hr

theorem resume (hc : Controlled h) {old : Option Handle} (ht : h.checkResume t = .ok (c, old)) :
    old = none ∧ Controlled ((h.switchTo c t).setCurrent (some t)) := by
  obtain ⟨hcur, ⟨o, ho⟩, hne, s, hs, hidle⟩ := posts_of_checkResume ht
  have hold : old = none := by
    refine hc.no_resumer hs ?_ ?_ <;> rcases hidle with rfl | rfl <;> simp
  have hfree : ((h.switchTo c t).setCurrent (some t)).arena.FreeOk := by
    rw [arena_setCurrent]
    unfold switchTo retain
    split
    · exact ((hc.free.modifyAt _).modifyAt _).modifyAt _
    · exact (hc.free.modifyAt _).modifyAt _
  have hpost : ((h.switchTo c t).setCurrent (some t)).post = Function.update
      (Function.update h.post c (some (.resumed, o))) t (some (.running, some c)) :=
    post_setCurrent.trans (post_switchTo ho hs hne)
  refine ⟨hold, hc.switch hcur hfree rfl hpost (by simp) ?_⟩
  rintro s' r he
  simp only [Option.some.injEq, Prod.mk.injEq] at he
  exact he.1.symm

theorem yield (hc : Controlled h) (hy : h.checkYield = .ok (c, r)) :
    Controlled (h.switchBack c r) := by
  obtain ⟨hcur, ho, o, hr⟩ := posts_of_checkYield hy
  have hne : c ≠ r := by
    rintro rfl
    rw [ho] at hr
    cases hr
  exact hc.switch hcur ((hc.free.modifyAt _).modifyAt _) rfl (post_switchBack ho hr hne) (by simp)
    (by simp)

end Controlled

/-- Whether a thread can be ended: it does not wait for another one, and its resumer, if it has one, is
there. -/
def endable (h : Heap) (t : Handle) : Bool :=
  match h.post t with
  | some (s, o) => s != .resumed && o.all fun r => (h.post r).isSome
  | none => true

/-- A thread that can be ended leaves control where it was, or gives it back. -/
theorem Controlled.endThread (hc : Controlled h) (ht : h.post t = some (s, o))
    (he : h.endable t = true) : Controlled (h.endThread t o) := by
  have hend : s ≠ .resumed ∧ ∀ r ∈ o, (h.post r).isSome := by
    unfold endable at he
    rw [ht, Bool.and_eq_true, bne_iff_ne, Option.all_eq_true] at he
    exact he
  obtain ⟨hwaits, hthere⟩ := hend
  have hfree : (h.endThread t o).arena.FreeOk :=
    endThread_induction (P := fun h' => h'.arena.FreeOk) (hc.free.modifyAt _)
      (fun _ _ _ _ _ hf => hf.modifyAt _) fun _ _ _ hf => hf
  cases o with
  | some r =>
    have hrun : s = .running := (hc.resumer t s r ht).resolve_right hwaits
    obtain ⟨⟨s', o'⟩, hr⟩ : ∃ p, Function.update h.post t (some (.terminated, none)) r = some p := by
      by_cases hrt : r = t
      · exact ⟨_, by rw [hrt, Function.update_self]⟩
      · rw [Function.update_of_ne hrt]
        exact Option.isSome_iff_exists.mp (hthere r rfl)
    exact hc.switch (hc.running t _ (hrun ▸ ht)) hfree rfl (post_endThread_some ht hr) (by simp)
      (by simp)
  | none =>
    have hpost := post_endThread_none ht
    have hcur : (h.endThread t none).current = if h.current = some t then none else h.current :=
      current_endThread
    refine ⟨hfree, fun r q hr => ?_, fun r hr => ?_, fun r s q hr => ?_⟩
    · by_cases hrt : r = t
      · rw [hpost, hrt, Function.update_self] at hr
        cases hr
      · rw [hpost, Function.update_of_ne hrt] at hr
        have hrun := hc.running r q hr
        rw [hcur, if_neg (by rw [hrun]; simpa using hrt), hrun]
    · rw [hcur] at hr
      split at hr
      · cases hr
      · rename_i hne
        have hrt : r ≠ t := by
          rintro rfl
          exact hne hr
        obtain ⟨q, hq⟩ := hc.current r hr
        exact ⟨q, by rwa [hpost, Function.update_of_ne hrt]⟩
    · by_cases hrt : r = t
      · rw [hpost, hrt, Function.update_self] at hr
        cases hr
      · rw [hpost, Function.update_of_ne hrt] at hr
        exact hc.resumer r s q hr

end Heap

/-! ## Orderly operations -/

variable {σ α β : Type} {host : Host σ} {fuel : ℕ} {w : World σ} {E : Engine σ}

/-- Goes on only in heaps that satisfy a condition. -/
def assume (p : Heap → Bool) : Action σ Unit :=
  fun w => if p w.heap then some ((), w) else none

theorem after_assume {p : Heap → Bool} {Q : Unit → World σ → Prop} :
    After (assume p) w Q ↔ (p w.heap = true → Q () w) := by
  unfold After assume
  constructor
  · intro h hp
    exact h () w (if_pos hp)
  · intro h a w' e
    split at e
    · cases e
      exact h ‹_›
    · cases e

/-- Terminates a thread, with a result only if the thread can be ended when its stacks are empty. -/
def Engine.terminateOrderly (E : Engine σ) (t : Handle) : Attempt σ Unit := do
  E.unwindAll t
  surely (assume (·.endable t))
  let resumer ← check fun h => (h.thread t).map (·.resumer)
  surely (modifyHeap (·.endThread t resumer))
  surely (E.releaseAll resumer.toList)

/-- Operations, also those of finalizers, where a termination has a result only if the thread can be
ended when its stacks are empty. -/
def Way.orderly : Way σ
  | E, _, .terminateThread t => E.terminateOrderly t
  | E, _, op => E.perform op

theorem restricting_assume {p : Heap → Bool} {x' x : Attempt σ α} (hx : (restricting σ).Lift x' x) :
    (restricting σ).Lift (surely (assume p) >>= fun _ => x') x := by
  intro w y e
  have hrun : (surely (assume p) >>= fun _ => x').run w = if p w.heap then x'.run w else none := by
    have hbind : (surely (assume p) >>= fun _ => x').run = assume p >>= fun _ => x'.run := by
      simp [surely, ExceptT.run_bind]
    rw [hbind]
    change ((assume p w).bind fun q => x'.run q.2) = _
    unfold assume
    split <;> rfl
  rw [hrun] at e
  split at e
  · exact hx w y e
  · cases e

/-- Orderly operations do what operations do otherwise, if they have a result. -/
theorem relates_orderly : (restricting σ).Relates .orderly .plain := by
  intro E' E h β op
  unfold Way.orderly
  split
  · rename_i t
    change (restricting σ).Lift _ (E.terminateThread t)
    rw [Engine.terminateThread_eq]
    refine .bind (h.unwindAll fun _ _ _ => trivial) fun _ => restricting_assume ?_
    exact .bind (.check fun _ _ => rfl) fun _ =>
      .bind (.modifyHeap Heap.neutral_endThread fun _ => trivial) fun _ =>
      .surely h.releaseAll
  · exact h.perform_all turning_restricting _

theorem stroking_controlled : (keeping σ Heap.Controlled).Stroking :=
  stroking_keeping fun _ _ hs hc => hc.stands (hs.stands hc.free)

theorem withering_controlled : (keeping σ Heap.Controlled).Withering :=
  fun _ _ hw hc => hc.withers hw

/-- What an orderly operation preserves. -/
theorem orderly_keeps : (keeping σ Heap.Controlled).Relates .orderly .orderly := by
  intro E' E h β op
  have hrelease : ∀ {w : World σ} rs, w.heap.Controlled →
      After (E.releaseAll rs) w fun _ w' => w'.heap.Controlled :=
    fun rs hc => h.releaseAll _ hc
  by_cases hop : op.switches
  · cases op
    case startThread t =>
      refine lift_keeping_iff.mpr fun w hc => ?_
      change Meets (startThread t) w _ _
      unfold startThread
      simp only [meets_bind, meets_check, meets_surely, after_modifyHeap]
      exact ⟨fun _ _ => hc, fun _ ht => hc.start ht⟩
    case resumeThread t =>
      refine lift_keeping_iff.mpr fun w hc => ?_
      change Meets (E.resumeThread t) w _ _
      unfold Engine.resumeThread
      simp only [meets_bind, meets_check]
      refine ⟨fun _ _ => hc, ?_⟩
      rintro ⟨c, old⟩ ht
      obtain ⟨rfl, hc'⟩ := hc.resume ht
      simp only [meets_surely, after_modifyHeap]
      exact after_pure.mpr hc'
    case yieldThread =>
      refine lift_keeping_iff.mpr fun w hc => ?_
      change Meets E.yieldThread w _ _
      unfold Engine.yieldThread
      simp only [meets_bind, meets_check]
      refine ⟨fun _ _ => hc, ?_⟩
      rintro ⟨c, r⟩ hy
      simp only [meets_surely, after_modifyHeap]
      exact h.release r _ (hc.yield hy)
    case terminateThread t =>
      change (keeping σ Heap.Controlled).Lift (E'.terminateOrderly t) (E.terminateOrderly t)
      refine .bind (h.unwindAll stroking_controlled.touching) fun _ => lift_keeping_iff.mpr fun w hc => ?_
      simp only [meets_bind, meets_surely, after_assume, meets_check, after_modifyHeap]
      refine fun he => ⟨fun _ _ => hc, fun o ho => ?_⟩
      obtain ⟨s, hs⟩ := Heap.post_of_resumer ho
      exact hrelease o.toList (hc.endThread hs he)
    all_goals exact hop.elim
  · have hplain : ∀ E : Engine σ, Way.orderly E β op = E.perform op := by
      intro E
      cases op <;> first | rfl | exact absurd trivial hop
    rw [hplain, hplain]
    exact h.perform (h.makes stroking_controlled) stroking_controlled.touching op
      (fun _ => stroking_controlled.rooting) (fun _ _ _ hc => hc.rekey _) fun hs => absurd hs hop

/-- Operations at the top that are orderly, also in finalizers. -/
abbrev orderly (host : Host σ) (fuel : ℕ) (β : Type) (op : Operation β) : Attempt σ β :=
  Way.orderly (Way.orderly.top host fuel) β op

theorem Attains.reachable_orderly (hw : Attains (orderly host) w) : Reachable host w := by
  refine hw.reachable fun fuel β op => ?_
  have hfin : (restricting σ).Finalizes .orderly .plain host host :=
    running_restricting.finalizes withering_restricting relates_orderly
  have hdrain : (restricting σ).rel (Way.orderly.top host fuel).drain
      (Way.plain.top host fuel).drain :=
    Simulation.rel_drain withering_restricting hfin fun _ _ => trivial
  exact relates_orderly (Simulation.agree_top withering_restricting hfin hdrain) op

theorem Attains.controlled (hw : Attains (orderly host) w) : w.heap.Controlled := by
  have hfin : (keeping σ Heap.Controlled).Finalizes .orderly .orderly host host :=
    running_keeping.finalizes withering_controlled orderly_keeps
  have hagree : ∀ fuel, (keeping σ Heap.Controlled).Agree (Way.orderly.top host fuel)
      (Way.orderly.top host fuel) :=
    fun _ => Simulation.agree_top withering_controlled hfin
      (Simulation.rel_drain withering_controlled hfin fun _ b hc => hc.flag b)
  induction hw with
  | start config s => exact .empty
  | perform _ e ih => exact orderly_keeps (hagree _) _ _ ih _ _ e
  | host s _ ih => exact ih

/-! ## Between operations -/

/-- A handle names a thread that runs. -/
def Heap.Runs (h : Heap) (t : Handle) : Prop :=
  (h.post t).map Prod.fst = some .running

instance {h : Heap} {t : Handle} : Decidable (h.Runs t) :=
  inferInstanceAs (Decidable (_ = _))

theorem Heap.runs_iff {h : Heap} {t : Handle} : h.Runs t ↔ ∃ o, h.post t = some (.running, o) := by
  unfold Runs
  rw [Option.map_eq_some_iff]
  exact ⟨fun ⟨⟨_, o⟩, hp, hs⟩ => ⟨o, hs ▸ hp⟩, fun ⟨o, ho⟩ => ⟨_, ho, rfl⟩⟩

/-- Whatever finalizers do: as long as no thread is ended, by them or otherwise, that waits for another
one or whose resumer is gone, at most one thread runs, the current thread is one that is there and
runs, and a thread that runs is the current one. -/
theorem one_thread_runs (hw : Attains (orderly host) w) : Reachable host w ∧
    (∀ t t', w.heap.Runs t → w.heap.Runs t' → t = t') ∧
    (∀ t, w.heap.current = some t → w.heap.Runs t) ∧
    ∀ t, w.heap.Runs t → w.heap.current = some t := by
  have hc := hw.controlled
  have hcurrent : ∀ t, w.heap.Runs t → w.heap.current = some t := by
    intro t ht
    obtain ⟨o, ho⟩ := Heap.runs_iff.mp ht
    exact hc.running t o ho
  refine ⟨hw.reachable_orderly, fun t t' ht ht' => ?_, fun t ht => ?_, hcurrent⟩
  · exact Option.some.inj ((hcurrent t ht).symm.trans (hcurrent t' ht'))
  · exact Heap.runs_iff.mpr (hc.current t ht)

/-- The host whose native functions go back to the resumer of the current thread. -/
def Host.yielding : Host σ :=
  fun _ _ => .perform .yieldThread fun _ => .done .returned

/-- A thread resumes another one, which is terminated. This drops an object, whose finalizer yields. -/
def handedBack : World Unit :=
  Attains.follow (orderly .yielding) 5
    [⟨_, .registerNative⟩, ⟨_, .allocThread none⟩, ⟨_, .allocThread none⟩, ⟨_, .allocObject none⟩,
      ⟨_, .setFinalizer ⟨2, 0⟩ (.native ⟨0⟩)⟩, ⟨_, .startThread ⟨0, 0⟩⟩, ⟨_, .resumeThread ⟨1, 0⟩⟩,
      ⟨_, .push ⟨1, 0⟩ (.ref ⟨2, 0⟩)⟩, ⟨_, .release (.ref ⟨2, 0⟩)⟩, ⟨_, .terminateThread ⟨1, 0⟩⟩]
    ⟨.empty {}, ()⟩

/-- The finalizer has gone back to the first thread, which runs. -/
theorem one_thread_runs_handedBack : Attains (orderly .yielding) handedBack ∧
    (handedBack.heap.counters.finalizerRuns = 1 ∧
      handedBack.heap.post ⟨1, 0⟩ = some (.terminated, none) ∧ handedBack.heap.Runs ⟨0, 0⟩) ∧
    ∀ t, handedBack.heap.Runs t → t = ⟨0, 0⟩ := by
  have hw : Attains (orderly .yielding) handedBack := (Attains.start {} ()).steps 5 _
  have hend : handedBack.heap.counters.finalizerRuns = 1 ∧
      handedBack.heap.post ⟨1, 0⟩ = some (.terminated, none) ∧ handedBack.heap.Runs ⟨0, 0⟩ := by
    decide +kernel
  exact ⟨hw, hend, fun t ht => (one_thread_runs hw).2.1 t _ ht hend.2.2⟩

/-- The host whose native functions resume a thread. -/
def Host.resuming (t : Handle) : Host σ :=
  fun _ _ => .perform (.resumeThread t) fun _ => .done .returned

theorem Host.honest_resuming {t : Handle} : (Host.resuming t : Host σ).Honest fun _ => 0 := by
  intro E _ id v w X _ _
  refine ⟨le_rfl, fun answer w' _ => ?_⟩
  cases answer with
  | ok _ => exact ⟨nofun, rfl⟩
  | error _ => exact rfl

/-- A thread has resumed another one and is to have control back when this is terminated. But the
termination drops an object, whose finalizer resumes a third thread from the one that is being
terminated. In the end the first thread runs, and so does the third. -/
theorem two_threads_run : (Host.resuming ⟨2, 0⟩ : Host Unit).Honest (fun _ => 0) ∧
    ∃ (w : World Unit) (X : Multiset Handle), Run (.resuming ⟨2, 0⟩) Discipline.careful w X ∧
      w.heap.Runs ⟨0, 0⟩ ∧ w.heap.Runs ⟨2, 0⟩ ∧ w.heap.current = some ⟨0, 0⟩ := by
  have hend : (rehearse (fun _ => (Engine.top (.resuming ⟨2, 0⟩) 5).perform)
      [⟨_, .registerNative⟩, ⟨_, .allocThread none⟩, ⟨_, .allocThread none⟩, ⟨_, .allocThread none⟩,
        ⟨_, .allocObject none⟩, ⟨_, .setFinalizer ⟨3, 0⟩ (.native ⟨0⟩)⟩, ⟨_, .startThread ⟨0, 0⟩⟩,
        ⟨_, .resumeThread ⟨1, 0⟩⟩, ⟨_, .push ⟨1, 0⟩ (.ref ⟨3, 0⟩)⟩, ⟨_, .release (.ref ⟨3, 0⟩)⟩,
        ⟨_, .terminateThread ⟨1, 0⟩⟩] ⟨.empty {}, ()⟩ 0).any (fun x => x.1.heap.Runs ⟨0, 0⟩ ∧
      x.1.heap.Runs ⟨2, 0⟩ ∧ x.1.heap.current = some ⟨0, 0⟩) = true := by
    decide +kernel
  obtain ⟨⟨w, X⟩, e, hruns⟩ := (Option.any_eq_true _ _).mp hend
  exact ⟨Host.honest_resuming, w, X, (Run.start {} ()).rehearse_careful e, of_decide_eq_true hruns⟩

end CountedHeap
