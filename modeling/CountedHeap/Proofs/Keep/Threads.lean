import CountedHeap.Proofs.Keep.Basic

/-!
# Threads keep the terms

Value stacks, call stacks, built-ins, and the switches from one thread to another. Each operation
looks its thread up again after it has given references back, for that may have freed it.

* `Keeps.push`, `Keeps.popN`, `Keeps.replace`, …: stacks and built-ins.
* `Keeps.unwindCalls`: calls are left one after the other.
* `Keeps.resumeThread`, `Keeps.yieldThread`, `Keeps.terminateThread`: switches.
-/

namespace CountedHeap

namespace Heap

variable {h : Heap} {X : Multiset Handle} {r c t : Handle} {n i : ℕ} {th tc : Thread} {v old : Value}
  {a : Activation}

/-! ## What was checked -/

theorem checkPush_eq_ok (hc : h.checkPush t v = .ok ()) :
    h.checkValue v = .ok () ∧ ∃ th, h.thread t = .ok th ∧ th.values.hasRoom = true := by
  unfold checkPush at hc
  simp only [bind_eq_ok] at hc
  obtain ⟨_, hv, th, ht, hroom⟩ := hc
  refine ⟨hv, th, ht, ?_⟩
  by_contra hfull
  rw [if_neg hfull] at hroom
  cases hroom

theorem checkPop_eq_ok (hc : h.checkPop t = .ok v) :
    ∃ th, h.thread t = .ok th ∧ th.values.poppable? = some v := by
  unfold checkPop at hc
  simp only [bind_eq_ok] at hc
  obtain ⟨th, ht, hv⟩ := hc
  refine ⟨th, ht, ?_⟩
  cases hp : th.values.poppable? with
  | none => simp [hp, throw, throwThe, MonadExceptOf.throw] at hv
  | some u =>
    rw [hp] at hv
    cases hv
    rfl

theorem checkPopN_eq_ok {values : List Value} {length : ℕ}
    (hc : h.checkPopN t n = .ok (values, length)) :
    ∃ th, h.thread t = .ok th ∧ values = th.values.above length := by
  unfold checkPopN at hc
  simp only [bind_eq_ok] at hc
  obtain ⟨th, ht, hv⟩ := hc
  rw [ite_throw_eq_ok] at hv
  refine ⟨th, ht, ?_⟩
  cases hv.2
  rfl

theorem checkReplace_eq_ok (hc : h.checkReplace t i v = .ok old) :
    h.checkValue v = .ok () ∧ ∃ th, h.thread t = .ok th ∧ th.values.get? i = some old := by
  unfold checkReplace at hc
  simp only [bind_eq_ok] at hc
  obtain ⟨_, hv, th, ht, ho⟩ := hc
  refine ⟨hv, th, ht, ?_⟩
  cases hg : th.values.get? i with
  | none => simp [hg, throw, throwThe, MonadExceptOf.throw] at ho
  | some u =>
    rw [hg] at ho
    cases ho
    rfl

/-- Handles that have been checked name objects or threads. -/
theorem objects_of_checkObjects {rs : List Handle} (hc : h.checkObjects rs = .ok ()) :
    ∀ q ∈ rs, ∃ o, h.object q = .ok o := by
  unfold checkObjects at hc
  induction rs with
  | nil => simp
  | cons q rs ih =>
    rw [show (q :: rs).forM _ = (_ >>= fun _ => rs.forM _) from rfl, bind_eq_ok] at hc
    obtain ⟨_, hq, hrest⟩ := hc
    intro p hp
    rcases List.mem_cons.mp hp with rfl | hp
    · cases ho : h.object p with
      | error e => simp [ho, Except.map] at hq
      | ok o => exact ⟨o, rfl⟩
    · exact ih hrest p hp

theorem checkObjects_eq_ok {rs : List Handle} (hc : h.checkObjects rs = .ok ()) :
    ∀ q ∈ rs, h.isLive q = true := by
  intro q hq
  obtain ⟨o, ho⟩ := objects_of_checkObjects hc q hq
  exact live_of_object ho

theorem checkBuiltin_eq_ok {id : BuiltinId} {new before : Option Handle}
    (hc : h.checkBuiltin t id new = .ok before) :
    (∀ q ∈ new.toList, h.isLive q = true) ∧ ∃ th, h.thread t = .ok th ∧ th.builtins.get id = before := by
  unfold checkBuiltin at hc
  simp only [bind_eq_ok] at hc
  obtain ⟨_, hr, th, ht, hb⟩ := hc
  refine ⟨checkObjects_eq_ok hr, th, ht, ?_⟩
  cases hb
  rfl

theorem checkActivation_eq_ok (hc : h.checkActivation t a = .ok ()) :
    (∀ q ∈ a.refs, h.isLive q = true) ∧
      ∃ th, h.thread t = .ok th ∧ th.calls.size < th.callLimit := by
  unfold checkActivation at hc
  simp only [bind_eq_ok, ite_throw_eq_ok] at hc
  obtain ⟨func, hf, -, _, hs, th, ht, hroom⟩ := hc
  have hlt : th.calls.size < th.callLimit := by
    by_contra hfull
    rw [if_neg hfull] at hroom
    cases hroom
  refine ⟨fun q hq => ?_, th, ht, hlt⟩
  rcases List.mem_cons.mp hq with rfl | hq
  · exact live_of_object hf
  · exact checkObjects_eq_ok hs q hq

theorem checkState_iff {s : ThreadState} :
    h.checkState t s = .ok () ↔ ∃ th, h.thread t = .ok th ∧ th.state = s := by
  unfold checkState
  simp only [bind_eq_ok]
  refine exists_congr fun th => and_congr_right fun _ => ?_
  split
  · rename_i hs
    exact iff_of_true rfl hs
  · rename_i hs
    exact iff_of_false (fun e => by cases e) hs

theorem checkState_ok {s : ThreadState} (ht : h.thread t = .ok th) (hs : th.state = s) :
    h.checkState t s = .ok () :=
  checkState_iff.mpr ⟨th, ht, hs⟩

theorem checkUnwind_eq_ok (hc : h.checkUnwind t n = .ok (some a)) :
    ∃ th, h.thread t = .ok th ∧ th.calls.back? = some a := by
  unfold checkUnwind at hc
  simp only [bind_eq_ok] at hc
  obtain ⟨th, ht, ha⟩ := hc
  refine ⟨th, ht, ?_⟩
  simp only [pure, Except.pure, Except.ok.injEq] at ha
  split at ha
  · cases ha
  · exact ha

theorem checkCatcher_eq_ok {c : Catcher} (hc : h.checkCatcher t c = .ok ()) :
    (∀ q ∈ c.name, ∃ s, h.text q = .ok s) ∧
      ∃ th, h.thread t = .ok th ∧ c.activation < th.calls.size ∧ th.catchers.size < th.catchLimit := by
  unfold checkCatcher at hc
  simp only [bind_eq_ok, ite_throw_eq_ok] at hc
  obtain ⟨_, hname, th, ht, hcall, hroom⟩ := hc
  refine ⟨fun q hq => ?_, th, ht, Nat.lt_of_not_le hcall, ?_⟩
  · rw [Option.mem_def.mp hq] at hname
    obtain ⟨_, hkind, -⟩ :=
      bind_eq_ok.mp (show (h.checkKind q .string >>= fun _ => _) = .ok _ from hname)
    exact text_of_checkKind hkind
  · by_contra hfull
    rw [if_neg hfull] at hroom
    cases hroom

theorem checkState_eq_ok {state : ThreadState} (hc : h.checkState t state = .ok ()) :
    ∃ th, h.thread t = .ok th := by
  unfold checkState at hc
  simp only [bind_eq_ok] at hc
  obtain ⟨th, ht, -⟩ := hc
  exact ⟨th, ht⟩

theorem checkStart_eq_ok (hc : h.checkStart t = .ok ()) : ∃ th, h.thread t = .ok th := by
  unfold checkStart at hc
  simp only [bind_eq_ok] at hc
  obtain ⟨_, hs, -⟩ := hc
  exact checkState_eq_ok hs

theorem runningThread_eq_ok (hc : h.runningThread = .ok t) : ∃ th, h.thread t = .ok th := by
  unfold runningThread at hc
  cases hcur : h.current with
  | none => simp [hcur, throw, throwThe, MonadExceptOf.throw] at hc
  | some c =>
    rw [hcur] at hc
    simp only [bind_eq_ok] at hc
    obtain ⟨_, hs, hr⟩ := hc
    cases hr
    exact checkState_eq_ok hs

theorem checkResume_eq_ok {target : Handle} {before : Option Handle}
    (hc : h.checkResume target = .ok (c, before)) :
    (∃ tc, h.thread c = .ok tc) ∧ c ≠ target ∧
      ∃ th, h.thread target = .ok th ∧ th.resumer = before := by
  unfold checkResume at hc
  simp only [bind_eq_ok, ite_throw_eq_ok] at hc
  obtain ⟨d, hd, hne, th, ht, hb⟩ := hc
  have hdc : d = c ∧ th.resumer = before := by
    cases hs : th.state <;>
      simp [hs, pure, Except.pure, throw, throwThe, MonadExceptOf.throw] at hb <;> exact hb
  obtain ⟨rfl, hr⟩ := hdc
  exact ⟨runningThread_eq_ok hd, hne, th, ht, hr⟩

theorem checkYield_eq_ok (hc : h.checkYield = .ok (c, r)) :
    (∃ tc, h.thread c = .ok tc ∧ tc.resumer = some r) ∧ ∃ tr, h.thread r = .ok tr := by
  unfold checkYield at hc
  simp only [bind_eq_ok, ite_throw_eq_ok] at hc
  obtain ⟨d, -, td, htd, -, hb⟩ := hc
  cases hr : td.resumer with
  | none => simp [hr, throw, throwThe, MonadExceptOf.throw] at hb
  | some q =>
    rw [hr] at hb
    simp only [bind_eq_ok] at hb
    obtain ⟨_, hs, hb⟩ := hb
    cases hb
    exact ⟨⟨td, htd, hr⟩, checkState_eq_ok hs⟩

/-! ## Threads after a change of another -/

/-- What a change does to the thread that is there matters. -/
theorem modifyThread_congr {f g : Thread → Thread} (ht : h.thread t = .ok th) (hf : f th = g th) :
    h.modifyThread t f = h.modifyThread t g := by
  obtain ⟨header, hc⟩ := thread_eq_ok.mp ht
  refine congrArg (fun a => { h with arena := a }) (Arena.modifyAt_congr fun c hat => ?_)
  rw [Arena.cellAt?_of_get? hc] at hat
  cases hat
  exact congrArg (Cell.mk header) (congrArg Body.thread hf)

/-- A thread stays a thread. -/
theorem thread_modifyThread {f : Thread → Thread} (ht : h.thread t = .ok th) :
    ∃ th', (h.modifyThread c f).thread t = .ok th' := by
  obtain ⟨header, hc⟩ := thread_eq_ok.mp ht
  have hget : (h.modifyThread c f).arena.get? t = if t.index = c.index then
      (h.arena.get? t).map (·.modifyBody (·.modifyThread f)) else h.arena.get? t :=
    Arena.get?_modifyAt
  rw [hc] at hget
  split at hget
  · exact ⟨f th, thread_eq_ok.mpr ⟨header, hget⟩⟩
  · exact ⟨th, thread_eq_ok.mpr ⟨header, hget⟩⟩

theorem thread_modifyThread_of_ne {f : Thread → Thread} (hc : h.thread c = .ok tc)
    (ht : h.thread t = .ok th) (hne : c ≠ t) : (h.modifyThread c f).thread t = .ok th := by
  obtain ⟨_, hgc⟩ := thread_eq_ok.mp hc
  obtain ⟨header, hgt⟩ := thread_eq_ok.mp ht
  refine thread_eq_ok.mpr ⟨header, ?_⟩
  rw [show (h.modifyThread c f).arena.get? t = _ from Arena.get?_modifyAt, if_neg, hgt]
  intro hi
  exact hne ((Arena.holds_of_get? hgc).eq_of_index (Arena.holds_of_get? hgt) hi.symm)

namespace Kept

variable {s : Prop} {P : Heap → Prop}

theorem switchTo (hP : Steady P) (hk : Kept s P h X) (hc : h.thread c = .ok tc)
    (ht : h.thread t = .ok th) (hne : c ≠ t) :
    Kept s P (h.switchTo c t) (X + (th.resumer.toList : List Handle)) := by
  have hwait := hk.setState hP hc .resumed
  have ht' : (h.setState c .resumed).thread t = .ok th := thread_modifyThread_of_ne hc ht hne
  have hlive : (h.setState c .resumed).isLive c = true := by
    rw [show (h.setState c .resumed).isLive c = h.isLive c from Arena.isLive_modifyAt]
    exact live_of_thread hc
  have hnew : s → ∀ q ∈ [c], (h.setState c .resumed).isLive q = true := by
    simpa using fun _ => hlive
  refine hwait.storeThread hP ht' rfl hnew ?_
  exact Thread.refs_setResumer (some c) rfl rfl rfl rfl rfl

theorem switchBack (hP : Steady P) (hk : Kept s P h X) (hc : h.thread c = .ok tc)
    (hr : tc.resumer = some r) (ht : h.thread r = .ok th) :
    Kept s P (h.switchBack c r) (X + {r}) := by
  have hk' : Kept s P h (X + 0) := by simpa using hk
  have hleave := hk'.editThread hP (f := ({ · with state := .yielded, resumer := none })) hc rfl
    (Thread.refs_setResumer none rfl rfl rfl rfl rfl)
  rw [hr] at hleave
  obtain ⟨th', ht'⟩ := thread_modifyThread ht
  exact (hleave.setState hP ht' .running).setCurrent hP _

theorem endThread (hP : Steady P) (hk : Kept s P h X) (ht : h.thread t = .ok th) :
    Kept s P (h.endThread t th.resumer) (X + (th.resumer.toList : List Handle)) := by
  have hk' : Kept s P h (X + 0) := by simpa using hk
  have hend := hk'.editThread hP (f := ({ · with state := .terminated, resumer := none })) ht rfl
    (Thread.refs_setResumer none rfl rfl rfl rfl rfl)
  exact endThread_induction (P := fun h' => Kept s P h' (X + (th.resumer.toList : List Handle))) hend
    (fun _ _ _ _ hx hk => hk.setState hP hx .running) fun _ c _ hk => hk.setCurrent hP c

end Kept

end Heap

namespace Engine.Keeps

variable {σ : Type} {E : Engine σ} {T : Terms σ} {w : World σ} {X : Multiset Handle}
  {r t : Handle} {v : Value} {i n : ℕ}

/-! ## Stacks and built-ins -/

theorem push (hk : T.Holds w X) : T.Keeping (push t v) w X := by
  unfold CountedHeap.push Terms.Keeping
  simp only [meets_bind, meets_check, meets_surely, after_modifyHeap]
  refine ⟨fun _ _ => hk, fun _ hc => ?_⟩
  obtain ⟨hv, th, ht, -⟩ := Heap.checkPush_eq_ok hc
  rw [← add_zero X]
  exact hk.give fun _ hZ =>
    hZ.storeThread (T.steady _) ht rfl (fun _ => Heap.live_of_checkValue hv) (Thread.refs_push v)

theorem pushActivation {a : Activation} (hk : T.Holds w X) :
    T.Keeping (pushActivation t a) w X := by
  unfold CountedHeap.pushActivation Terms.Keeping
  simp only [meets_bind, meets_check, meets_surely, after_modifyHeap]
  refine ⟨fun _ _ => hk, fun _ hc => ?_⟩
  obtain ⟨hl, th, ht, -⟩ := Heap.checkActivation_eq_ok hc
  rw [← add_zero X]
  exact hk.give fun _ hZ =>
    hZ.storeThread (T.steady _) ht rfl (fun _ => hl) (Thread.refs_pushActivation a)

theorem pushCatcher {c : Catcher} (hk : T.Holds w X) : T.Keeping (pushCatcher t c) w X := by
  unfold CountedHeap.pushCatcher Terms.Keeping
  simp only [meets_bind, meets_check, meets_surely, after_modifyHeap]
  refine ⟨fun _ _ => hk, fun _ hc => ?_⟩
  obtain ⟨-, th, ht, -⟩ := Heap.checkCatcher_eq_ok hc
  exact hk.same fun _ hZ => hZ.adjustThread (T.steady _) ht rfl rfl

theorem unwindCatchers (hk : T.Holds w X) : T.Keeping (unwindCatchers t n) w X := by
  unfold CountedHeap.unwindCatchers Terms.Keeping
  simp only [meets_bind, meets_check, meets_surely, after_modifyHeap]
  refine ⟨fun _ _ => hk, fun _ ht => ?_⟩
  exact hk.same fun _ hZ => hZ.adjustThread (T.steady _) ht rfl rfl

theorem pop (K : E.Keeps T) (hk : T.Holds w X) : T.Keeping (E.pop t) w X := by
  unfold Engine.pop Terms.Keeping
  simp only [meets_bind, meets_check, meets_surely, after_modifyHeap]
  refine ⟨fun _ _ => hk, fun v hc => ?_⟩
  obtain ⟨th, ht, hv⟩ := Heap.checkPop_eq_ok hc
  rw [← add_zero X] at hk
  exact K.releaseAll (hk.trade fun _ hZ =>
    hZ.editThread (T.steady _) ht rfl (Thread.refs_pop hv))

theorem popN (K : E.Keeps T) (hk : T.Holds w X) : T.Keeping (E.popN t n) w X := by
  unfold Engine.popN Terms.Keeping
  simp only [meets_bind, meets_check, meets_surely, after_modifyHeap]
  refine ⟨fun _ _ => hk, ?_⟩
  rintro ⟨values, length⟩ hc
  obtain ⟨th, ht, rfl⟩ := Heap.checkPopN_eq_ok hc
  rw [← add_zero X] at hk
  exact K.releaseAll (hk.trade fun _ hZ =>
    hZ.editThread (T.steady _) ht rfl (Thread.refs_truncate length))

theorem replace (K : E.Keeps T) (hk : T.Holds w X) : T.Keeping (E.replace t i v) w X := by
  unfold Engine.replace Terms.Keeping
  simp only [meets_bind, meets_check, meets_surely, after_modifyHeap]
  refine ⟨fun _ _ => hk, fun old hc => ?_⟩
  obtain ⟨hv, th, ht, ho⟩ := Heap.checkReplace_eq_ok hc
  exact K.releaseAll (hk.give fun _ hZ =>
    hZ.storeThread (T.steady _) ht rfl (fun _ => Heap.live_of_checkValue hv) (Thread.refs_replace v ho))

theorem setBuiltin (K : E.Keeps T) {id : BuiltinId} {r : Option Handle} (hk : T.Holds w X) :
    T.Keeping (E.setBuiltin t id r) w X := by
  unfold Engine.setBuiltin Terms.Keeping
  simp only [meets_bind, meets_check, meets_surely, after_modifyHeap]
  refine ⟨fun _ _ => hk, fun old hc => ?_⟩
  obtain ⟨hl, th, ht, rfl⟩ := Heap.checkBuiltin_eq_ok hc
  exact K.releaseToList (hk.give fun _ hZ =>
    hZ.storeThread (T.steady _) ht rfl (fun _ => hl) (Thread.refs_setBuiltin id r))

/-- Calls are left one after the other, however many there are. -/
theorem unwindWithin (K : E.Keeps T) {length : ℕ} (hk : T.Holds w X) :
    T.Keeping (E.unwindWithin t length n) w X := by
  unfold Terms.Keeping
  induction n generalizing w with
  | zero => simp only [Engine.unwindWithin, meets_none]
  | succ n ih =>
    simp only [Engine.unwindWithin, meets_bind, meets_check]
    refine ⟨fun _ _ => hk, fun found hc => ?_⟩
    cases found with
    | none => simpa only [meets_pure] using hk
    | some a =>
      obtain ⟨th, ht, ha⟩ := Heap.checkUnwind_eq_ok hc
      rw [← add_zero X] at hk
      simp only [meets_bind, meets_surely, after_modifyHeap]
      refine (K.releaseAll (X := X) ?_).mono fun _ w' hk' => ih hk'
      exact hk.trade fun _ hZ => hZ.editThread (T.steady _) ht rfl (Thread.refs_popActivation ha)

theorem unwindCalls (K : E.Keeps T) (hk : T.Holds w X) : T.Keeping (E.unwindCalls t n) w X := by
  unfold Engine.unwindCalls Terms.Keeping
  simp only [meets_bind, meets_check]
  exact ⟨fun _ _ => hk, fun _ _ => K.unwindWithin hk⟩

theorem popActivation (K : E.Keeps T) (hk : T.Holds w X) :
    T.Keeping (E.popActivation t) w X := by
  unfold Engine.popActivation Terms.Keeping
  simp only [meets_bind, meets_check]
  refine ⟨fun _ _ => hk, fun calls _ => ?_⟩
  split
  · simpa only [meets_refuse] using hk
  · exact K.unwindCalls hk

/-! ## Switches -/

theorem startThread (hk : T.Holds w X) : T.Keeping (startThread t) w X := by
  unfold CountedHeap.startThread Terms.Keeping
  simp only [meets_bind, meets_check, meets_surely, after_modifyHeap]
  refine ⟨fun _ _ => hk, fun _ hc => ?_⟩
  obtain ⟨th, ht⟩ := Heap.checkStart_eq_ok hc
  exact hk.same fun _ hZ => (hZ.setState (T.steady _) ht .running).setCurrent (T.steady _) _

theorem resumeThread (K : E.Keeps T) (hk : T.Holds w X) : T.Keeping (E.resumeThread t) w X := by
  unfold Engine.resumeThread Terms.Keeping
  simp only [meets_bind, meets_check]
  refine ⟨fun _ _ => hk, ?_⟩
  rintro ⟨current, old⟩ hc
  obtain ⟨⟨tc, hcur⟩, hne, th, ht, rfl⟩ := Heap.checkResume_eq_ok hc
  simp only [meets_surely, after_modifyHeap]
  have hswitch := K.releaseToList (hk.give fun _ hZ => hZ.switchTo (T.steady _) hcur ht hne)
  exact hswitch.mono fun _ w' hk' => hk'.same fun _ hZ => hZ.setCurrent (T.steady _) _

theorem yieldThread (K : E.Keeps T) (hk : T.Holds w X) : T.Keeping E.yieldThread w X := by
  unfold Engine.yieldThread Terms.Keeping
  simp only [meets_bind, meets_check]
  refine ⟨fun _ _ => hk, ?_⟩
  rintro ⟨current, resumer⟩ hc
  obtain ⟨⟨tc, hcur, hr⟩, tr, ht⟩ := Heap.checkYield_eq_ok hc
  simp only [meets_surely, after_modifyHeap]
  have hswitch := K.release _ _ _ (hk.give fun _ hZ => hZ.switchBack (T.steady _) hcur hr ht)
  exact hswitch.mono fun _ _ hk' => hk'.1

theorem terminateThread (K : E.Keeps T) (hk : T.Holds w X) :
    T.Keeping (E.terminateThread t) w X := by
  unfold Engine.terminateThread Terms.Keeping
  simp only [meets_bind, meets_check]
  refine ⟨fun _ _ => hk, fun _ _ => ?_⟩
  refine Meets.mono (unwindCatchers hk) (fun _ _ hk' => hk') fun _ w₁ hk₁ => ?_
  refine Meets.mono (K.unwindCalls hk₁) (fun _ _ hk' => hk') fun _ w₂ hk₂ => ?_
  refine ⟨fun _ _ => hk₂, fun values hv => ?_⟩
  simp only [meets_surely, after_modifyHeap]
  have hcleared : T.Holds ⟨w₂.heap.clearValues t, w₂.host⟩
      (X + (values.flatMap Value.refs : List Handle)) := by
    unfold Heap.stackValues at hv
    cases ht : w₂.heap.thread t with
    | error e => simp [ht, Except.map] at hv
    | ok th =>
      rw [ht] at hv
      cases hv
      rw [← add_zero X] at hk₂
      exact hk₂.trade fun _ hZ => hZ.editThread (T.steady _) ht rfl Thread.refs_clear
  refine (K.releaseAll hcleared).mono fun _ w₃ hk₃ => ⟨fun _ _ => hk₃, fun resumer hr => ?_⟩
  cases ht : w₃.heap.thread t with
  | error e => simp [ht, Except.map] at hr
  | ok th =>
    rw [ht] at hr
    cases hr
    exact K.releaseToList (hk₃.give fun _ hZ => hZ.endThread (T.steady _) ht)

end Engine.Keeps

end CountedHeap
