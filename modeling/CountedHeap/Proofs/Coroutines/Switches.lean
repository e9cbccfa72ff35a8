import CountedHeap.Proofs.Coroutines.Ending

/-!
# Switches that succeed

Between two operations, where counts are exact and no finalizer is found, the running thread can resume
an idle one, hand back to its resumer and terminate. Each of these says what becomes of the cells: two
threads change, and what only the stacks of an ended thread counted is freed.

* `Ready`: a world of a run, where counts are exact and no finalizer is found.
* `Ready.resume`: an idle thread is resumed.
* `Ready.yieldThread`, `Ready.terminateThread`: the resumer runs again.
-/

namespace CountedHeap

open Heap (Kept OutsidePass Becomes)

variable {σ : Type} {host : Host σ} {fuel n : ℕ} {w w' w'' : World σ} {X Y given : Multiset Handle}
  {t m : Handle} {x y : Thread} {rs : List Handle}

namespace Heap

variable {h : Heap} {c : Handle} {s : ThreadState}

theorem runningThread_ok (hc : h.current = some c) (hy : h.thread c = .ok y)
    (hrun : y.state = .running) : h.runningThread = .ok c := by
  unfold runningThread
  rw [hc]
  exact bind_eq_ok.mpr ⟨(), checkState_ok hy hrun, rfl⟩

/-- A thread has not run, or it has yielded. -/
def Idle (h : Heap) (t : Handle) : Prop :=
  ∃ x, h.thread t = .ok x ∧ (x.state = .inactive ∨ x.state = .yielded)

instance : Decidable (h.Idle t) :=
  match e : h.thread t with
  | .ok x => decidable_of_iff (x.state = .inactive ∨ x.state = .yielded)
      ⟨fun hx => ⟨x, e, hx⟩, fun ht => by
        obtain ⟨x', hx', hidle⟩ := ht
        cases e.symm.trans hx'
        exact hidle⟩
  | .error _ => isFalse fun ht => by
      obtain ⟨x', hx', -⟩ := ht
      cases e.symm.trans hx'

theorem Idle.ne (ht : h.Idle t) (hy : h.thread m = .ok y) (hactive : y.state.isActive = true) :
    m ≠ t := by
  rintro rfl
  obtain ⟨x, hx, hidle⟩ := ht
  rw [hx] at hy
  cases hy
  rcases hidle with h | h <;> rw [h] at hactive <;> cases hactive

/-- An idle thread has no resumer. -/
theorem Idle.resumer (ht : h.Idle t) (hp : h.Proper) (hx : h.thread t = .ok x) :
    x.resumer = none := by
  by_contra hsome
  have hactive := (hp t x hx).active hsome
  obtain ⟨x', hx', hidle⟩ := ht
  rw [hx] at hx'
  cases hx'
  rcases hidle with h | h <;> rw [h] at hactive <;> cases hactive

/-- No call of a thread prevents it from yielding. -/
def MayYield (h : Heap) (t : Handle) : Prop :=
  ∀ x, h.thread t = .ok x → ∀ a ∈ x.calls, a.flags.preventYield = false

instance : Decidable (h.MayYield t) :=
  match e : h.thread t with
  | .ok x => decidable_of_iff (∀ a ∈ x.calls.toList, a.flags.preventYield = false)
      ⟨fun hx x' hx' a ha => by
        cases e.symm.trans hx'
        exact hx a (Array.mem_toList_iff.mpr ha),
      fun ht a ha => ht x e a (Array.mem_toList_iff.mp ha)⟩
  | .error _ => isTrue fun x' hx' => by cases e.symm.trans hx'

end Heap

/-! ## Switches -/

/-- How a thread leaves: it may come back, or it has ended. -/
inductive Leave where
  | yield
  | terminate
deriving DecidableEq

namespace Leave

/-- The operation that makes the current thread leave. -/
def operation (t : Handle) : Leave → Operation Unit
  | yield => .yieldThread
  | terminate => .terminateThread t

/-- The state in which a thread is left. -/
def state : Leave → ThreadState
  | yield => .yielded
  | terminate => .terminated

/-- What becomes of a thread that has run. -/
def Leaves : Leave → Body → Body → Prop
  | yield, b, b' => ∃ x, b = .thread x ∧ b' = .thread { x with state := .yielded, resumer := none }
  | terminate, b, b' => ∃ x x', b = .thread x ∧ b' = .thread x' ∧ x'.object = x.object ∧
      x'.builtins = x.builtins ∧ x'.state = .terminated ∧ x'.resumer = none ∧ x'.stackRefs = []

variable {o o' : Leave} {b b' b'' : Body} {s : ThreadState} {c : Option Handle}

/-- It does not matter where a thread was before it ran. -/
theorem Leaves.of_repost (h : o.Leaves (.thread { x with state := s, resumer := c }) b) :
    o.Leaves (.thread x) b := by
  cases o with
  | yield =>
    obtain ⟨_, he, rfl⟩ := h
    cases he
    exact ⟨x, rfl, rfl⟩
  | terminate =>
    obtain ⟨_, x', he, rfl, hkeeps⟩ := h
    cases he
    exact ⟨x, x', rfl, rfl, hkeeps⟩

/-- A thread that has left has no resumer. -/
theorem Leaves.left (h : o.Leaves b b') :
    ∃ x, b' = .thread x ∧ x.state = o.state ∧ x.resumer = none := by
  cases o with
  | yield =>
    obtain ⟨x, -, rfl⟩ := h
    exact ⟨_, rfl, rfl, rfl⟩
  | terminate =>
    obtain ⟨_, x', -, rfl, -, -, hstate, hresumer, -⟩ := h
    exact ⟨x', rfl, hstate, hresumer⟩

/-- A thread that has not ended leaves once more. -/
theorem Leaves.trans (h : o.Leaves b (.thread x)) (h' : o'.Leaves (.thread x) b'')
    (hidle : x.state = .inactive ∨ x.state = .yielded) : o'.Leaves b b'' := by
  cases o with
  | yield =>
    obtain ⟨x₀, rfl, he⟩ := h
    cases he
    exact h'.of_repost
  | terminate =>
    obtain ⟨_, _, _, he, _, _, hended, -⟩ := h
    cases he
    rcases hidle with h | h <;> rw [hended] at h <;> cases h

end Leave

/-- The bodies of cells when one thread has resumed another one. -/
def Body.resumed (c t r : Handle) (b : Body) : Body :=
  if r = t then b.modifyThread ({ · with state := .running, resumer := some c })
  else if r = c then b.modifyThread ({ · with state := .resumed })
  else b

theorem Body.resumed_self {c : Handle} {b : Body} :
    b.resumed c t t = b.modifyThread ({ · with state := .running, resumer := some c }) :=
  if_pos rfl

theorem Body.resumed_resumer {c : Handle} {b : Body} (hne : c ≠ t) :
    b.resumed c t c = b.modifyThread ({ · with state := .resumed }) :=
  (if_neg hne).trans (if_pos rfl)

theorem Body.resumed_of_ne {c r : Handle} {b : Body} (ht : r ≠ t) (hc : r ≠ c) :
    b.resumed c t r = b :=
  (if_neg ht).trans (if_neg hc)

theorem Leave.Leaves.of_resumed {o : Leave} {c : Handle} {b b' : Body}
    (h : o.Leaves (b.resumed c t t) b') : o.Leaves b b' := by
  rw [Body.resumed_self] at h
  cases b with
  | thread x => exact h.of_repost
  | object _ => exact h
  | string _ => exact h
  | buffer _ => exact h

/-- The bodies of cells when a thread has left and another one runs again. -/
def leaves (o : Leave) (t c r : Handle) (b b' : Body) : Prop :=
  if r = t then o.Leaves b b'
  else if r = c then b' = b.modifyThread ({ · with state := .running })
  else b' = b

/-- A thread that has ended has left. -/
theorem leaves_of_ends {c r : Handle} (h : ends t (some c) r b b') : leaves .terminate t c r b b' := by
  unfold ends at h
  unfold leaves
  split
  · rename_i hr
    rw [if_pos hr] at h
    obtain ⟨x, x', rfl, rfl, hends⟩ := h
    exact ⟨x, x', rfl, rfl, hends.object, hends.builtins, hends.state, hends.resumer,
      hends.cleared.stackRefs⟩
  · rename_i hr
    rw [if_neg hr] at h
    simpa only [Option.some.injEq, eq_comm] using h

theorem object?_of_leaves {o : Leave} {c r : Handle} {b b' : Body} (h : leaves o t c r b b') :
    b'.object? = b.object? := by
  unfold leaves at h
  split at h
  · cases o with
    | yield =>
      obtain ⟨x, rfl, rfl⟩ := h
      rfl
    | terminate =>
      obtain ⟨x, x', rfl, rfl, ho, -⟩ := h
      exact congrArg some ho
  · split at h
    · rw [h]
      cases b <;> rfl
    · rw [h]

/-- Threads in different states are different. -/
theorem ne_of_states {h : Heap} {s s' : ThreadState} (hx : h.thread t = .ok x) (hs : x.state = s)
    (hy : h.thread m = .ok y) (hs' : y.state = s') (hne : s ≠ s') : t ≠ m := by
  rintro rfl
  rw [hx] at hy
  cases hy
  exact hne (hs.symm.trans hs')

/-- A world between two operations of a run, where counts are exact and no finalizer is found. -/
structure Ready (host : Host σ) (fuel : ℕ) (X : Multiset Handle) (w : World σ) : Prop
    extends Poised True fuel X w where
  reachable : Reachable host w

namespace Ready

variable {c : Handle} {β : Type} {op : Operation β} {Q : β → World σ → Prop}

/-- What holds after an operation holds of a world that is reached. -/
theorem perform (hr : Ready host fuel X w)
    (hop : Succeeds ((Engine.top host fuel).perform op) w fun a w' => Poised True fuel X w' ∧ Q a w') :
    Succeeds ((Engine.top host fuel).perform op) w fun a w' => Ready host fuel X w' ∧ Q a w' :=
  (hop.and fun _ _ e => Reachable.perform hr.reachable e).mono fun _ _ h => ⟨⟨h.1.1, h.2⟩, h.1.2⟩

/-- A thread that has not run, or has yielded, is resumed. -/
theorem resume (hr : Ready host fuel X w) (hc : w.heap.current = some c)
    (hy : w.heap.thread c = .ok y) (hrun : y.state = .running) (ht : w.heap.Idle t) :
    Succeeds ((Engine.top host fuel).perform (.resumeThread t)) w fun _ w' =>
      Ready host fuel X w' ∧ w'.heap.current = some t ∧
        Becomes (fun r b b' => b' = b.resumed c t r) w.heap w'.heap := by
  refine hr.perform ?_
  have hne : c ≠ t := ht.ne hy (hrun ▸ rfl)
  obtain ⟨x, hx, hidle⟩ := id ht
  have halone : x.resumer = none := ht.resumer hr.reachable.proper hx
  have hcheck : w.heap.checkResume t = .ok (c, none) := by
    unfold Heap.checkResume
    simp only [Heap.bind_eq_ok, Heap.ite_throw_eq_ok]
    refine ⟨c, Heap.runningThread_ok hc hy hrun, hne, x, hx, ?_⟩
    rcases hidle with h | h <;> rw [h, halone] <;> rfl
  have hbody := Heap.body?_switchTo hy hx hne
  have hswitched : Becomes (fun r b b' => b' = b.resumed c t r) w.heap (w.heap.switchTo c t) := by
    have haside : (w.heap.switchTo c t).roots = w.heap.roots ∧
        (w.heap.switchTo c t).finalizerKey = w.heap.finalizerKey := by
      unfold Heap.switchTo Heap.retain
      split <;> exact ⟨rfl, rfl⟩
    refine Heap.becomes_of_two hbody (Heap.body?_eq_thread.mpr hy) (Heap.body?_eq_thread.mpr hx) ?_ ?_
      (fun r b hrc hrt => ?_) haside.1 haside.2
    · exact (Body.resumed_resumer (b := .thread y) hne).symm
    · exact (Body.resumed_self (b := .thread x)).symm
    · exact (Body.resumed_of_ne hrt hrc).symm
  have hbecomes : Becomes (fun r b b' => b' = b.resumed c t r) w.heap
      ((w.heap.switchTo c t).setCurrent (some t)) := hswitched.setCurrent
  have hkept := hr.kept.switchTo (Heap.steady_outsidePass []) hy hx hne
  rw [halone] at hkept
  change Succeeds ((Engine.top host fuel).resumeThread t) w _
  unfold Engine.resumeThread
  simp only [succeeds_bind, succeeds_check]
  refine ⟨_, hcheck, ?_⟩
  simp only [succeeds_surely, returns_modifyHeap, after_modifyHeap, true_and]
  refine ⟨returns_pure, after_pure.mpr ?_⟩
  refine ⟨hr.becomes ?_ hbecomes fun r b b' he => ?_, rfl, hbecomes⟩
  · exact (by simpa using hkept : Kept _ _ _ X).setCurrent (Heap.steady_outsidePass []) _
  · rw [he]
    unfold Body.resumed
    split
    · cases b <;> rfl
    · split
      · cases b <;> rfl
      · rfl

/-- The running thread hands back to its resumer. -/
theorem yieldThread (hr : Ready host fuel X w) (hc : w.heap.current = some t) (hm : m ∈ X)
    (hx : w.heap.thread t = .ok x) (hrun : x.state = .running) (hresumer : x.resumer = some m)
    (hy : w.heap.thread m = .ok y) (hwait : y.state = .resumed) (hfree : w.heap.MayYield t) :
    Succeeds ((Engine.top host fuel).perform .yieldThread) w fun _ w' =>
      Ready host fuel X w' ∧ w'.heap.current = some m ∧ Becomes (leaves .yield t m) w.heap w'.heap := by
  refine hr.perform ?_
  have hne : t ≠ m := ne_of_states hx hrun hy hwait (by decide)
  have hnone : x.preventing = 0 := by
    rw [(hr.reachable.proper t x hx).preventing, List.countP_eq_zero]
    exact fun a ha => by simp [hfree x hx a (Array.mem_toList_iff.mp ha)]
  have hcheck : w.heap.checkYield = .ok (t, m) := by
    unfold Heap.checkYield
    simp only [Heap.bind_eq_ok, Heap.ite_throw_eq_ok]
    refine ⟨t, Heap.runningThread_ok hc hx hrun, x, hx, by omega, ?_⟩
    rw [hresumer]
    exact Heap.bind_eq_ok.mpr ⟨(), Heap.checkState_ok hy hwait, rfl⟩
  have hbecomes : Becomes (leaves .yield t m) w.heap (w.heap.switchBack t m) := by
    refine Heap.becomes_of_two (Heap.body?_switchBack hx hy hne) (Heap.body?_eq_thread.mpr hx)
      (Heap.body?_eq_thread.mpr hy) ?_ ?_ (fun r b hrt hrm => ?_) rfl rfl
    · simp only [leaves, if_true]
      exact ⟨x, rfl, rfl⟩
    · simp only [leaves, if_neg hne.symm, if_true]
      rfl
    · simp only [leaves, if_neg hrt, if_neg hrm]
  have hswitched : Poised True fuel (X + {m}) (⟨w.heap.switchBack t m, w.host⟩ : World σ) :=
    hr.becomes (hr.kept.switchBack (Heap.steady_outsidePass []) hx hresumer hy) hbecomes
      fun _ _ _ => object?_of_leaves
  have hrelease := hswitched.release host
  change Succeeds (Engine.top host fuel).yieldThread w _
  unfold Engine.yieldThread
  simp only [succeeds_bind, succeeds_check]
  refine ⟨_, hcheck, ?_⟩
  simp only [succeeds_surely, returns_modifyHeap, after_modifyHeap, true_and] at hrelease ⊢
  refine ⟨hrelease.1, hrelease.2.mono fun _ w' h => ?_⟩
  exact ⟨h.1, h.2.shrinks.current_of_live rfl (h.1.live hm), hbecomes.trans h.2.shrinks.becomes
    fun _ _ _ _ _ _ hleaves he => he ▸ hleaves⟩

/-- The running thread ends, and its resumer runs again. -/
theorem terminateThread (hr : Ready host fuel X w) (hc : w.heap.current = some t) (ht : t ∈ X)
    (hm : m ∈ X) (hx : w.heap.thread t = .ok x) (hrun : x.state = .running)
    (hresumer : x.resumer = some m) (hy : w.heap.thread m = .ok y) (hwait : y.state = .resumed) :
    Succeeds ((Engine.top host fuel).perform (.terminateThread t)) w fun _ w' =>
      Ready host fuel X w' ∧ w'.heap.current = some m ∧
        Becomes (leaves .terminate t m) w.heap w'.heap := by
  refine hr.perform ?_
  have hlink : ∀ r, x.resumer = some r → t ≠ r ∧ ∃ y, w.heap.thread r = .ok y := by
    intro r hm'
    obtain rfl : m = r := Option.some.inj (hresumer.symm.trans hm')
    exact ⟨ne_of_states hx hrun hy hwait (by decide), y, hy⟩
  have hend := hr.toPoised.terminateThread host hx (hr.reachable.proper t x hx) hrun hc hlink
  -- The thread is held, so it is there to be ended.
  refine (hend.succeeds fun e w' h => ?_).mono fun _ w' h => ?_
  · have hlive := h.2.2.2.poised.live ht
    rw [h.2.1] at hlive
    cases hlive
  · obtain ⟨hp, hbecomes, hcurrent⟩ := h
    rw [hresumer] at hbecomes hcurrent
    refine ⟨hp, ?_, hbecomes.mono fun _ _ _ => leaves_of_ends⟩
    rw [hcurrent, Option.filter_some, if_pos (hp.live hm)]

/-- The running thread leaves, and its resumer runs again. -/
theorem leave (o : Leave) (hr : Ready host fuel X w) (hc : w.heap.current = some t) (ht : t ∈ X)
    (hm : m ∈ X) (hx : w.heap.thread t = .ok x) (hrun : x.state = .running)
    (hresumer : x.resumer = some m) (hy : w.heap.thread m = .ok y) (hwait : y.state = .resumed)
    (hfree : o = .yield → w.heap.MayYield t) :
    Succeeds ((Engine.top host fuel).perform (o.operation t)) w fun _ w' =>
      Ready host fuel X w' ∧ w'.heap.current = some m ∧ Becomes (leaves o t m) w.heap w'.heap :=
  match o with
  | .yield => hr.yieldThread hc hm hx hrun hresumer hy hwait (hfree rfl)
  | .terminate => hr.terminateThread hc ht hm hx hrun hresumer hy hwait

end Ready

end CountedHeap
