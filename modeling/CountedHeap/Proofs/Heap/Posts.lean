import CountedHeap.Proofs.Heap.Withers
import CountedHeap.Proofs.Keep.Threads

/-!
# Where threads stand

The state of a thread and its resumer change only where threads are switched: all else leaves them
alone, unless the thread is freed.

* `Heap.post`: the state of a thread and its resumer.
* `Heap.Stands`: threads stand where they stood, and new ones have not run.
* `Touch.stands`, `Stroke.stands`: what strokes do.
* `Withers.post`, `Withers.post_current`: what passes and drains do.
* `post_modifyThread`: what a change of one thread does.
-/

namespace CountedHeap.Heap

variable {h h' : Heap} {t r : Handle} {n i : ℕ} {b : Body} {p : ThreadState × Option Handle}
  {x : Thread} {s : ThreadState} {o : Option Handle}

/-- The state of a thread and its resumer, if the handle names a thread. -/
def post (h : Heap) (t : Handle) : Option (ThreadState × Option Handle) :=
  (h.arena.get? t).bind (·.body.post)

theorem post_of_holds (hb : h.arena.Holds t n b) : h.post t = b.post := by
  obtain ⟨c, hc, -, rfl⟩ := hb.get?
  unfold post
  rw [hc, Option.bind_some]

theorem post_eq_some : h.post t = some p ↔ ∃ n b, h.arena.Holds t n b ∧ b.post = some p := by
  constructor
  · intro hp
    obtain ⟨c, hc, hb⟩ := Option.bind_eq_some_iff.mp hp
    exact ⟨_, _, Arena.holds_of_get? hc, hb⟩
  · rintro ⟨n, b, hb, hp⟩
    rwa [post_of_holds hb]

theorem post_of_thread (ht : h.thread t = .ok x) : h.post t = some (x.state, x.resumer) := by
  obtain ⟨header, hc⟩ := thread_eq_ok.mp ht
  exact post_of_holds (Arena.holds_of_get? hc)

theorem thread_of_post (hp : h.post t = some (s, o)) :
    ∃ x, h.thread t = .ok x ∧ x.state = s ∧ x.resumer = o := by
  obtain ⟨⟨header, body⟩, hc, hb⟩ := Option.bind_eq_some_iff.mp hp
  cases body with
  | thread x =>
    simp only [Body.post, Option.some.injEq, Prod.mk.injEq] at hb
    exact ⟨x, thread_eq_ok.mpr ⟨header, hc⟩, hb⟩
  | object _ => cases hb
  | string _ => cases hb
  | buffer _ => cases hb

theorem post_congr (hc : h'.arena.core = h.arena.core) : h'.post t = h.post t := by
  refine Option.ext fun p => ?_
  rw [post_eq_some, post_eq_some]
  unfold Arena.Holds
  rw [hc]

theorem composite_of_post (hp : h.post t = some p) : h.arena.Composite t := by
  obtain ⟨n, b, hb, hpost⟩ := post_eq_some.mp hp
  refine ⟨n, b, hb, ?_⟩
  cases b with
  | thread x => rfl
  | object _ => cases hpost
  | string _ => cases hpost
  | buffer _ => cases hpost

/-- Threads in the same slot are the same. -/
theorem eq_of_posts {p' : ThreadState × Option Handle} (ht : h.post t = some p) (hr : h.post r = some p')
    (hi : t.index = r.index) : t = r := by
  obtain ⟨n, b, hb, -⟩ := post_eq_some.mp ht
  obtain ⟨m, c, hc, -⟩ := post_eq_some.mp hr
  rw [← hb.handleAt, ← hc.handleAt, hi]

/-- A thread is found by its slot. -/
theorem exists_post {Q : Handle → ThreadState × Option Handle → Prop} :
    (∃ t p, h.post t = some p ∧ Q t p) ↔ ∃ i ∈ List.range h.arena.slots.size,
      ∃ p ∈ h.post (h.arena.handleAt i), Q (h.arena.handleAt i) p := by
  constructor
  · rintro ⟨t, p, hp, hQ⟩
    obtain ⟨n, b, hb, -⟩ := post_eq_some.mp hp
    have hat := hb.handleAt
    exact ⟨t.index, List.mem_range.mpr (Arena.lt_size_of_core hb), p, hat.symm ▸ hp, hat.symm ▸ hQ⟩
  · rintro ⟨i, -, p, hp, hQ⟩
    exact ⟨_, p, hp, hQ⟩

theorem post_modifyAt {f : Cell → Cell} (hf : ∀ c, (f c).body.post = c.body.post) :
    (h.modifyAt i f).post t = h.post t := by
  unfold post
  rw [show (h.modifyAt i f).arena = h.arena.modifyAt i f from rfl, Arena.get?_modifyAt]
  split
  · cases h.arena.get? t with
    | none => rfl
    | some c => exact hf c
  · rfl

/-- A change of one thread changes where this thread stands. -/
theorem post_modifyThread {f : Thread → Thread} {s' : ThreadState} {o' : Option Handle}
    (ht : h.post t = some (s, o))
    (hf : ∀ x, x.state = s → x.resumer = o → (f x).state = s' ∧ (f x).resumer = o') :
    (h.modifyThread t f).post = Function.update h.post t (some (s', o')) := by
  obtain ⟨x, hx, hs, ho⟩ := thread_of_post ht
  obtain ⟨rfl, rfl⟩ := hf x hs ho
  obtain ⟨header, hc⟩ := thread_eq_ok.mp hx
  funext r
  unfold post
  rw [show (h.modifyThread t f).arena =
    h.arena.modifyAt t.index (·.modifyBody (·.modifyThread f)) from rfl, Arena.get?_modifyAt]
  by_cases hr : r = t
  · rw [hr, if_pos rfl, Function.update_self, hc]
    rfl
  · rw [Function.update_of_ne hr]
    split
    · rename_i hi
      cases hc' : h.arena.get? r with
      | none => rfl
      | some c =>
        exact absurd ((Arena.holds_of_get? hc').eq_of_index (Arena.holds_of_get? hc) hi) hr
    · rfl

theorem post_setState (ht : h.post t = some (s, o)) (s' : ThreadState) :
    (h.setState t s').post = Function.update h.post t (some (s', o)) :=
  post_modifyThread ht fun _ _ ho => ⟨rfl, ho⟩

theorem post_retain : (h.retain r).post = h.post := by
  funext t
  unfold retain
  split
  · exact post_modifyAt fun _ => rfl
  · rfl

@[simp] theorem arena_setCurrent {q : Option Handle} : (h.setCurrent q).arena = h.arena := rfl

@[simp] theorem finalizerKey_setCurrent {q : Option Handle} :
    (h.setCurrent q).finalizerKey = h.finalizerKey := rfl

@[simp] theorem post_setCurrent {q : Option Handle} : (h.setCurrent q).post = h.post := rfl

theorem post_switchTo {c : Handle} {p' : ThreadState × Option Handle}
    (hc : h.post c = some (s, o)) (ht : h.post t = some p') (hne : c ≠ t) :
    (h.switchTo c t).post = Function.update (Function.update h.post c (some (.resumed, o))) t
      (some (.running, some c)) := by
  have ht' : (h.setState c .resumed).post t = some p' := by
    rwa [post_setState hc, Function.update_of_ne hne.symm]
  have ht'' := post_modifyThread ht' (f := ({ · with state := .running, resumer := some c }))
    fun _ _ _ => ⟨rfl, rfl⟩
  unfold switchTo
  rw [post_retain, ht'', post_setState hc]

theorem post_switchBack {c : Handle} {s' : ThreadState} {o' : Option Handle}
    (hc : h.post c = some p) (hr : h.post r = some (s', o')) (hne : c ≠ r) :
    (h.switchBack c r).post = Function.update (Function.update h.post c (some (.yielded, none))) r
      (some (.running, o')) := by
  have hc' := post_modifyThread hc (f := ({ · with state := .yielded, resumer := none }))
    fun _ _ _ => ⟨rfl, rfl⟩
  have hr' : (h.modifyThread c ({ · with state := .yielded, resumer := none })).post r =
      some (s', o') := by
    rwa [hc', Function.update_of_ne hne.symm]
  unfold switchBack
  rw [post_setCurrent, post_setState hr', hc']

/-- A thread that has ended has no resumer. -/
theorem post_endThread_none (ht : h.post t = some p) :
    (h.endThread t none).post = Function.update h.post t (some (.terminated, none)) := by
  have ht' := post_modifyThread ht (f := ({ · with state := .terminated, resumer := none }))
    fun _ _ _ => ⟨rfl, rfl⟩
  unfold endThread
  dsimp only
  split
  · exact ht'
  · exact ht'

/-- The resumer of a thread that has ended runs again. -/
theorem post_endThread_some {s' : ThreadState} {o' : Option Handle} (ht : h.post t = some p)
    (hr : Function.update h.post t (some (.terminated, none)) r = some (s', o')) :
    (h.endThread t (some r)).post = Function.update
      (Function.update h.post t (some (.terminated, none))) r (some (.running, o')) := by
  have ht' := post_modifyThread ht (f := ({ · with state := .terminated, resumer := none }))
    fun _ _ _ => ⟨rfl, rfl⟩
  rw [← ht'] at hr ⊢
  obtain ⟨x, hx, -⟩ := thread_of_post hr
  unfold endThread wake
  dsimp only
  rw [hx]
  exact post_setState hr _

/-! ## What checks say -/

theorem post_of_checkState (hc : h.checkState t s = .ok ()) : ∃ o, h.post t = some (s, o) := by
  unfold checkState at hc
  simp only [bind_eq_ok] at hc
  obtain ⟨x, hx, hs⟩ := hc
  split at hs
  · rename_i he
    exact ⟨_, he ▸ post_of_thread hx⟩
  · cases hs

theorem posts_of_checkStart (hc : h.checkStart t = .ok ()) : (∃ o, h.post t = some (.inactive, o)) ∧
    ∀ c, h.current = some c → ∀ o, h.post c ≠ some (.running, o) := by
  unfold checkStart at hc
  simp only [bind_eq_ok] at hc
  obtain ⟨_, hs, hcur⟩ := hc
  refine ⟨post_of_checkState hs, fun c hc o hp => ?_⟩
  rw [hc] at hcur
  obtain ⟨x, hx, hrun, -⟩ := thread_of_post hp
  simp only [bind_eq_ok] at hcur
  obtain ⟨x', hx', hidle⟩ := hcur
  rw [hx] at hx'
  cases hx'
  rw [if_pos hrun] at hidle
  cases hidle

theorem posts_of_runningThread (hc : h.runningThread = .ok t) :
    h.current = some t ∧ ∃ o, h.post t = some (.running, o) := by
  unfold runningThread at hc
  cases hcur : h.current with
  | none => simp [hcur, throw, throwThe, MonadExceptOf.throw] at hc
  | some c =>
    rw [hcur] at hc
    simp only [bind_eq_ok] at hc
    obtain ⟨_, hs, hr⟩ := hc
    cases hr
    exact ⟨rfl, post_of_checkState hs⟩

theorem posts_of_checkResume {c target : Handle} {old : Option Handle}
    (hc : h.checkResume target = .ok (c, old)) :
    h.current = some c ∧ (∃ o, h.post c = some (.running, o)) ∧ c ≠ target ∧
      ∃ s, h.post target = some (s, old) ∧ (s = .inactive ∨ s = .yielded) := by
  unfold checkResume at hc
  simp only [bind_eq_ok, ite_throw_eq_ok] at hc
  obtain ⟨d, hd, hne, x, hx, hb⟩ := hc
  have hfound : (x.state = .inactive ∨ x.state = .yielded) ∧ d = c ∧ x.resumer = old := by
    cases hs : x.state <;>
      simp [hs, pure, Except.pure, throw, throwThe, MonadExceptOf.throw] at hb ⊢ <;> exact hb
  obtain ⟨hs, rfl, rfl⟩ := hfound
  obtain ⟨hcur, hrun⟩ := posts_of_runningThread hd
  exact ⟨hcur, hrun, hne, _, post_of_thread hx, hs⟩

theorem posts_of_checkYield {c : Handle} (hc : h.checkYield = .ok (c, r)) :
    h.current = some c ∧ h.post c = some (.running, some r) ∧ ∃ o, h.post r = some (.resumed, o) := by
  unfold checkYield at hc
  simp only [bind_eq_ok, ite_throw_eq_ok] at hc
  obtain ⟨d, hd, x, hx, -, hb⟩ := hc
  obtain ⟨hcur, o, hrun⟩ := posts_of_runningThread hd
  cases hr : x.resumer with
  | none => simp [hr, throw, throwThe, MonadExceptOf.throw] at hb
  | some q =>
    rw [hr] at hb
    simp only [bind_eq_ok] at hb
    obtain ⟨_, hs, hb⟩ := hb
    cases hb
    have hpost := post_of_thread hx
    rw [hrun, hr] at hpost
    simp only [Option.some.injEq, Prod.mk.injEq] at hpost
    exact ⟨hcur, hpost.2 ▸ hrun, post_of_checkState hs⟩

theorem post_of_resumer (hr : (h.thread t).map (·.resumer) = .ok o) :
    ∃ s, h.post t = some (s, o) := by
  cases hx : h.thread t with
  | error e => simp [hx, Except.map] at hr
  | ok x =>
    rw [hx] at hr
    cases hr
    exact ⟨_, post_of_thread hx⟩

/-! ## Threads that stand where they stood -/

/-- Threads stand where they stood, and new ones have not run. -/
structure Stands (h h' : Heap) : Prop where
  free : h'.arena.FreeOk
  current : h'.current = h.current
  old : ∀ t p, h.post t = some p → h'.post t = some p
  new : ∀ t p, h'.post t = some p → h.post t = some p ∨ p = (.inactive, none)

theorem Stands.of_post (hf : h'.arena.FreeOk) (hc : h'.current = h.current)
    (hp : ∀ t, h'.post t = h.post t) : Stands h h' :=
  ⟨hf, hc, fun t _ ht => (hp t).trans ht, fun t _ ht => .inl ((hp t).symm.trans ht)⟩

theorem Stands.modifyBody {f : Body → Body} (hf : h.arena.FreeOk)
    (hpost : ∀ b, (f b).post = b.post) : Stands h (h.modifyAt i (·.modifyBody f)) :=
  .of_post (hf.modifyAt _) rfl fun _ => post_modifyAt fun c => hpost c.body

theorem Touch.stands (ht : Touch h h') (hf : h.arena.FreeOk) : Stands h h' := by
  cases ht with
  | retain r =>
    unfold Heap.retain
    split
    · exact .of_post (hf.modifyAt _) rfl fun _ => post_modifyAt fun _ => rfl
    · exact .of_post hf rfl fun _ => rfl
  | body i hakin => exact .modifyBody hf fun b => (hakin b).post
  | aside harena _ hcurrent _ _ _ _ =>
    exact .of_post (harena ▸ hf) hcurrent fun _ => post_congr (by rw [harena])

/-- Strokes leave threads where they stand. -/
theorem Stroke.stands (hs : Stroke h h') (hf : h.arena.FreeOk) : Stands h h' := by
  cases hs with
  | touch ht => exact ht.stands hf
  | roots values free => exact .of_post hf rfl fun _ => rfl
  | link r proto => exact .modifyBody hf fun _ => Body.post_modifyObject
  | builtin t id r => exact .modifyBody hf fun _ => Body.post_modifyThread fun _ => ⟨rfl, rfl⟩
  | resize r length =>
    have hcore : (h.arena.account r.index (Body.cellBytes + length)).core = h.arena.core :=
      Arena.core_account _
    have hfree : (h.arena.account r.index (Body.cellBytes + length)).FreeOk := hf.of_core rfl hcore
    refine .of_post (hfree.modifyAt _) rfl fun t => ?_
    have haccount : (h.modifyArena (·.account r.index (Body.cellBytes + length))).post t = h.post t :=
      post_congr hcore
    rw [← haccount]
    exact post_modifyAt fun _ => Body.post_modifyBuffer
  | @place b hb =>
    refine ⟨hf.place b, rfl, fun t p ht => ?_, fun t p ht => ?_⟩
    · obtain ⟨n, b', hb', hp⟩ := post_eq_some.mp ht
      exact post_eq_some.mpr ⟨n, b', hb'.place hf b, hp⟩
    · obtain ⟨n, b', hb', hp⟩ := post_eq_some.mp ht
      rcases Arena.holds_of_place hf hb' with ⟨-, rfl⟩ | hold
      · refine .inr ?_
        rcases hb with hb | hb
        · rw [hb] at hp
          cases hp
        · rw [hb] at hp
          exact (Option.some.inj hp).symm
      · exact .inl (post_eq_some.mpr ⟨n, b', hold, hp⟩)

namespace Withers

/-- What is left stands where it stood. -/
theorem post (hw : Withers h h') (hp : h'.post t = some p) : h.post t = some p := by
  obtain ⟨n, b, hb, hpost⟩ := post_eq_some.mp hp
  obtain ⟨m, hm⟩ := hw.cells t n b hb
  exact post_eq_some.mpr ⟨m, b, hm, hpost⟩

theorem post_of_composite (hw : Withers h h') (ht : h'.arena.Composite t) : h'.post t = h.post t := by
  obtain ⟨n, b, hb, -⟩ := ht
  obtain ⟨m, hm⟩ := hw.cells t n b hb
  rw [post_of_holds hm, post_of_holds hb]

/-- The current thread is left. -/
theorem post_current (hw : Withers h h') (hc : h'.current = some t) (hp : h.post t = some p) :
    h'.post t = some p :=
  (hw.post_of_composite (hw.spared t hc (composite_of_post hp))).trans hp

end Withers

end CountedHeap.Heap
