import CountedHeap.Proofs.Collection
import CountedHeap.Proofs.Coroutines.Unwinding

/-!
# The end of a thread

A thread that runs is ended: its stacks are emptied, and its resumer, if it has one, runs again. What is
given back meanwhile may hold the last count of the thread, of its resumer, or of anything else. Where
counts are exact and no finalizer is found, all of this comes to an end, but if the thread is freed with
what was on its stacks, it cannot be ended any more, and its resumer goes on waiting.

* `ends`: what becomes of cells.
* `Poised.terminateThread`: the steps.
* `thread_ended`: what ending a thread does.
-/

namespace CountedHeap

open Heap (Attends Kept OutsidePass Wanes Becomes)

variable {σ : Type} {host : Host σ} {fuel : ℕ} {w w' : World σ} {X : Multiset Handle} {t r : Handle}
  {m : Option Handle} {x x' : Thread} {b b' b'' : Body}

/-- A thread before it is ended and afterwards. -/
structure Thread.Ends (x x' : Thread) : Prop where
  object : x'.object = x.object
  builtins : x'.builtins = x.builtins
  state : x'.state = .terminated
  resumer : x'.resumer = none
  cleared : x'.Cleared

/-- What becomes of the bodies of cells when a thread has ended and another one runs again. -/
def ends (t : Handle) (m : Option Handle) (r : Handle) (b b' : Body) : Prop :=
  if r = t then ∃ x x', b = .thread x ∧ b' = .thread x' ∧ x.Ends x'
  else if m = some r then b' = b.modifyThread ({ · with state := .running })
  else b' = b

theorem ends.object? (h : ends t m r b b') : b'.object? = b.object? := by
  unfold ends at h
  split at h
  · obtain ⟨x, x', rfl, rfl, hends⟩ := h
    exact congrArg some hends.object
  · split at h
    · rw [h]
      cases b <;> rfl
    · rw [h]

/-- It does not matter what was taken off the stacks before. -/
theorem ends.of_trims (h : trims t r b b') (h' : ends t m r b' b'') : ends t m r b b'' := by
  rcases h with rfl | ⟨rfl, x, x', rfl, rfl, htrims⟩
  · exact h'
  · unfold ends at h' ⊢
    rw [if_pos rfl] at h' ⊢
    obtain ⟨_, x'', he, rfl, hends⟩ := h'
    cases he
    exact ⟨x, x'', rfl, rfl, hends.object.trans htrims.object, hends.builtins.trans htrims.builtins,
      hends.state, hends.resumer, hends.cleared⟩

namespace Heap

variable {h : Heap}

theorem becomes_endThread (hx : h.thread t = .ok x) (hcleared : x.Cleared)
    (hlink : ∀ m, x.resumer = some m → t ≠ m ∧ ∃ y, h.thread m = .ok y) :
    Becomes (ends t x.resumer) h (h.endThread t x.resumer) := by
  have haside : (h.endThread t x.resumer).roots = h.roots ∧
      (h.endThread t x.resumer).finalizerKey = h.finalizerKey := aside_endThread
  have hended : ends t x.resumer t (.thread x)
      (.thread { x with state := .terminated, resumer := none }) := by
    unfold ends
    rw [if_pos rfl]
    exact ⟨x, _, rfl, rfl, rfl, rfl, rfl, rfl, hcleared.values, hcleared.calls, hcleared.catchers⟩
  cases hm : x.resumer with
  | none =>
    rw [hm] at haside hended
    refine ⟨fun r b' hb' => ?_, haside.1, haside.2⟩
    rw [body?_endThread_none hx] at hb'
    by_cases hr : r = t
    · subst hr
      rw [Function.update_self] at hb'
      cases hb'
      exact ⟨_, body?_eq_thread.mpr hx, hended⟩
    · rw [Function.update_of_ne hr] at hb'
      refine ⟨b', hb', ?_⟩
      unfold ends
      rw [if_neg hr, if_neg (Option.some_ne_none r).symm]
  | some m =>
    rw [hm] at haside hended
    obtain ⟨hne, y, hy⟩ := hlink m hm
    refine becomes_of_two (body?_endThread hx hy hne) (body?_eq_thread.mpr hx) (body?_eq_thread.mpr hy)
      hended ?_ (fun r b hrt hrm => ?_) haside.1 haside.2
    · unfold ends
      rw [if_neg hne.symm, if_pos rfl]
      rfl
    · unfold ends
      rw [if_neg hrt, if_neg fun he => hrm (Option.some.inj he).symm]

/-- A thread has ended. Its resumer is the current thread, as long as it is there. -/
theorem current_of_endThread {h' : Heap} (hx : h.thread t = .ok x) (hc : h.current = some t)
    (hlink : ∀ m, x.resumer = some m → t ≠ m ∧ ∃ y, h.thread m = .ok y)
    (ha : Attends (h.endThread t x.resumer) h') : h'.current = x.resumer.filter (h'.isLive ·) := by
  cases hm : x.resumer with
  | none =>
    rw [hm] at ha
    have hnone : (h.endThread t none).current = none := current_endThread.trans (if_pos hc)
    exact ha.idle hnone
  | some m =>
    rw [hm] at ha
    obtain ⟨hne, y, hy⟩ := hlink m hm
    refine ha.current_eq rfl (composite_iff_body?.mpr ⟨.thread { y with state := .running }, ?_, rfl⟩)
    rw [body?_endThread hx hy hne, Function.update_self]

end Heap

namespace Poised

/-- What a thread refers to is there. -/
theorem live_of_ref (hp : Poised True fuel X w) (hx : w.heap.thread t = .ok x) (hr : r ∈ x.refs) :
    w.heap.isLive r = true := by
  obtain ⟨header, hcell⟩ := Heap.thread_eq_ok.mp hx
  exact hp.kept.exact.whole t _ _ (Arena.holds_of_get? hcell) r hr

/-- The resumer of a thread is counted by the thread. It is not touched while the stacks are emptied. -/
theorem resumer_of_trimmed {w₁ : World σ} {m : Handle} {x₁ y : Thread}
    (htrimmed : Trimmed True fuel X t w w₁) (hx₁ : w₁.heap.thread t = .ok x₁)
    (hm : x₁.resumer = some m) (hne : t ≠ m) (hy : w.heap.thread m = .ok y) :
    w₁.heap.thread m = .ok y := by
  have hmem : m ∈ x₁.refs := by
    unfold Thread.refs
    rw [hm]
    simp
  obtain ⟨b, hb⟩ := Heap.exists_body?.mpr (htrimmed.poised.live_of_ref hx₁ hmem)
  obtain ⟨b', hb', rfl | ⟨hmt, -⟩⟩ := htrimmed.becomes.cells m b hb
  · rw [Heap.body?_eq_thread.mpr hy] at hb'
    cases hb'
    exact Heap.body?_eq_thread.mp hb
  · exact absurd hmt.symm hne

/-- The running thread is ended. It may be freed with what was on its stacks. -/
theorem terminateThread (host : Host σ) (hp : Poised True fuel X w) (hx : w.heap.thread t = .ok x)
    (hproper : x.Proper) (hs : x.state = .running) (hc : w.heap.current = some t)
    (hlink : ∀ m, x.resumer = some m → t ≠ m ∧ ∃ y, w.heap.thread m = .ok y) :
    Settles ((Engine.top host fuel).terminateThread t) w
      (fun e w' => e = .invalidHandle ∧ w'.heap.isLive t = false ∧ w'.heap.current = none ∧
        Trimmed True fuel X t w w')
      (fun _ w' => Poised True fuel X w' ∧ Becomes (ends t x.resumer) w.heap w'.heap ∧
        w'.heap.current = x.resumer.filter (w'.heap.isLive ·)) := by
  have hcurrent : ∀ w', Trimmed True fuel X t w w' →
      w'.heap.current = (some t).filter (w'.heap.isLive ·) := fun w' htrimmed =>
    htrimmed.attends.current_eq hc (Heap.composite_of_post (Heap.post_of_thread hx))
  have hgone : ∀ w', w'.heap.isLive t = false → Trimmed True fuel X t w w' → w'.heap.current = none := by
    intro w' hdead htrimmed
    simp [hcurrent w' htrimmed, hdead]
  rw [Engine.terminateThread_eq, settles_bind]
  refine (hp.unwindAll host hx hproper hs).mono ?_ ?_
  · rintro e w₁ ⟨he, hdead, htrimmed⟩
    exact ⟨he, hdead, hgone w₁ hdead htrimmed, htrimmed⟩
  · rintro _ w₁ ⟨htrimmed, hleft⟩
    simp only [settles_bind, settles_check, settles_surely, returns_modifyHeap, after_modifyHeap, true_and]
    by_cases hlive : w₁.heap.isLive t = true
    · obtain ⟨x₁, hx₁, htrims, hcleared⟩ := hleft hlive
      have hsame : x₁.resumer = x.resumer := htrims.resumer
      have hlink₁ : ∀ m, x₁.resumer = some m → t ≠ m ∧ ∃ y, w₁.heap.thread m = .ok y := by
        intro m hm
        obtain ⟨hne, y, hy⟩ := hlink m (hsame ▸ hm)
        exact ⟨hne, y, resumer_of_trimmed htrimmed hx₁ hm hne hy⟩
      have hbecomes : Becomes (ends t x.resumer) w.heap (w₁.heap.endThread t x₁.resumer) :=
        htrimmed.becomes.trans (Heap.becomes_endThread hx₁ hcleared hlink₁) fun _ _ _ _ _ _ htrim hend =>
          ends.of_trims htrim (hsame ▸ hend)
      have hended : Poised True fuel (X + x₁.resumer.toList)
          (⟨w₁.heap.endThread t x₁.resumer, w₁.host⟩ : World σ) :=
        hp.becomes (htrimmed.poised.kept.endThread (Heap.steady_outsidePass []) hx₁) hbecomes
          fun _ _ _ => ends.object?
      have hrelease := hended.releaseAll host
      rw [succeeds_surely] at hrelease
      rw [hx₁]
      refine ⟨fun _ he => (by cases he), fun m hm => ?_⟩
      cases hm
      refine ⟨hrelease.1, hrelease.2.mono fun _ w' h => ⟨h.1, ?_, ?_⟩⟩
      · exact hbecomes.trans h.2.shrinks.becomes fun _ _ _ _ _ _ hends he => he ▸ hends
      · rw [← hsame]
        refine Heap.current_of_endThread hx₁ ?_ hlink₁ h.2.attends
        simp [hcurrent w₁ htrimmed, hlive]
    · rw [Bool.not_eq_true] at hlive
      rw [Heap.thread_of_dead hlive]
      refine ⟨fun e he => ?_, fun _ he => by cases he⟩
      cases he
      exact ⟨rfl, hlive, hgone w₁ hlive htrimmed, htrimmed⟩

end Poised

/-! ## What ending a thread does -/

theorem ends.refs (h : ends t m r b b') (hr : r ≠ t) : b'.refs = b.refs := by
  unfold ends at h
  rw [if_neg hr] at h
  split at h
  · rw [h]
    cases b <;> rfl
  · rw [h]

/-- A thread that has ended owns nothing that was on its stacks, and has no resumer. -/
theorem Thread.Ends.refs (h : x.Ends x') :
    (x.refs : Multiset Handle) = x'.refs + ((x.stackRefs : Multiset Handle) + x.resumer.toList) := by
  rw [Thread.refs_eq, Thread.refs_eq, h.object, h.builtins, h.cleared.stackRefs, h.resumer]
  simp only [Option.toList_none, Multiset.coe_nil, add_zero, add_assoc]

/-- What holds after the running thread has been ended, given the heap before. -/
structure Heap.HandsBack (t : Handle) (x : Thread) (h h' : Heap) : Prop where
  /-- The thread has ended, if it is there: its stacks are empty, and it has no resumer. -/
  ended : ∀ x', h'.thread t = .ok x' → x.Ends x'
  /-- Its resumer is the current thread, if there is one and it is there, and otherwise there is none. -/
  current : h'.current = x.resumer.filter (h'.isLive ·)
  /-- The resumer runs again. -/
  resumer : ∀ m y, x.resumer = some m → h.thread m = .ok y → h'.isLive m = true →
    h'.thread m = .ok { y with state := .running }
  /-- The other cells are as before, or have been freed. -/
  others : ∀ r b, r ≠ t → x.resumer ≠ some r → h'.body? r = some b → h.body? r = some b

theorem Heap.Becomes.handsBack {h h' : Heap} (hb : Becomes (ends t x.resumer) h h')
    (hx : h.thread t = .ok x) (hne : x.resumer ≠ some t)
    (hc : h'.current = x.resumer.filter (h'.isLive ·)) : h.HandsBack t x h' where
  ended x' hx' := by
    obtain ⟨b, hbody, hends⟩ := hb.cells t _ (body?_eq_thread.mpr hx')
    rw [body?_eq_thread.mpr hx] at hbody
    cases hbody
    unfold ends at hends
    rw [if_pos rfl] at hends
    obtain ⟨_, _, he, he', hends⟩ := hends
    cases he
    cases he'
    exact hends
  current := hc
  resumer m y hm hy hlive := by
    obtain ⟨b', hb'⟩ := exists_body?.mpr hlive
    obtain ⟨b, hbody, hends⟩ := hb.cells m b' hb'
    rw [body?_eq_thread.mpr hy] at hbody
    cases hbody
    have hmt : m ≠ t := by
      rintro rfl
      exact hne hm
    unfold ends at hends
    rw [if_neg hmt, if_pos hm] at hends
    subst hends
    exact body?_eq_thread.mp hb'
  others r b hrt hrm hbody := by
    obtain ⟨b₀, hb₀, hends⟩ := hb.cells r b hbody
    unfold ends at hends
    rw [if_neg hrt, if_neg hrm] at hends
    exact hends ▸ hb₀

/-- Where counts are exact and no finalizer is found, a request to end the running thread is answered, and
counts stay exact: what the thread had on its stacks, and what freed cells owned, is given back once. If the
thread is freed with what was on its stacks, it cannot be ended, and no thread is current. Otherwise it hands
back to its resumer. -/
theorem thread_ended {w : World σ} (hw : Reachable host w) (hx : w.heap.Exact X)
    (hu : w.heap.Unfinalized) (hfuel : 2 * w.heap.arena.compositeCount < fuel)
    (hc : w.heap.current = some t) (ht : w.heap.thread t = .ok x) (hrun : x.state = .running)
    (hresumer : ∀ m, x.resumer = some m → ∃ y, w.heap.thread m = .ok y) :
    ∃ answer w', ((Engine.top host fuel).perform (.terminateThread t)).run w = some (answer, w') ∧
      w'.heap.Exact X ∧
      (∀ r n n', w.heap.count? r = some n → w'.heap.count? r = some n' →
        n = n' + (w.heap.lostRefs w'.heap + if w'.heap.isLive t = true then
          (x.stackRefs : Multiset Handle) + x.resumer.toList else 0).count r) ∧
      ((answer = .ok () ∧ w.heap.HandsBack t x w'.heap) ∨
        (answer = .error .invalidHandle ∧ w'.heap.isLive t = false ∧ w'.heap.current = none ∧ t ∉ X)) := by
  have hp : Poised True fuel X w := ⟨hw.kept hx, hu, hfuel⟩
  have hne : x.resumer ≠ some t := fun he =>
    hw.unlooped t x.state (he ▸ Heap.post_of_thread ht)
  have hlink : ∀ m, x.resumer = some m → t ≠ m ∧ ∃ y, w.heap.thread m = .ok y :=
    fun m hm => ⟨fun he => hne (he ▸ hm), hresumer m hm⟩
  obtain ⟨answer, w', hperform, hend⟩ := hp.terminateThread host ht (hw.proper t x ht) hrun hc hlink
  refine ⟨answer, w', hperform, ?_⟩
  have hbody : w.heap.body? t = some (.thread x) := Heap.body?_eq_thread.mpr ht
  cases answer with
  | ok a =>
    obtain ⟨hp', hbecomes, hcurrent⟩ := hend
    have hx' : w'.heap.Exact X := hp'.kept.exact
    have hstored := hbecomes.stored_of_one hbody
      (fun r b b' hr hends => by rw [hends.refs hr]) fun _ b' hends => by
        unfold ends at hends
        rw [if_pos rfl] at hends
        obtain ⟨_, x', he, rfl, hends⟩ := hends
        cases he
        exact hends.refs
    refine ⟨hx', fun r n n' => hx.count_eq hx' hstored, .inl ⟨rfl, ?_⟩⟩
    exact hbecomes.handsBack ht hne hcurrent
  | error e =>
    obtain ⟨rfl, hdead, hcurrent, htrimmed⟩ := hend
    have hx' : w'.heap.Exact X := htrimmed.poised.kept.exact
    have hself : w'.heap.isLive t = true → ∀ b', trims t t (.thread x) b' →
        ((Body.thread x).refs : Multiset Handle) = b'.refs + (x.stackRefs + x.resumer.toList) :=
      fun hlive => absurd (hdead.symm.trans hlive) Bool.false_ne_true
    have hstored := htrimmed.becomes.stored_of_one hbody
      (fun r b b' hr htrims => by rw [htrims.resolve_right fun h => hr h.1]) hself
    refine ⟨hx', fun r n n' => hx.count_eq hx' hstored, .inr ⟨rfl, hdead, hcurrent, fun hmem => ?_⟩⟩
    have hlive := htrimmed.poised.live hmem
    rw [hdead] at hlive
    cases hlive

/-- A thread runs that another one has resumed. It has itself on its stack. -/
def selfOwned : List Command :=
  [⟨_, .allocThread none⟩, ⟨_, .allocThread none⟩, ⟨_, .startThread ⟨0, 0⟩⟩, ⟨_, .resumeThread ⟨1, 0⟩⟩,
    ⟨_, .push ⟨1, 0⟩ (.ref ⟨1, 0⟩)⟩]

/-- As long as the client holds it, it is ended. -/
theorem thread_ended_selfOwned : ∃ (w w' : World Unit) (x : Thread), Reachable .idle w ∧
    w.heap.Exact {⟨0, 0⟩, ⟨1, 0⟩} ∧ w.heap.Unfinalized ∧ 2 * w.heap.arena.compositeCount < 9 ∧
    w.heap.current = some ⟨1, 0⟩ ∧ w.heap.thread ⟨1, 0⟩ = .ok x ∧ x.state = .running ∧
    (∀ m, x.resumer = some m → ∃ y, w.heap.thread m = .ok y) ∧
    ((Engine.top .idle 9).perform (.terminateThread ⟨1, 0⟩)).run w = some (.ok (), w') ∧
    w.heap.HandsBack ⟨1, 0⟩ x w'.heap := by
  have hend : (rehearse (fun _ => (Engine.top (.idle : Host Unit) 9).perform) selfOwned
      ⟨.empty {}, ()⟩ 0).any (fun y => y.2 = {⟨0, 0⟩, ⟨1, 0⟩} ∧ y.1.heap.finalizerKey = none ∧
        2 * y.1.heap.arena.compositeCount < 9 ∧ y.1.heap.current = some ⟨1, 0⟩ ∧
        (∃ x ∈ (y.1.heap.thread ⟨1, 0⟩).toOption, x.state = .running ∧ x.resumer = some ⟨0, 0⟩) ∧
        (y.1.heap.thread ⟨0, 0⟩).isOk = true) = true := by
    decide +kernel
  obtain ⟨⟨w, X⟩, e, hp⟩ := (Option.any_eq_true _ _).mp hend
  obtain ⟨rfl, hkey, hfuel, hc, ⟨x, hx, hrun, hm⟩, hy⟩ := of_decide_eq_true hp
  have ht : w.heap.thread ⟨1, 0⟩ = .ok x := ok_of_mem_toOption hx
  have hr : Run .idle Discipline.careful w {⟨0, 0⟩, ⟨1, 0⟩} := (Run.start {} ()).rehearse_careful e
  have hexact : w.heap.Exact {⟨0, 0⟩, ⟨1, 0⟩} := (hr.kept Host.silent_idle).exact
  have hu : w.heap.Unfinalized := Heap.unfinalized_of_key hkey
  have hresumer : ∀ m, x.resumer = some m → ∃ y, w.heap.thread m = .ok y := by
    intro m hm'
    cases hm.symm.trans hm'
    cases hthread : w.heap.thread ⟨0, 0⟩ with
    | ok y => exact ⟨y, rfl⟩
    | error _ =>
      rw [hthread] at hy
      cases hy
  obtain ⟨answer, w', hperform, -, -, hdone⟩ :=
    thread_ended hr.reachable hexact hu hfuel hc ht hrun hresumer
  rcases hdone with ⟨rfl, hback⟩ | ⟨-, -, -, hnot⟩
  · exact ⟨w, w', x, hr.reachable, hexact, hu, hfuel, hc, ht, hrun, hresumer, hperform, hback⟩
  · exact absurd (by decide) hnot

/-- If nobody else holds it, it is freed with its stack. The request is refused, its resumer goes on waiting,
and no thread is current. -/
theorem not_handed_back_selfOwned : ∃ (w w' : World Unit), Run .idle Discipline.careful w {⟨0, 0⟩} ∧
    w.heap.finalizerKey = none ∧ w.heap.current = some ⟨1, 0⟩ ∧
    w.heap.post ⟨1, 0⟩ = some (.running, some ⟨0, 0⟩) ∧
    ((Engine.top .idle 9).perform (.terminateThread ⟨1, 0⟩)).run w = some (.error .invalidHandle, w') ∧
    w'.heap.post ⟨0, 0⟩ = some (.resumed, none) ∧ w'.heap.current = none := by
  have hend : (rehearse (fun _ => (Engine.top (.idle : Host Unit) 9).perform)
      (selfOwned ++ [⟨_, .release (.ref ⟨1, 0⟩)⟩]) ⟨.empty {}, ()⟩ 0).any (fun y => y.2 = {⟨0, 0⟩} ∧
        y.1.heap.finalizerKey = none ∧ y.1.heap.current = some ⟨1, 0⟩ ∧
        y.1.heap.post ⟨1, 0⟩ = some (.running, some ⟨0, 0⟩) ∧
        ∃ z ∈ ((Engine.top .idle 9).perform (.terminateThread ⟨1, 0⟩)).run y.1,
          z.1 = .error .invalidHandle ∧ z.2.heap.post ⟨0, 0⟩ = some (.resumed, none) ∧
          z.2.heap.current = none) = true := by
    decide +kernel
  obtain ⟨⟨w, X⟩, e, hp⟩ := (Option.any_eq_true _ _).mp hend
  obtain ⟨rfl, hkey, hc, hpost, ⟨answer, w'⟩, hperform, rfl, hwaits, hnone⟩ := of_decide_eq_true hp
  exact ⟨w, w', (Run.start {} ()).rehearse_careful e, hkey, hc, hpost, hperform, hwaits, hnone⟩

end CountedHeap
