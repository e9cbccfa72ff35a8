import CountedHeap.Proofs.Collection
import CountedHeap.Proofs.Coroutines.Switches

/-!
# Coroutine calls nest

A script resumes threads, each of which resumes others in turn and yields or terminates in the end. If
no thread is resumed that cannot be, no step fails, and afterwards the thread that ran runs again.

* `Script`, `Script.run`: well-nested uses of coroutines, and what they do.
* `Script.Allowed`: which threads are resumed, and which of them yield.
* `Script.nests`: the run of a script, by induction over it.
* `Script.Nested`, `coroutines_nest`: what holds after a script.
-/

namespace CountedHeap

open Heap (Becomes)

/-- A well-nested use of coroutines: a thread that is resumed runs a script and leaves. -/
inductive Script where
  | done
  | seq (first second : Script)
  | bracket (t : Handle) (inner : Script) (o : Leave)

namespace Script

/-- The threads that a script resumes. -/
def resumed : Script → Finset Handle
  | done => ∅
  | seq s s' => s.resumed ∪ s'.resumed
  | bracket t s _ => insert t s.resumed

/-- How a thread leaves for the last time. -/
def last : Script → Handle → Option Leave
  | done, _ => none
  | seq s s', r => s'.last r <|> s.last r
  | bracket t s o, r => if r = t then some o else s.last r

/-- The threads that have ended when a script is over. -/
def ended (s : Script) : Finset Handle :=
  s.resumed.filter fun t => s.last t = some .terminate

theorem last_eq_none_iff {s : Script} {r : Handle} : s.last r = none ↔ r ∉ s.resumed := by
  induction s with
  | done => simp [last, resumed]
  | seq s s' ih ih' => simp [last, resumed, ih, ih', and_comm]
  | bracket t s o ih =>
    unfold last resumed
    split
    · rename_i hr
      simp [hr]
    · rename_i hr
      simp [hr, ih]

variable {σ : Type}

/-- What a script does, given an engine. -/
def run (E : Engine σ) : Script → Attempt σ Unit
  | done => pure ()
  | seq s s' => do
    s.run E
    s'.run E
  | bracket t s o => do
    E.perform (.resumeThread t)
    s.run E
    E.perform (o.operation t)

end Script

namespace Heap

/-- The references on the stacks of a thread, if there is one. -/
def stackRefs (h : Heap) (t : Handle) : Multiset Handle :=
  match h.thread t with
  | .ok x => x.stackRefs
  | .error _ => 0

end Heap

namespace Script

variable {σ : Type} {host : Host σ} {fuel : ℕ} {w w' w'' : World σ} {X : Multiset Handle}
  {m t : Handle} {s s' : Script} {x y : Thread}

/-- At each resume the thread has not run or has yielded, and at each yield no call of the thread
prevents it. -/
def Allowed (E : Engine σ) : Script → World σ → Prop
  | done, _ => True
  | seq s s', w => s.Allowed E w ∧ ∀ w', (s.run E).run w = some (.ok (), w') → s'.Allowed E w'
  | bracket t s o, w => w.heap.Idle t ∧
    ∀ w₁, (E.perform (.resumeThread t)).run w = some (.ok (), w₁) → s.Allowed E w₁ ∧
      ∀ w₂, (s.run E).run w₁ = some (.ok (), w₂) → o = .yield → w₂.heap.MayYield t

instance decidableAllowed (E : Engine σ) : (s : Script) → (w : World σ) → Decidable (s.Allowed E w)
  | done, _ => isTrue trivial
  | seq s s', w =>
    have := decidableAllowed E s w
    have := decidableAllowed E s'
    inferInstanceAs (Decidable (s.Allowed E w ∧ ∀ w', (s.run E).run w = some (.ok (), w') →
      s'.Allowed E w'))
  | bracket t s o, w =>
    have := decidableAllowed E s
    inferInstanceAs (Decidable (w.heap.Idle t ∧
      ∀ w₁, (E.perform (.resumeThread t)).run w = some (.ok (), w₁) → s.Allowed E w₁ ∧
        ∀ w₂, (s.run E).run w₁ = some (.ok (), w₂) → o = .yield → w₂.heap.MayYield t))

/-! ## Runs of scripts -/

/-- What becomes of cells: a thread that was resumed is left as it left for the last time, and the other
cells are as before. -/
def leaves (s : Script) (r : Handle) (b b' : Body) : Prop :=
  match s.last r with
  | some o => o.Leaves b b'
  | none => b' = b

theorem leaves_of_last {r : Handle} {b b' : Body} {o : Leave} (hl : s.leaves r b b')
    (ho : s.last r = some o) : o.Leaves b b' := by
  unfold leaves at hl
  rwa [ho] at hl

theorem eq_of_leaves {r : Handle} {b b' : Body} (hl : s.leaves r b b') (hr : r ∉ s.resumed) :
    b' = b := by
  unfold leaves at hl
  rwa [last_eq_none_iff.mpr hr] at hl

/-- A world in which a script has been run. -/
structure Runs (host : Host σ) (fuel : ℕ) (X : Multiset Handle) (m : Handle) (s : Script)
    (w w' : World σ) : Prop extends Ready host fuel X w' where
  current : w'.heap.current = some m
  becomes : Becomes s.leaves w.heap w'.heap

/-- A thread that is held and is not resumed is as before. -/
theorem Runs.thread (hs : s.Runs host fuel X m w w') (ht : t ∈ X) (hnot : t ∉ s.resumed)
    (hx : w.heap.thread t = .ok x) : w'.heap.thread t = .ok x := by
  obtain ⟨b', hb'⟩ := Heap.exists_body?.mpr (hs.live ht)
  obtain ⟨b, hb, hl⟩ := hs.becomes.cells t b' hb'
  rw [Heap.body?_eq_thread.mpr hx] at hb
  cases hb
  rw [eq_of_leaves hl hnot] at hb'
  exact Heap.body?_eq_thread.mp hb'

/-- A thread that is idle afterwards and has not been resumed was so before. -/
theorem Runs.idle (hs : s.Runs host fuel X m w w') (hnot : t ∉ s.resumed) (ht : w'.heap.Idle t) :
    w.heap.Idle t := by
  obtain ⟨x, hx, hidle⟩ := ht
  obtain ⟨b, hb, hl⟩ := hs.becomes.cells t _ (Heap.body?_eq_thread.mpr hx)
  obtain rfl := eq_of_leaves hl hnot
  exact ⟨x, Heap.body?_eq_thread.mp hb, hidle⟩

theorem Runs.done (hr : Ready host fuel X w) (hc : w.heap.current = some m) :
    Script.done.Runs host fuel X m w w :=
  ⟨hr, hc, fun _ b hb => ⟨b, hb, rfl⟩, rfl, rfl⟩

/-- One script after another, where no thread is resumed that has ended. -/
theorem Runs.seq (hs : s.Runs host fuel X m w w') (hs' : s'.Runs host fuel X m w' w'')
    (hidle : ∀ t ∈ s'.resumed, w'.heap.Idle t) : (s.seq s').Runs host fuel X m w w'' := by
  refine ⟨hs'.toReady, hs'.current, hs.becomes.trans hs'.becomes fun r b b' b'' _ hb' hl hl' => ?_⟩
  unfold leaves last
  cases ho' : s'.last r with
  | none =>
    have hnot : r ∉ s'.resumed := last_eq_none_iff.mp ho'
    rw [eq_of_leaves hl' hnot]
    exact hl
  | some o' =>
    change o'.Leaves b b''
    have hleaves' := leaves_of_last hl' ho'
    by_cases hr : r ∈ s.resumed
    · obtain ⟨o, ho⟩ := Option.ne_none_iff_exists'.mp (mt last_eq_none_iff.mp (not_not.mpr hr))
      have hmem : r ∈ s'.resumed := by
        by_contra hnot
        rw [last_eq_none_iff.mpr hnot] at ho'
        cases ho'
      obtain ⟨x, hx, hstate⟩ := hidle r hmem
      rw [Heap.body?_eq_thread.mpr hx] at hb'
      cases hb'
      exact (leaves_of_last hl ho).trans hleaves' hstate
    · rwa [eq_of_leaves hl hr] at hleaves'

/-- A thread is resumed, a script is run, and the thread leaves. -/
theorem Runs.bracket {w₁ w₂ w₃ : World σ} {o : Leave} (hy : w.heap.thread m = .ok y)
    (hrun : y.state = .running)
    (hresumed : Becomes (fun r b b' => b' = b.resumed m t r) w.heap w₁.heap)
    (hs : s.Runs host fuel X t w₁ w₂) (hm : m ∉ s.resumed) (ht : t ∉ s.resumed)
    (hr : Ready host fuel X w₃) (hc : w₃.heap.current = some m)
    (hleft : Becomes (CountedHeap.leaves o t m) w₂.heap w₃.heap) :
    (s.bracket t o).Runs host fuel X m w w₃ := by
  have hinner : Becomes (fun r b b' => s.leaves r (b.resumed m t r) b') w.heap w₂.heap :=
    hresumed.trans hs.becomes fun r b b₁ b₂ _ _ he hl => he ▸ hl
  refine ⟨hr, hc, hinner.trans hleft fun r b b₂ b₃ hb _ hl hl' => ?_⟩
  unfold CountedHeap.leaves at hl'
  unfold leaves last
  by_cases hrt : r = t
  · subst hrt
    rw [if_pos rfl, eq_of_leaves hl ht] at hl'
    rw [if_pos rfl]
    exact hl'.of_resumed
  · rw [if_neg hrt] at hl' ⊢
    by_cases hrm : r = m
    · subst hrm
      rw [Heap.body?_eq_thread.mpr hy] at hb
      cases hb
      rw [if_pos rfl, eq_of_leaves hl hm, Body.resumed_resumer hrt] at hl'
      rw [last_eq_none_iff.mpr hm, hl']
      change Body.thread { y with state := .running } = .thread y
      rw [← hrun]
    · rw [if_neg hrm] at hl'
      rw [Body.resumed_of_ne hrt hrm] at hl
      rw [hl']
      exact hl

/-- Well-nested scripts run: no step fails, and the thread that ran runs again. -/
theorem nests (s : Script) (hr : Ready host fuel X w) (hc : w.heap.current = some m) (hm : m ∈ X)
    (hy : w.heap.thread m = .ok y) (hrun : y.state = .running) (hX : ∀ t ∈ s.resumed, t ∈ X)
    (ha : s.Allowed (Engine.top host fuel) w) :
    (∀ t ∈ s.resumed, w.heap.Idle t) ∧
      Succeeds (s.run (Engine.top host fuel)) w fun _ w' => s.Runs host fuel X m w w' := by
  induction s generalizing w m y with
  | done =>
    refine ⟨fun t ht => absurd ht (by simp [resumed]), ?_⟩
    unfold run
    exact succeeds_pure.mpr (.done hr hc)
  | seq s s' ih ih' =>
    have hX₁ : ∀ t ∈ s.resumed, t ∈ X := fun t ht => hX t (Finset.mem_union_left _ ht)
    have hX₂ : ∀ t ∈ s'.resumed, t ∈ X := fun t ht => hX t (Finset.mem_union_right _ ht)
    obtain ⟨hidle, ⟨⟩, w₁, e₁, h₁⟩ := ih hr hc hm hy hrun hX₁ ha.1
    have hnot : m ∉ s.resumed := fun hmem => (hidle m hmem).ne hy (hrun ▸ rfl) rfl
    have hy₁ := h₁.thread hm hnot hy
    obtain ⟨hidle', ⟨⟩, w₂, e₂, h₂⟩ := ih' h₁.toReady h₁.current hm hy₁ hrun hX₂ (ha.2 w₁ e₁)
    refine ⟨fun t ht => ?_, ?_⟩
    · by_cases hts : t ∈ s.resumed
      · exact hidle t hts
      · exact h₁.idle hts (hidle' t ((Finset.mem_union.mp ht).resolve_left hts))
    · unfold run
      exact succeeds_bind.mpr ⟨(), w₁, e₁, (), w₂, e₂, h₁.seq h₂ hidle'⟩
  | bracket t s o ih =>
    obtain ⟨hidle, ha⟩ := ha
    have ht : t ∈ X := hX t (Finset.mem_insert_self _ _)
    have hX₁ : ∀ r ∈ s.resumed, r ∈ X := fun r hr => hX r (Finset.mem_insert_of_mem hr)
    have hne : m ≠ t := hidle.ne hy (hrun ▸ rfl)
    obtain ⟨x, hx, -⟩ := id hidle
    obtain ⟨⟨⟩, w₁, e₁, hr₁, hc₁, hb₁⟩ := hr.resume hc hy hrun hidle
    obtain ⟨ha₁, hyield⟩ := ha w₁ e₁
    -- Within the bracket the other thread runs, and this one waits for it.
    have hx₁ : w₁.heap.thread t = .ok { x with state := .running, resumer := some m } := by
      have hbody := hr₁.body?_of_becomes ht hb₁ (Heap.body?_eq_thread.mpr hx)
      rw [Body.resumed_self] at hbody
      exact Heap.body?_eq_thread.mp hbody
    have hy₁ : w₁.heap.thread m = .ok { y with state := .resumed } := by
      have hbody := hr₁.body?_of_becomes hm hb₁ (Heap.body?_eq_thread.mpr hy)
      rw [Body.resumed_resumer hne] at hbody
      exact Heap.body?_eq_thread.mp hbody
    obtain ⟨hidle₁, ⟨⟩, w₂, e₂, h₂⟩ := ih hr₁ hc₁ ht hx₁ rfl hX₁ ha₁
    have htnot : t ∉ s.resumed := fun hmem => (hidle₁ t hmem).ne hx₁ rfl rfl
    have hmnot : m ∉ s.resumed := fun hmem => (hidle₁ m hmem).ne hy₁ rfl rfl
    obtain ⟨⟨⟩, w₃, e₃, hr₃, hc₃, hb₃⟩ := h₂.leave o h₂.current ht hm (h₂.thread ht htnot hx₁) rfl rfl
      (h₂.thread hm hmnot hy₁) rfl (hyield w₂ e₂)
    refine ⟨fun r hmem => ?_, ?_⟩
    · rcases Finset.mem_insert.mp hmem with rfl | hmem
      · exact hidle
      · obtain ⟨x', hx', hstate⟩ := hidle₁ r hmem
        obtain ⟨b, hb, he⟩ := hb₁.cells r _ (Heap.body?_eq_thread.mpr hx')
        rw [Body.resumed_of_ne (ne_of_mem_of_not_mem hmem htnot)
          (ne_of_mem_of_not_mem hmem hmnot)] at he
        exact ⟨x', Heap.body?_eq_thread.mp (he ▸ hb), hstate⟩
    · unfold run
      refine succeeds_bind.mpr ⟨(), w₁, e₁, succeeds_bind.mpr ⟨(), w₂, e₂, (), w₃, e₃, ?_⟩⟩
      exact .bracket hy hrun hb₁ h₂ hmnot htnot hr₃ hc₃ hb₃

/-! ## Counts -/

/-- A thread that is resumed while it is idle has no resumer before and none afterwards, and what is
missing is what was on its stacks if it has ended. -/
theorem refs_of_leaves {h : Heap} {r : Handle} {b b' : Body} (hp : h.Proper)
    (hidle : ∀ t ∈ s.resumed, h.Idle t) (hb : h.body? r = some b) (hl : s.leaves r b b') :
    (b.refs : Multiset Handle) = b'.refs + if r ∈ s.ended then h.stackRefs r else 0 := by
  have hended : r ∈ s.ended ↔ s.last r = some .terminate := by
    unfold ended
    rw [Finset.mem_filter, and_iff_right_iff_imp]
    intro hlast
    by_contra hnot
    rw [last_eq_none_iff.mpr hnot] at hlast
    cases hlast
  cases ho : s.last r with
  | none =>
    rw [eq_of_leaves hl (last_eq_none_iff.mp ho), if_neg (by simp [hended, ho]), add_zero]
  | some o =>
    have hleaves := leaves_of_last hl ho
    have hmem : r ∈ s.resumed := by
      by_contra hnot
      rw [last_eq_none_iff.mpr hnot] at ho
      cases ho
    obtain ⟨x, hx, -⟩ := id (hidle r hmem)
    rw [Heap.body?_eq_thread.mpr hx] at hb
    cases hb
    have halone : x.resumer = none := (hidle r hmem).resumer hp hx
    cases o with
    | yield =>
      obtain ⟨_, he, rfl⟩ := hleaves
      cases he
      rw [if_neg (by simp [hended, ho]), add_zero]
      change (x.refs : Multiset Handle) = Thread.refs _
      rw [Thread.refs_eq, Thread.refs_eq, halone]
      rfl
    | terminate =>
      obtain ⟨_, x', he, rfl, hobject, hbuiltins, -, hresumer, hempty⟩ := hleaves
      cases he
      rw [if_pos (hended.mpr ho)]
      change (x.refs : Multiset Handle) = x'.refs + Heap.stackRefs _ _
      rw [Thread.refs_eq, Thread.refs_eq, halone, hobject, hbuiltins, hresumer, hempty]
      unfold Heap.stackRefs
      rw [hx]
      simp

/-- What holds of a heap after a script, given the heap before. The client holds the same counts. -/
structure Nested (s : Script) (X : Multiset Handle) (m : Handle) (h h' : Heap) : Prop where
  /-- The thread that ran runs again. -/
  current : h'.current = some m
  running : h'.checkState m .running = .ok ()
  /-- Threads that were not resumed are as before. -/
  others : ∀ t x, t ∉ s.resumed → h'.thread t = .ok x → h.thread t = .ok x
  /-- Threads that were resumed are left as they left for the last time, and have no resumer. -/
  resumed : ∀ t ∈ s.resumed, ∃ o x, s.last t = some o ∧ h'.thread t = .ok x ∧ x.state = o.state ∧
    x.resumer = none
  /-- Counts are exact still. -/
  exact : h'.Exact X
  /-- A count goes down by the references that freed cells owned, and by those on the stacks of threads
  that have ended. -/
  counts : ∀ r n n', h.count? r = some n → h'.count? r = some n' →
    n = n' + (h.lostRefs h' + ∑ t ∈ s.ended, h.stackRefs t).count r

theorem Runs.nested (hs : s.Runs host fuel X m w w') (hp : w.heap.Proper) (hx : w.heap.Exact X)
    (hm : m ∈ X) (hy : w.heap.thread m = .ok y) (hrun : y.state = .running)
    (hX : ∀ t ∈ s.resumed, t ∈ X) (hidle : ∀ t ∈ s.resumed, w.heap.Idle t) :
    s.Nested X m w.heap w'.heap := by
  have hnot : m ∉ s.resumed := fun hmem => (hidle m hmem).ne hy (hrun ▸ rfl) rfl
  have hx' : w'.heap.Exact X := hs.kept.exact
  have hlive : ∀ t ∈ s.ended, w'.heap.isLive t = true :=
    fun t ht => hs.live (hX t (Finset.mem_filter.mp ht).1)
  refine ⟨hs.current, Heap.checkState_ok (hs.thread hm hnot hy) hrun, fun t x ht hx => ?_,
    fun t ht => ?_, hx', fun r n n' hn hn' => ?_⟩
  · obtain ⟨b, hb, hl⟩ := hs.becomes.cells t _ (Heap.body?_eq_thread.mpr hx)
    exact Heap.body?_eq_thread.mp (eq_of_leaves hl ht ▸ hb)
  · obtain ⟨o, ho⟩ := Option.ne_none_iff_exists'.mp (mt last_eq_none_iff.mp (not_not.mpr ht))
    obtain ⟨b', hb'⟩ := Heap.exists_body?.mpr (hs.live (hX t ht))
    obtain ⟨b, -, hl⟩ := hs.becomes.cells t b' hb'
    obtain ⟨x, rfl, hstate, hresumer⟩ := (leaves_of_last hl ho).left
    exact ⟨o, x, ho, Heap.body?_eq_thread.mp hb', hstate, hresumer⟩
  · have hstored := hs.becomes.stored_eq hlive fun r b b' => refs_of_leaves hp hidle
    exact hx.count_eq hx' hstored hn hn'

end Script

/-- Coroutine calls nest: where counts are exact, no finalizer is found and a running thread is held, a
well-nested script over threads that are held runs without being refused, if threads are idle when they
are resumed and free to yield when they do. -/
theorem coroutines_nest {σ : Type} {host : Host σ} {w : World σ} {X : Multiset Handle} {m : Handle}
    {y : Thread} {s : Script} {fuel : ℕ} (hw : Reachable host w) (hx : w.heap.Exact X)
    (hu : w.heap.Unfinalized) (hfuel : 2 * w.heap.arena.compositeCount < fuel)
    (hm : m ∈ X) (hc : w.heap.current = some m) (hy : w.heap.thread m = .ok y)
    (hrun : y.state = .running) (hX : ∀ t ∈ s.resumed, t ∈ X)
    (ha : s.Allowed (Engine.top host fuel) w) :
    ∃ w', (s.run (Engine.top host fuel)).run w = some (.ok (), w') ∧
      s.Nested X m w.heap w'.heap := by
  have hready : Ready host fuel X w := ⟨⟨hw.kept hx, hu, hfuel⟩, hw⟩
  obtain ⟨hidle, ⟨⟩, w', e, hruns⟩ := s.nests hready hc hm hy hrun hX ha
  exact ⟨w', e, hruns.nested hw.proper hx hm hy hrun hX hidle⟩

/-- A thread that has an object on its stack is resumed twice, and each time it resumes another one. The
first time both yield, the second time both end. -/
def errand : Script :=
  .seq (.bracket ⟨1, 0⟩ (.bracket ⟨2, 0⟩ .done .yield) .yield)
    (.bracket ⟨1, 0⟩ (.bracket ⟨2, 0⟩ .done .terminate) .terminate)

/-- Three threads, of which the first one runs. Only the second one has the object. -/
def beforeErrand : List Command :=
  [⟨_, .allocThread none⟩, ⟨_, .allocThread none⟩, ⟨_, .allocThread none⟩, ⟨_, .allocObject none⟩,
    ⟨_, .push ⟨1, 0⟩ (.ref ⟨3, 0⟩)⟩, ⟨_, .release (.ref ⟨3, 0⟩)⟩, ⟨_, .startThread ⟨0, 0⟩⟩]

theorem coroutines_nest_errand : ∃ (w w' : World Unit), Reachable .idle w ∧
    w.heap.Exact {⟨0, 0⟩, ⟨1, 0⟩, ⟨2, 0⟩} ∧ w.heap.Unfinalized ∧
    2 * w.heap.arena.compositeCount < 9 ∧ w.heap.current = some ⟨0, 0⟩ ∧
    w.heap.checkState ⟨0, 0⟩ .running = .ok () ∧ errand.Allowed (Engine.top .idle 9) w ∧
    (errand.run (Engine.top .idle 9)).run w = some (.ok (), w') ∧
    errand.Nested {⟨0, 0⟩, ⟨1, 0⟩, ⟨2, 0⟩} ⟨0, 0⟩ w.heap w'.heap := by
  have hend : (rehearse (fun _ => (Engine.top (.idle : Host Unit) 9).perform) beforeErrand
      ⟨.empty {}, ()⟩ 0).any (fun x => x.2 = {⟨0, 0⟩, ⟨1, 0⟩, ⟨2, 0⟩} ∧ x.1.heap.finalizerKey = none ∧
        2 * x.1.heap.arena.compositeCount < 9 ∧ x.1.heap.current = some ⟨0, 0⟩ ∧
        x.1.heap.checkState ⟨0, 0⟩ .running = .ok () ∧
        errand.Allowed (Engine.top .idle 9) x.1) = true := by
    decide +kernel
  obtain ⟨⟨w, X⟩, e, hp⟩ := (Option.any_eq_true _ _).mp hend
  obtain ⟨rfl, hkey, hfuel, hcur, hstate, hallowed⟩ := of_decide_eq_true hp
  have hr : Run .idle Discipline.careful w {⟨0, 0⟩, ⟨1, 0⟩, ⟨2, 0⟩} :=
    (Run.start {} ()).rehearse_careful e
  have hx : w.heap.Exact {⟨0, 0⟩, ⟨1, 0⟩, ⟨2, 0⟩} := (hr.kept Host.silent_idle).exact
  have hu : w.heap.Unfinalized := Heap.unfinalized_of_key hkey
  obtain ⟨y, hy, hrun⟩ := Heap.checkState_iff.mp hstate
  obtain ⟨w', erun, hnested⟩ := coroutines_nest hr.reachable hx hu hfuel (by simp) hcur hy hrun
    (by decide) hallowed
  exact ⟨w, w', hr.reachable, hx, hu, hfuel, hcur, hstate, hallowed, erun, hnested⟩

end CountedHeap
