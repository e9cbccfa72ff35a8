import CountedHeap.Proofs.Heap.Posts

/-!
# What cells hold

The body of a cell, apart from its count and its marks. Counts taken and given back leave bodies alone,
and a switch of threads changes two of them.

* `Heap.body?`: the body of the cell that a handle names.
* `body?_modifyThread`, `body?_switchTo`, `body?_switchBack`, `body?_endThread`: what changes of threads
  do.
* `Heap.Becomes`: each cell that is left has come to hold something, given what it held.
-/

namespace CountedHeap.Heap

open Arena (Composite)

variable {h h' h'' : Heap} {r t c : Handle} {n : ℕ} {b : Body} {x y : Thread} {o : Object}

/-- The body of the cell that a handle names. -/
def body? (h : Heap) (r : Handle) : Option Body :=
  (h.arena.get? r).map Cell.body

theorem body?_eq_some : h.body? r = some b ↔ ∃ n, h.arena.Holds r n b := by
  unfold body?
  rw [Option.map_eq_some_iff]
  constructor
  · rintro ⟨c, hc, rfl⟩
    exact ⟨_, Arena.holds_of_get? hc⟩
  · rintro ⟨n, hb⟩
    obtain ⟨c, hc, -, hbody⟩ := hb.get?
    exact ⟨c, hc, hbody⟩

theorem body?_eq_thread : h.body? t = some (.thread x) ↔ h.thread t = .ok x := by
  rw [thread_eq_ok]
  unfold body?
  rw [Option.map_eq_some_iff]
  constructor
  · rintro ⟨⟨header, body⟩, hc, rfl⟩
    exact ⟨header, hc⟩
  · rintro ⟨header, hc⟩
    exact ⟨_, hc, rfl⟩

theorem exists_body? : (∃ b, h.body? r = some b) ↔ h.isLive r = true := by
  simp only [body?_eq_some]
  rw [exists_comm]
  exact Arena.isLive_iff.symm

theorem isLive_eq_body? : h.isLive r = (h.body? r).isSome := by
  rw [Bool.eq_iff_iff, Option.isSome_iff_exists]
  exact exists_body?.symm

theorem composite_iff_body? : h.arena.Composite r ↔ ∃ b, h.body? r = some b ∧ b.isComposite = true := by
  simp only [body?_eq_some]
  constructor
  · rintro ⟨n, b, hb, hc⟩
    exact ⟨b, ⟨n, hb⟩, hc⟩
  · rintro ⟨b, ⟨n, hb⟩, hc⟩
    exact ⟨n, b, hb, hc⟩

theorem object_of_body? : h.object r = .ok o ↔ ∃ b, h.body? r = some b ∧ b.object? = some o := by
  rw [object_eq_ok]
  unfold body?
  constructor
  · rintro ⟨c, hc, ho⟩
    exact ⟨c.body, by rw [hc]; rfl, ho⟩
  · rintro ⟨b, hb, ho⟩
    obtain ⟨c, hc, rfl⟩ := Option.map_eq_some_iff.mp hb
    exact ⟨c, hc, ho⟩

/-! ## Changes of threads -/

theorem body?_modifyThread {f : Thread → Thread} (ht : h.thread t = .ok x) :
    (h.modifyThread t f).body? = Function.update h.body? t (some (.thread (f x))) := by
  obtain ⟨header, hc⟩ := thread_eq_ok.mp ht
  funext r
  unfold body?
  rw [show (h.modifyThread t f).arena =
    h.arena.modifyAt t.index (·.modifyBody (·.modifyThread f)) from rfl, Arena.get?_modifyAt]
  by_cases hr : r = t
  · rw [hr, if_pos rfl, Function.update_self, hc]
    rfl
  · rw [Function.update_of_ne hr]
    split
    · rename_i hi
      cases hc' : h.arena.get? r with
      | none => rfl
      | some c =>
        exact absurd ((Arena.holds_of_get? hc').eq_of_index (Arena.holds_of_get? hc) hi) hr
    · rfl

theorem body?_retain : (h.retain c).body? = h.body? := by
  funext r
  unfold retain
  split
  · unfold body?
    rw [show (h.modifyAt c.index (·.modifyHeader .acquire)).arena =
      h.arena.modifyAt c.index (·.modifyHeader .acquire) from rfl, Arena.get?_modifyAt]
    split
    · cases h.arena.get? r <;> rfl
    · rfl
  · rfl

theorem body?_switchTo (hc : h.thread c = .ok y) (ht : h.thread t = .ok x) (hne : c ≠ t) :
    (h.switchTo c t).body? = Function.update
      (Function.update h.body? c (some (.thread { y with state := .resumed }))) t
      (some (.thread { x with state := .running, resumer := some c })) := by
  have ht' : (h.setState c .resumed).thread t = .ok x := thread_modifyThread_of_ne hc ht hne
  unfold switchTo
  rw [body?_retain, body?_modifyThread ht']
  exact congrArg (Function.update · t _) (body?_modifyThread hc)

theorem body?_switchBack (hc : h.thread c = .ok y) (hr : h.thread r = .ok x) (hne : c ≠ r) :
    (h.switchBack c r).body? = Function.update
      (Function.update h.body? c (some (.thread { y with state := .yielded, resumer := none }))) r
      (some (.thread { x with state := .running })) := by
  have hr' : (h.modifyThread c ({ · with state := .yielded, resumer := none })).thread r = .ok x :=
    thread_modifyThread_of_ne hc hr hne
  have hback : (h.switchBack c r).body? =
      ((h.modifyThread c ({ · with state := .yielded, resumer := none })).setState r .running).body? :=
    rfl
  rw [hback]
  exact (body?_modifyThread hr').trans (congrArg (Function.update · r _) (body?_modifyThread hc))

/-- A thread has ended, and its resumer runs again. -/
theorem body?_endThread (ht : h.thread t = .ok x) (hr : h.thread r = .ok y) (hne : t ≠ r) :
    (h.endThread t (some r)).body? = Function.update
      (Function.update h.body? t (some (.thread { x with state := .terminated, resumer := none }))) r
      (some (.thread { y with state := .running })) := by
  have hr' : (h.modifyThread t ({ · with state := .terminated, resumer := none })).thread r = .ok y :=
    thread_modifyThread_of_ne ht hr hne
  have hend : (h.endThread t (some r)).body? =
      ((h.modifyThread t ({ · with state := .terminated, resumer := none })).wake r).body? := rfl
  have hwake : (h.modifyThread t ({ · with state := .terminated, resumer := none })).wake r =
      (h.modifyThread t ({ · with state := .terminated, resumer := none })).setState r .running := by
    unfold wake
    rw [hr']
  rw [hend, hwake]
  exact (body?_modifyThread hr').trans (congrArg (Function.update · r _) (body?_modifyThread ht))

theorem body?_endThread_none (ht : h.thread t = .ok x) : (h.endThread t none).body? =
    Function.update h.body? t (some (.thread { x with state := .terminated, resumer := none })) := by
  have hend : (h.endThread t none).body? =
      (h.modifyThread t ({ · with state := .terminated, resumer := none })).body? := by
    unfold endThread
    dsimp only
    split <;> rfl
  exact hend.trans (body?_modifyThread ht)

/-! ## What becomes of cells -/

/-- Cells have been freed, and each that is left has come to hold something, given what it held. Roots
and the key of finalizers are the same. -/
structure Becomes (R : Handle → Body → Body → Prop) (h h' : Heap) : Prop where
  cells : ∀ r b', h'.body? r = some b' → ∃ b, h.body? r = some b ∧ R r b b'
  roots : h'.roots = h.roots
  key : h'.finalizerKey = h.finalizerKey

variable {R R' R'' : Handle → Body → Body → Prop}

/-- Two changes of bodies, one after the other. -/
theorem Becomes.trans (h₁ : Becomes R h h') (h₂ : Becomes R' h' h'')
    (hR : ∀ r b b' b'', h.body? r = some b → h'.body? r = some b' → R r b b' → R' r b' b'' →
      R'' r b b'') :
    Becomes R'' h h'' := by
  refine ⟨fun r b'' hb'' => ?_, h₂.roots.trans h₁.roots, h₂.key.trans h₁.key⟩
  obtain ⟨b', hb', hchange'⟩ := h₂.cells r b'' hb''
  obtain ⟨b, hb, hchange⟩ := h₁.cells r b' hb'
  exact ⟨b, hb, hR r b b' b'' hb hb' hchange hchange'⟩

theorem Becomes.mono (h₁ : Becomes R h h') (hR : ∀ r b b', R r b b' → R' r b b') : Becomes R' h h' :=
  ⟨fun r b' hb' => (h₁.cells r b' hb').imp fun b hb => ⟨hb.1, hR r b b' hb.2⟩, h₁.roots, h₁.key⟩

theorem Becomes.setCurrent {q : Option Handle} (h₁ : Becomes R h h') : Becomes R h (h'.setCurrent q) :=
  ⟨h₁.cells, h₁.roots, h₁.key⟩

theorem Shrinks.body? (hs : Shrinks h h') (hb : h'.body? r = some b) : h.body? r = some b := by
  obtain ⟨n, hn⟩ := body?_eq_some.mp hb
  exact body?_eq_some.mpr (hs.cells r n b hn)

theorem Shrinks.becomes (hs : Shrinks h h') : Becomes (fun _ b b' => b' = b) h h' :=
  ⟨fun _ b' hb' => ⟨b', hs.body? hb', rfl⟩, hs.roots, hs.key⟩

/-- Where object parts stay, no finalizer turns up. -/
theorem Becomes.unfinalized (h₁ : Becomes R h h') (hR : ∀ r b b', R r b b' → b'.object? = b.object?)
    (hu : h.Unfinalized) : h'.Unfinalized := by
  refine hu.of_objects (fun r o ho => ?_) h₁.key
  obtain ⟨b', hb', hobj⟩ := object_of_body?.mp ho
  obtain ⟨b, hb, hchange⟩ := h₁.cells r b' hb'
  exact object_of_body?.mpr ⟨b, hb, (hR r b b' hchange).symm.trans hobj⟩

/-- The contents of two cells have changed. -/
theorem becomes_of_two {h' : Heap} {R : Handle → Body → Body → Prop} {p q : Handle}
    {b₁ b₁' b₂ b₂' : Body} (hbody : h'.body? =
      Function.update (Function.update h.body? p (some b₁')) q (some b₂'))
    (hp : h.body? p = some b₁) (hq : h.body? q = some b₂) (hRp : R p b₁ b₁') (hRq : R q b₂ b₂')
    (hR : ∀ r b, r ≠ p → r ≠ q → R r b b) (hroots : h'.roots = h.roots)
    (hkey : h'.finalizerKey = h.finalizerKey) : Becomes R h h' := by
  refine ⟨fun r b' hb' => ?_, hroots, hkey⟩
  rw [hbody] at hb'
  by_cases hrq : r = q
  · subst hrq
    rw [Function.update_self] at hb'
    cases hb'
    exact ⟨b₂, hq, hRq⟩
  · rw [Function.update_of_ne hrq] at hb'
    by_cases hrp : r = p
    · subst hrp
      rw [Function.update_self] at hb'
      cases hb'
      exact ⟨b₁, hp, hRp⟩
    · rw [Function.update_of_ne hrp] at hb'
      exact ⟨b', hb', hR r b' hrp hrq⟩

/-- The composite cells are those with an object part. -/
theorem isComposite_eq : b.isComposite = b.object?.isSome := by
  cases b <;> rfl

/-- Where object parts stay, there are no more composite cells than before. -/
theorem Becomes.compositeCount_le (h₁ : Becomes R h h')
    (hR : ∀ r b b', R r b b' → b'.object? = b.object?) (hs : h.Sound) (hs' : h'.Sound) :
    h'.arena.compositeCount ≤ h.arena.compositeCount := by
  refine hs.compositeCount_le hs' fun r n b' hb' => ?_
  obtain ⟨b, hb, hchange⟩ := h₁.cells r b' (body?_eq_some.mpr ⟨n, hb'⟩)
  obtain ⟨m, hm⟩ := body?_eq_some.mp hb
  refine ⟨m, b, hm, ?_⟩
  rw [isComposite_eq, isComposite_eq, hR r b b' hchange]

end CountedHeap.Heap
