import Mathlib.Tactic
import CountedHeap.Action
import CountedHeap.Reclaim.Release

/-!
# Reasoning about actions

An action may have no result, where a bound on the number of steps is used up. `After` says what
holds of the results that there are, and `Meets` the same of an attempt, with one condition for a
refusal and one for an answer. Both are computed by rewriting.

* `After`, `Meets`: partial correctness.
* `After.mono`, `After.and`, `Meets.mono`: consequences.
* `Returns`: there is a result.
* `Succeeds`: an attempt has a result, and is not refused.
* `Settles`: an attempt has a result, whether or not it is refused.
-/

namespace CountedHeap

variable {σ α β : Type} {w : World σ}

/-! ## Actions -/

/-- Every result of an action satisfies a condition. -/
def After (x : Action σ α) (w : World σ) (Q : α → World σ → Prop) : Prop :=
  ∀ a w', x w = some (a, w') → Q a w'

/-- An action has a result. -/
def Returns (x : Action σ α) (w : World σ) : Prop :=
  ∃ a w', x w = some (a, w')

theorem After.mono {x : Action σ α} {Q Q' : α → World σ → Prop} (h : After x w Q)
    (hQ : ∀ a w', Q a w' → Q' a w') : After x w Q' :=
  fun a w' e => hQ a w' (h a w' e)

theorem After.and {x : Action σ α} {Q Q' : α → World σ → Prop} (h : After x w Q)
    (h' : After x w Q') : After x w fun a w' => Q a w' ∧ Q' a w' :=
  fun a w' e => ⟨h a w' e, h' a w' e⟩

@[simp] theorem after_pure {a : α} {Q : α → World σ → Prop} :
    After (pure a : Action σ α) w Q ↔ Q a w := by
  constructor
  · intro h
    exact h a w rfl
  · intro h b w' e
    cases e
    exact h

@[simp] theorem after_bind {x : Action σ α} {f : α → Action σ β} {Q : β → World σ → Prop} :
    After (x >>= f) w Q ↔ After x w fun a w' => After (f a) w' Q := by
  have hb : (x >>= f) w = (x w).bind fun p => f p.1 p.2 := rfl
  constructor
  · intro h a w' e b w'' e'
    exact h b w'' (by rw [hb, e]; exact e')
  · intro h b w'' e
    rw [hb, Option.bind_eq_some_iff] at e
    obtain ⟨⟨a, w'⟩, e, e'⟩ := e
    exact h a w' e b w'' e'

@[simp] theorem after_change {f : Heap → Heap × α} {Q : α → World σ → Prop} :
    After (change f) w Q ↔ Q (f w.heap).2 ⟨(f w.heap).1, w.host⟩ := by
  constructor
  · intro h
    exact h _ _ rfl
  · intro h a w' e
    cases e
    exact h

@[simp] theorem after_modifyHeap {f : Heap → Heap} {Q : Unit → World σ → Prop} :
    After (modifyHeap f) w Q ↔ Q () ⟨f w.heap, w.host⟩ := by
  constructor
  · intro h
    exact h _ _ rfl
  · intro h a w' e
    cases e
    exact h

@[simp] theorem after_query {f : Heap → α} {Q : α → World σ → Prop} :
    After (query f) w Q ↔ Q (f w.heap) w := by
  constructor
  · intro h
    exact h _ _ rfl
  · intro h a w' e
    cases e
    exact h

@[simp] theorem after_none {Q : α → World σ → Prop} :
    After (fun _ => none : Action σ α) w Q ↔ True := by
  simp [After]

theorem Returns.bind {x : Action σ α} {f : α → Action σ β} (hx : Returns x w)
    (hf : After x w fun a w' => Returns (f a) w') : Returns (x >>= f) w := by
  obtain ⟨a, w', e⟩ := hx
  obtain ⟨b, w'', e'⟩ := hf a w' e
  exact ⟨b, w'', by rw [show (x >>= f) w = (x w).bind fun p => f p.1 p.2 from rfl, e]; exact e'⟩

@[simp] theorem returns_pure {a : α} : Returns (pure a : Action σ α) w :=
  ⟨a, w, rfl⟩

@[simp] theorem returns_change {f : Heap → Heap × α} : Returns (change f) w :=
  ⟨_, _, rfl⟩

@[simp] theorem returns_modifyHeap {f : Heap → Heap} : Returns (modifyHeap f) w :=
  ⟨_, _, rfl⟩

@[simp] theorem returns_query {f : Heap → α} : Returns (query f) w :=
  ⟨_, _, rfl⟩

/-! ## Attempts -/

/-- Every refusal of an attempt satisfies one condition, every answer another one. -/
def Meets (x : Attempt σ α) (w : World σ) (R : HeapError → World σ → Prop)
    (Q : α → World σ → Prop) : Prop :=
  After x.run w fun
    | .ok a => Q a
    | .error e => R e

variable {R R' : HeapError → World σ → Prop}

theorem Meets.mono {x : Attempt σ α} {Q Q' : α → World σ → Prop} (h : Meets x w R Q)
    (hR : ∀ e w', R e w' → R' e w') (hQ : ∀ a w', Q a w' → Q' a w') : Meets x w R' Q' := by
  refine After.mono h fun r w' => ?_
  cases r with
  | ok a => exact hQ a w'
  | error e => exact hR e w'

theorem Meets.and {x : Attempt σ α} {Q Q' : α → World σ → Prop} (h : Meets x w R Q)
    (h' : Meets x w R' Q') :
    Meets x w (fun e w' => R e w' ∧ R' e w') fun a w' => Q a w' ∧ Q' a w' := by
  rintro (e | a) w' hrun
  · exact ⟨h _ _ hrun, h' _ _ hrun⟩
  · exact ⟨h _ _ hrun, h' _ _ hrun⟩

@[simp] theorem meets_pure {a : α} {Q : α → World σ → Prop} :
    Meets (pure a : Attempt σ α) w R Q ↔ Q a w :=
  after_pure (a := Except.ok a)

@[simp] theorem meets_bind {x : Attempt σ α} {f : α → Attempt σ β} {Q : β → World σ → Prop} :
    Meets (x >>= f) w R Q ↔ Meets x w R fun a w' => Meets (f a) w' R Q := by
  unfold Meets
  rw [ExceptT.run_bind, after_bind]
  refine forall_congr' fun r => forall_congr' fun w' => imp_congr_right fun _ => ?_
  cases r with
  | ok a => exact Iff.rfl
  | error e => exact after_pure (a := Except.error e)

@[simp] theorem meets_check {f : Heap → Except HeapError α} {Q : α → World σ → Prop} :
    Meets (check f) w R Q ↔
      (∀ e, f w.heap = .error e → R e w) ∧ ∀ a, f w.heap = .ok a → Q a w := by
  have h : Meets (check f) w R Q ↔ After (query f) w fun
    | .ok a => Q a
    | .error e => R e := Iff.rfl
  rw [h, after_query]
  cases f w.heap <;> simp

@[simp] theorem meets_refuse {e : HeapError} {Q : α → World σ → Prop} :
    Meets (refuse e : Attempt σ α) w R Q ↔ R e w :=
  after_pure (a := Except.error e)

@[simp] theorem meets_surely {x : Action σ α} {Q : α → World σ → Prop} :
    Meets (surely x) w R Q ↔ After x w Q := by
  unfold Meets surely
  rw [ExceptT.run_lift, map_eq_pure_bind, after_bind]
  refine forall_congr' fun a => forall_congr' fun w' => imp_congr_right fun _ => ?_
  exact after_pure (a := Except.ok a)

@[simp] theorem meets_outcome {x : Attempt σ α} {Q : Except HeapError α → World σ → Prop} :
    Meets (outcome x) w R Q ↔
      Meets x w (fun e => Q (.error e)) (fun a => Q (.ok a)) := by
  refine meets_surely.trans (forall_congr' fun r => forall_congr' fun w' =>
    imp_congr_right fun _ => ?_)
  cases r <;> exact Iff.rfl

@[simp] theorem meets_none {Q : α → World σ → Prop} :
    Meets (ExceptT.mk fun _ => none : Attempt σ α) w R Q ↔ True := by
  simp [Meets, After, ExceptT.run, ExceptT.mk]

/-- What follows a look at the heap matters for what has been seen only. -/
theorem check_bind_congr {f : Heap → Except HeapError α} {g g' : α → Attempt σ β}
    (h : ∀ w a, f w.heap = .ok a → (g a).run w = (g' a).run w) : check f >>= g = check f >>= g' := by
  refine ExceptT.ext (funext fun w => ?_)
  have hrun : ∀ k : Except HeapError α → Action σ (Except HeapError β),
      ((check f).run >>= k) w = k (f w.heap) w := fun _ => rfl
  rw [ExceptT.run_bind, ExceptT.run_bind, hrun, hrun]
  cases hf : f w.heap with
  | ok a => exact h w a hf
  | error e => rfl

/-- A refusal of what is looked at ends the attempt, and nothing has changed. -/
theorem run_check_bind_error {f : Heap → Except HeapError α} {g : α → Attempt σ β} {w : World σ}
    {e : HeapError} (h : f w.heap = .error e) : (check f >>= g).run w = some (.error e, w) := by
  have hrun : ∀ k : Except HeapError α → Action σ (Except HeapError β),
      ((check f).run >>= k) w = k (f w.heap) w := fun _ => rfl
  rw [ExceptT.run_bind, hrun, h]
  rfl

/-- What is looked at and not refused is gone on with. -/
theorem run_check_bind_ok {f : Heap → Except HeapError α} {g : α → Attempt σ β} {w : World σ} {a : α}
    (h : f w.heap = .ok a) : (check f >>= g).run w = (g a).run w := by
  have hrun : ∀ k : Except HeapError α → Action σ (Except HeapError β),
      ((check f).run >>= k) w = k (f w.heap) w := fun _ => rfl
  rw [ExceptT.run_bind, hrun, h]

/-- Two changes of the heap that come to the same are followed by the same. -/
theorem modifyHeap_bind_congr {f f' : Heap → Heap} {g : Unit → Attempt σ β} {w : World σ}
    (h : f w.heap = f' w.heap) :
    (surely (modifyHeap f) >>= g).run w = (surely (modifyHeap f') >>= g).run w :=
  congrArg (fun h : Heap => (g ()).run ⟨h, w.host⟩) h

theorem ok_of_mem_toOption {ε α : Type} {e : Except ε α} {a : α} (h : a ∈ e.toOption) : e = .ok a := by
  cases e with
  | ok b => exact congrArg Except.ok (Option.some.inj h)
  | error _ => cases h

/-! ## Attempts that are not refused -/

/-- An attempt has a result and is not refused, and its answer satisfies a condition. -/
def Succeeds (x : Attempt σ α) (w : World σ) (Q : α → World σ → Prop) : Prop :=
  ∃ a w', x.run w = some (.ok a, w') ∧ Q a w'

theorem Succeeds.mono {x : Attempt σ α} {Q Q' : α → World σ → Prop} (h : Succeeds x w Q)
    (hQ : ∀ a w', Q a w' → Q' a w') : Succeeds x w Q' := by
  obtain ⟨a, w', e, hq⟩ := h
  exact ⟨a, w', e, hQ a w' hq⟩

/-- What is known of every answer holds of the one that there is. -/
theorem Succeeds.and {x : Attempt σ α} {Q Q' : α → World σ → Prop} (h : Succeeds x w Q)
    (h' : ∀ a w', x.run w = some (.ok a, w') → Q' a w') :
    Succeeds x w fun a w' => Q a w' ∧ Q' a w' := by
  obtain ⟨a, w', e, hq⟩ := h
  exact ⟨a, w', e, hq, h' a w' e⟩

/-- Whether a condition holds after an attempt that is not refused can be found out. -/
instance decidableForallOk {x : Attempt σ Unit} {P : World σ → Prop} [DecidablePred P] :
    Decidable (∀ w', x.run w = some (.ok (), w') → P w') :=
  match x.run w with
  | some (.ok (), w₁) => decidable_of_iff (P w₁)
      ⟨fun h w' e => by cases e; exact h, fun h => h w₁ rfl⟩
  | some (.error _, _) => isTrue fun w' e => by cases e
  | none => isTrue fun w' e => by cases e

@[simp] theorem succeeds_pure {a : α} {Q : α → World σ → Prop} :
    Succeeds (pure a : Attempt σ α) w Q ↔ Q a w := by
  constructor
  · rintro ⟨b, w', e, hq⟩
    cases e
    exact hq
  · exact fun hq => ⟨a, w, rfl, hq⟩

@[simp] theorem succeeds_bind {x : Attempt σ α} {f : α → Attempt σ β} {Q : β → World σ → Prop} :
    Succeeds (x >>= f) w Q ↔ Succeeds x w fun a w' => Succeeds (f a) w' Q := by
  have hrun : ∀ k : Except HeapError α → Action σ (Except HeapError β),
      (x.run >>= k) w = (x.run w).bind fun p => k p.1 p.2 := fun _ => rfl
  unfold Succeeds
  rw [ExceptT.run_bind, hrun]
  constructor
  · rintro ⟨b, w'', e, hq⟩
    obtain ⟨⟨r, w'⟩, e, e'⟩ := Option.bind_eq_some_iff.mp e
    cases r with
    | ok a => exact ⟨a, w', e, b, w'', e', hq⟩
    | error _ => cases e'
  · rintro ⟨a, w', e, b, w'', e', hq⟩
    exact ⟨b, w'', by rw [e]; exact e', hq⟩

@[simp] theorem succeeds_check {f : Heap → Except HeapError α} {Q : α → World σ → Prop} :
    Succeeds (check f) w Q ↔ ∃ a, f w.heap = .ok a ∧ Q a w := by
  have hrun : (check f : Attempt σ α).run w = some (f w.heap, w) := rfl
  unfold Succeeds
  rw [hrun]
  simp

@[simp] theorem succeeds_surely {x : Action σ α} {Q : α → World σ → Prop} :
    Succeeds (surely x) w Q ↔ Returns x w ∧ After x w Q := by
  have hrun : (surely x).run w = (x w).bind fun p => some (.ok p.1, p.2) := by
    unfold surely
    rw [ExceptT.run_lift, map_eq_pure_bind]
    rfl
  unfold Succeeds
  rw [hrun]
  constructor
  · rintro ⟨a, w', e, hq⟩
    obtain ⟨p, hp, e⟩ := Option.bind_eq_some_iff.mp e
    cases e
    refine ⟨⟨p.1, p.2, hp⟩, fun a' w' e' => ?_⟩
    rw [hp] at e'
    cases e'
    exact hq
  · rintro ⟨⟨a, w', e⟩, hq⟩
    exact ⟨a, w', by rw [e]; rfl, hq a w' e⟩

/-! ## Attempts that have a result -/

/-- An attempt has a result. If it is refused, one condition holds, and otherwise another one. -/
def Settles (x : Attempt σ α) (w : World σ) (R : HeapError → World σ → Prop)
    (Q : α → World σ → Prop) : Prop :=
  ∃ r w', x.run w = some (r, w') ∧
    match r with
    | .ok a => Q a w'
    | .error e => R e w'

theorem Settles.mono {x : Attempt σ α} {R R' : HeapError → World σ → Prop} {Q Q' : α → World σ → Prop}
    (h : Settles x w R Q) (hR : ∀ e w', R e w' → R' e w') (hQ : ∀ a w', Q a w' → Q' a w') :
    Settles x w R' Q' := by
  obtain ⟨r, w', hrun, h⟩ := h
  refine ⟨r, w', hrun, ?_⟩
  cases r with
  | ok a => exact hQ a w' h
  | error e => exact hR e w' h

/-- An attempt that has no reason to be refused is not. -/
theorem Settles.succeeds {x : Attempt σ α} {R : HeapError → World σ → Prop} {Q : α → World σ → Prop}
    (h : Settles x w R Q) (hR : ∀ e w', ¬ R e w') : Succeeds x w Q := by
  obtain ⟨r, w', hrun, h⟩ := h
  cases r with
  | ok a => exact ⟨a, w', hrun, h⟩
  | error e => exact (hR e w' h).elim

section

variable {R : HeapError → World σ → Prop}

@[simp] theorem settles_pure {a : α} {Q : α → World σ → Prop} :
    Settles (pure a : Attempt σ α) w R Q ↔ Q a w := by
  constructor
  · rintro ⟨r, w', e, hq⟩
    cases e
    exact hq
  · exact fun hq => ⟨.ok a, w, rfl, hq⟩

@[simp] theorem settles_bind {x : Attempt σ α} {f : α → Attempt σ β} {Q : β → World σ → Prop} :
    Settles (x >>= f) w R Q ↔ Settles x w R fun a w' => Settles (f a) w' R Q := by
  have hrun : ∀ k : Except HeapError α → Action σ (Except HeapError β),
      (x.run >>= k) w = (x.run w).bind fun p => k p.1 p.2 := fun _ => rfl
  unfold Settles
  rw [ExceptT.run_bind, hrun]
  constructor
  · rintro ⟨r, w'', e, hq⟩
    obtain ⟨⟨r', w'⟩, e, e'⟩ := Option.bind_eq_some_iff.mp e
    refine ⟨r', w', e, ?_⟩
    cases r' with
    | ok a => exact ⟨r, w'', e', hq⟩
    | error _ =>
      cases e'
      exact hq
  · rintro ⟨r', w', hx, h⟩
    rw [hx]
    cases r' with
    | ok a => exact h
    | error e => exact ⟨.error e, w', rfl, h⟩

@[simp] theorem settles_check {f : Heap → Except HeapError α} {Q : α → World σ → Prop} :
    Settles (check f) w R Q ↔
      (∀ e, f w.heap = .error e → R e w) ∧ ∀ a, f w.heap = .ok a → Q a w := by
  have hrun : (check f : Attempt σ α).run w = some (f w.heap, w) := rfl
  unfold Settles
  rw [hrun]
  cases f w.heap <;> simp

@[simp] theorem settles_refuse {e : HeapError} {Q : α → World σ → Prop} :
    Settles (refuse e : Attempt σ α) w R Q ↔ R e w := by
  constructor
  · rintro ⟨r, w', h, hr⟩
    cases h
    exact hr
  · exact fun hr => ⟨.error e, w, rfl, hr⟩

@[simp] theorem settles_surely {x : Action σ α} {Q : α → World σ → Prop} :
    Settles (surely x) w R Q ↔ Returns x w ∧ After x w Q := by
  rw [← succeeds_surely]
  constructor
  · rintro ⟨r, w', e, hq⟩
    cases r with
    | ok a => exact ⟨a, w', e, hq⟩
    | error _ =>
      have hrun : (surely x).run w = (x w).bind fun p => some (.ok p.1, p.2) := by
        unfold surely
        rw [ExceptT.run_lift, map_eq_pure_bind]
        rfl
      rw [hrun] at e
      obtain ⟨p, -, e⟩ := Option.bind_eq_some_iff.mp e
      cases e
  · rintro ⟨a, w', e, hq⟩
    exact ⟨.ok a, w', e, hq⟩

end

end CountedHeap
