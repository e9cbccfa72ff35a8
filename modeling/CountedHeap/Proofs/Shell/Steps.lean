import CountedHeap.Proofs.Action
import CountedHeap.Shell.Session

/-!
# Reasoning about steps of the shell

A step of the shell reads and changes the state of the shell, performs operations, writes lines, and may be
refused; what it has done by then stays. `Leads` says what holds of the states and worlds that a step leads
to, with one condition for a refusal and one for an answer, and is computed by rewriting.

* `after_run_bind`: a program runs, and then another one that depends on its result.
* `Grants`: partial correctness of programs that may be refused.
* `Leads`: the same of steps of the shell.
* `leads_perform`, `leads_lookup`, …: the steps that commands are made of.
-/

namespace CountedHeap

section

variable {σ α β : Type} {host : Host σ} {fuel : ℕ} {w : World σ}

theorem Program.bind_done (p : Program σ α) : p.bind .done = p := by
  induction p with
  | done a => rfl
  | perform op next ih => exact congrArg (Program.perform op) (funext ih)
  | readHeap next ih => exact congrArg Program.readHeap (funext ih)
  | readHost next ih => exact congrArg Program.readHost (funext ih)
  | modifyHost g next ih => exact congrArg (Program.modifyHost g) (funext ih)

theorem Program.bind_bind {γ : Type} (p : Program σ α) (f : α → Program σ β) (g : β → Program σ γ) :
    (p.bind f).bind g = p.bind fun a => (f a).bind g := by
  induction p with
  | done a => rfl
  | perform op next ih => exact congrArg (Program.perform op) (funext ih)
  | readHeap next ih => exact congrArg Program.readHeap (funext ih)
  | readHost next ih => exact congrArg Program.readHost (funext ih)
  | modifyHost g next ih => exact congrArg (Program.modifyHost g) (funext ih)

instance : LawfulMonad (Program σ) :=
  .mk' _ Program.bind_done (fun _ _ => rfl) Program.bind_bind

/-- One program, then another one that depends on its result. -/
theorem run_bind (p : Program σ α) (f : α → Program σ β) :
    run host fuel (p >>= f) w = (run host fuel p w).bind fun x => run host fuel (f x.1) x.2 := by
  unfold run
  change (p.bind f).run _ w = _
  induction p generalizing w with
  | done a => rfl
  | perform op next ih =>
    simp only [Program.bind, Program.run]
    split
    · rfl
    · exact ih _
  | readHeap next ih => exact ih w.heap
  | readHost next ih => exact ih w.host
  | modifyHost g next ih => exact ih () (w := ⟨w.heap, g w.host⟩)

@[simp] theorem after_run_pure {a : α} {Q : α → World σ → Prop} :
    After (run host fuel (pure a)) w Q ↔ Q a w :=
  after_pure

@[simp] theorem after_run_bind {p : Program σ α} {f : α → Program σ β} {Q : β → World σ → Prop} :
    After (run host fuel (p >>= f)) w Q ↔
      After (run host fuel p) w fun a w' => After (run host fuel (f a)) w' Q := by
  unfold After
  simp only [run_bind, Option.bind_eq_some_iff, Prod.exists]
  constructor
  · exact fun h a w₁ e b w₂ e' => h b w₂ ⟨a, w₁, e, e'⟩
  · rintro h b w₂ ⟨a, w₁, e, e'⟩
    exact h a w₁ e b w₂ e'

@[simp] theorem returns_run_bind {p : Program σ α} {f : α → Program σ β} :
    Returns (run host fuel (p >>= f)) w ↔
      ∃ a w', run host fuel p w = some (a, w') ∧ Returns (run host fuel (f a)) w' := by
  unfold Returns
  simp only [run_bind, Option.bind_eq_some_iff, Prod.exists]
  constructor
  · rintro ⟨b, w₂, a, w₁, e, e'⟩
    exact ⟨a, w₁, e, b, w₂, e'⟩
  · rintro ⟨a, w₁, e, b, w₂, e'⟩
    exact ⟨b, w₂, a, w₁, e, e'⟩

@[simp] theorem after_run_modifyState {f : σ → σ} {Q : Unit → World σ → Prop} :
    After (run host fuel (Program.modifyState f)) w Q ↔ Q () ⟨w.heap, f w.host⟩ :=
  after_pure (w := ⟨w.heap, f w.host⟩)

@[simp] theorem after_run_ofQuery {f : Heap → α} {Q : α → World σ → Prop} :
    After (run host fuel (Program.ofQuery f)) w Q ↔ Q (f w.heap) w :=
  after_pure

@[simp] theorem after_run_ofOperation {op : Operation β} {Q : Except HeapError β → World σ → Prop} :
    After (run host fuel (Program.ofOperation op)) w Q ↔
      Meets ((Engine.top host fuel).perform op) w (fun e => Q (.error e)) fun b => Q (.ok b) := by
  have hrun : (run host fuel (Program.ofOperation op) : Action σ (Except HeapError β)) =
      ((Engine.top host fuel).perform op).run := by
    funext w
    simp only [run, Program.ofOperation, Program.run]
    split
    · rename_i h
      exact h.symm
    · rename_i h
      exact h.symm
  unfold Meets
  rw [hrun]
  refine ⟨fun h => After.mono h ?_, fun h => After.mono h ?_⟩
  all_goals
    rintro (e | b) w' hw
    · exact hw
    · exact hw

/-- Every refusal that ends a program satisfies one condition, every answer another one. -/
def Grants (host : Host σ) (fuel : ℕ) (x : ExceptT HeapError (Program σ) α) (w : World σ)
    (R : HeapError → World σ → Prop) (Q : α → World σ → Prop) : Prop :=
  After (run host fuel x.run) w fun
    | .ok a => Q a
    | .error e => R e

section

variable {R : HeapError → World σ → Prop} {Q : α → World σ → Prop}

@[simp] theorem grants_pure {a : α} : Grants host fuel (pure a) w R Q ↔ Q a w :=
  after_run_pure

@[simp] theorem grants_bind {x : ExceptT HeapError (Program σ) α}
    {f : α → ExceptT HeapError (Program σ) β} {Q : β → World σ → Prop} :
    Grants host fuel (x >>= f) w R Q ↔
      Grants host fuel x w R fun a w' => Grants host fuel (f a) w' R Q := by
  unfold Grants
  rw [ExceptT.run_bind, after_run_bind]
  refine ⟨fun h => After.mono h ?_, fun h => After.mono h ?_⟩
  all_goals
    rintro (e | a) w' hw
    · simpa using hw
    · simpa using hw

@[simp] theorem grants_attempt {op : Operation α} :
    Grants host fuel (Program.attempt op) w R Q ↔ Meets ((Engine.top host fuel).perform op) w R Q :=
  after_run_ofOperation

@[simp] theorem grants_lift {p : Program σ α} :
    Grants host fuel (ExceptT.lift p) w R Q ↔ After (run host fuel p) w Q := by
  unfold Grants
  rw [ExceptT.run_lift, map_eq_pure_bind, after_run_bind]
  simp only [after_run_pure]

end

end

namespace Shell

variable {α β : Type} {fuel : ℕ} {s : State} {w : World Screen}
  {R : Refusal → State → World Screen → Prop} {Q : α → State → World Screen → Prop}

/-- Every refusal that a step of the shell comes to satisfies one condition, every answer another one. -/
def Leads (fuel : ℕ) (x : Step α) (s : State) (w : World Screen)
    (R : Refusal → State → World Screen → Prop) (Q : α → State → World Screen → Prop) : Prop :=
  After (run host fuel (x.run.run s)) w fun
    | (.ok a, s') => Q a s'
    | (.error e, s') => R e s'

theorem Leads.mono {x : Step α} {R' : Refusal → State → World Screen → Prop}
    {Q' : α → State → World Screen → Prop} (h : Leads fuel x s w R Q)
    (hR : ∀ e s' w', R e s' w' → R' e s' w') (hQ : ∀ a s' w', Q a s' w' → Q' a s' w') :
    Leads fuel x s w R' Q' := by
  refine After.mono h ?_
  rintro ⟨e | a, s'⟩ w' hw
  · exact hR _ _ _ hw
  · exact hQ _ _ _ hw

@[simp] theorem leads_pure {a : α} : Leads fuel (pure a) s w R Q ↔ Q a s w :=
  after_run_pure

@[simp] theorem leads_throw {e : Refusal} : Leads fuel (throw e : Step α) s w R Q ↔ R e s w :=
  after_run_pure

@[simp] theorem leads_bind {x : Step α} {f : α → Step β} {Q : β → State → World Screen → Prop} :
    Leads fuel (x >>= f) s w R Q ↔
      Leads fuel x s w R fun a s' w' => Leads fuel (f a) s' w' R Q := by
  unfold Leads
  rw [ExceptT.run_bind, StateT.run_bind, after_run_bind]
  constructor
  all_goals
    refine fun h => h.mono ?_
    rintro ⟨e | a, s'⟩ w' hw
    · simpa using hw
    · simpa using hw

@[simp] theorem leads_map {x : Step α} {f : α → β} {Q : β → State → World Screen → Prop} :
    Leads fuel (f <$> x) s w R Q ↔ Leads fuel x s w R fun a => Q (f a) := by
  unfold Leads
  rw [ExceptT.run_map, StateT.run_map, map_eq_pure_bind, after_run_bind]
  simp only [after_run_pure]
  refine ⟨fun h => After.mono h ?_, fun h => After.mono h ?_⟩
  all_goals
    rintro ⟨e | a, s'⟩ w' hw
    · exact hw
    · exact hw

@[simp] theorem leads_get {Q : State → State → World Screen → Prop} :
    Leads fuel get s w R Q ↔ Q s s w :=
  after_run_pure

@[simp] theorem leads_set {s' : State} {Q : Unit → State → World Screen → Prop} :
    Leads fuel (set s') s w R (fun u => Q u) ↔ Q ⟨⟩ s' w :=
  after_run_pure

@[simp] theorem leads_modify {f : State → State} {Q : Unit → State → World Screen → Prop} :
    Leads fuel (modify f) s w R Q ↔ Q () (f s) w :=
  after_run_pure

@[simp] theorem leads_write {line : String} {Q : Unit → State → World Screen → Prop} :
    Leads fuel (write line) s w R Q ↔ Q () s ⟨w.heap, w.host ++ line ++ "\n"⟩ :=
  after_pure (w := ⟨w.heap, w.host ++ line ++ "\n"⟩)

@[simp] theorem leads_inspect {f : Heap → α} : Leads fuel (inspect f) s w R Q ↔ Q (f w.heap) s w :=
  after_pure (w := w)

@[simp] theorem leads_tryOperation {op : Operation β}
    {Q : Except HeapError β → State → World Screen → Prop} :
    Leads fuel (tryOperation op) s w R Q ↔
      Meets ((Engine.top host fuel).perform op) w (fun e => Q (.error e) s) fun b => Q (.ok b) s := by
  have hrun : (tryOperation op).run.run s =
      Program.ofOperation op >>= fun answer => pure (Except.ok answer, s) := rfl
  unfold Leads
  rw [hrun, after_run_bind, after_run_ofOperation]
  simp only [after_run_pure]

@[simp] theorem leads_perform {op : Operation α} :
    Leads fuel (perform op) s w R Q ↔
      Meets ((Engine.top host fuel).perform op) w (fun e => R (.heap e) s) fun a => Q a s := by
  unfold perform
  simp only [leads_bind, leads_tryOperation, orRefuse, leads_pure, leads_throw]

@[simp] theorem leads_lookup {name : String} {Q : Value → State → World Screen → Prop} :
    Leads fuel (lookup name) s w R Q ↔
      (s.names.find? name = none → R (.unknownName name) s w) ∧
        ∀ v, s.names.find? name = some v → Q v s w := by
  unfold lookup
  simp only [leads_bind, leads_get]
  cases s.names.find? name with
  | none => simp
  | some v => simp

@[simp] theorem leads_lookupCell {name : String} {Q : Handle → State → World Screen → Prop} :
    Leads fuel (lookupCell name) s w R Q ↔
      (s.names.find? name = none → R (.unknownName name) s w) ∧
        ∀ v, s.names.find? name = some v →
          (v.handle? = none → R (.notACell name) s w) ∧ ∀ r, v.handle? = some r → Q r s w := by
  unfold lookupCell
  simp only [leads_bind, leads_lookup]
  refine and_congr_right fun _ => forall₂_congr fun v _ => ?_
  cases v.handle? with
  | none => simp
  | some r => simp

end Shell

end CountedHeap
