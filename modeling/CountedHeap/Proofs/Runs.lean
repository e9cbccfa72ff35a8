import CountedHeap.Proofs.Keep.Careful

/-!
# Runs

A run performs operations at the top, one after another, from an empty heap. Between two operations
the state of the host may change. A ledger says which references the client holds: each entry is one
count.

* `Reachable`, `Reachable.sound`: the worlds that operations lead to, whatever finalizers do.
* `Step`, `Operation.ledger`: an operation of a client that gives back only what it holds.
* `Run`: the runs of a client that keeps to a discipline.
* `Step.exact`, `Step.whole`: what one step of a run preserves.
-/

namespace CountedHeap

open Heap (Kept OutsidePass AtRest)

variable {σ β : Type} {host : Host σ} {op : Operation β} {w w' : World σ} {X : Multiset Handle}
  {answer : Except HeapError β}

/-- The references that a client holds after an operation. -/
def Operation.ledger (op : Operation β) (h : Heap) (X : Multiset Handle) :
    Except HeapError β → Multiset Handle
  | .ok a => X - op.taken + op.given h a
  | .error _ => X - op.taken

/-- The worlds that operations at the top lead to. -/
inductive Reachable (host : Host σ) : World σ → Prop where
  | start (config : Config) (s : σ) : Reachable host ⟨.empty config, s⟩
  | perform {β : Type} {op : Operation β} {fuel : ℕ} {w w' : World σ} {answer : Except HeapError β} :
      Reachable host w → ((Engine.top host fuel).perform op).run w = some (answer, w') →
      Reachable host w'
  | host {w : World σ} (s : σ) : Reachable host w → Reachable host ⟨w.heap, s⟩

/-- An operation at the top by a client that gives back only what it holds. -/
structure Step (host : Host σ) (op : Operation β) (w : World σ) (X : Multiset Handle)
    (answer : Except HeapError β) (w' : World σ) : Prop where
  held : op.taken ≤ X
  performed : ∃ fuel, ((Engine.top host fuel).perform op).run w = some (answer, w')

/-- What a client may ask for, given the world and what it holds, and what may come of it. -/
abbrev Discipline (σ : Type) : Type 1 :=
  (β : Type) → Operation β → World σ → Multiset Handle → Except HeapError β → World σ → Prop

/-- The runs of a client that keeps to a discipline, with what it holds in the end. -/
inductive Run (host : Host σ) (D : Discipline σ) : World σ → Multiset Handle → Prop where
  | start (config : Config) (s : σ) : Run host D ⟨.empty config, s⟩ 0
  | step {β : Type} {op : Operation β} {w w' : World σ} {X : Multiset Handle}
      {answer : Except HeapError β} : Run host D w X → Step host op w X answer w' →
      D β op w X answer w' → Run host D w' (op.ledger w.heap X answer)
  | host {w : World σ} {X : Multiset Handle} (s : σ) : Run host D w X → Run host D ⟨w.heap, s⟩ X

/-! ## Disciplines -/

namespace Discipline

/-- Only handles of cells that the client reaches are passed. -/
def careful : Discipline σ :=
  fun _ op w X _ _ => op.Careful w.heap X

end Discipline

/-! ## Runs that are computed -/

/-- The host whose native functions return at once. -/
def Host.idle : Host σ :=
  fun _ _ => .done .returned

theorem Host.silent_idle : (idle : Host σ).Silent :=
  fun _ _ => trivial

/-- The world after an operation at the top, or the same world if the bound is too low. -/
def advance (host : Host σ) (fuel : ℕ) (op : Operation β) (w : World σ) : World σ :=
  ((((Engine.top host fuel).perform op).run w).map Prod.snd).getD w

theorem performed_advance {n : ℕ}
    (ha : (((Engine.top host n).perform op).run w).map Prod.fst = some answer) :
    ((Engine.top host n).perform op).run w = some (answer, advance host n op w) := by
  unfold advance
  obtain ⟨⟨a, w'⟩, e, rfl⟩ := Option.map_eq_some_iff.mp ha
  rw [e]
  rfl

/-- A run goes on with an operation whose answer has been computed. -/
theorem Run.advance {D : Discipline σ} (hr : Run host D w X) (n : ℕ) (op : Operation β)
    (answer : Except HeapError β) (hX : op.taken ≤ X)
    (ha : (((Engine.top host n).perform op).run w).map Prod.fst = some answer)
    (hD : D β op w X answer (CountedHeap.advance host n op w)) :
    Run host D (CountedHeap.advance host n op w) (op.ledger w.heap X answer) :=
  hr.step ⟨hX, n, performed_advance ha⟩ hD

/-- An operation, whatever it answers. -/
abbrev Command : Type 1 :=
  (β : Type) × Operation β

theorem Operation.Careful.of_held {h : Heap} (hm : ∀ r ∈ op.mentioned, r ∈ X) : op.Careful h X :=
  fun r hr => .start (.inl (hm r hr))

/-- The operations of a client that passes only handles of cells that it holds: the world that they lead
to and what the client holds then, if all of them have a result. -/
def rehearse (perform : (β : Type) → Operation β → Attempt σ β) :
    List Command → World σ → Multiset Handle → Option (World σ × Multiset Handle)
  | [], w, X => some (w, X)
  | ⟨β, op⟩ :: ops, w, X =>
    if op.taken ≤ X ∧ ∀ r ∈ op.mentioned, r ∈ X then
      match (perform β op).run w with
      | some (answer, w') => rehearse perform ops w' (op.ledger w.heap X answer)
      | none => none
    else none

/-- They make up a run if each of them does what it does at the top, and what it may. -/
theorem Run.rehearse {D : Discipline σ} {perform : (β : Type) → Operation β → Attempt σ β}
    {ops : List Command} {Y : Multiset Handle} (hr : Run host D w X)
    (hops : ∀ c ∈ ops, ∀ w X answer w', (∀ r ∈ c.2.mentioned, r ∈ X) →
      (perform c.1 c.2).run w = some (answer, w') →
      (∃ fuel, ((Engine.top host fuel).perform c.2).run w = some (answer, w')) ∧
        D c.1 c.2 w X answer w')
    (e : CountedHeap.rehearse perform ops w X = some (w', Y)) : Run host D w' Y := by
  induction ops generalizing w X with
  | nil =>
    cases e
    exact hr
  | cons c ops ih =>
    unfold CountedHeap.rehearse at e
    split at e
    · rename_i hX
      split at e
      · rename_i answer w₁ hrun
        obtain ⟨hperformed, hD⟩ := hops c List.mem_cons_self w X answer w₁ hX.2 hrun
        exact ih (hr.step ⟨hX.1, hperformed⟩ hD) (fun c hc => hops c (List.mem_cons_of_mem _ hc)) e
      · cases e
    · cases e

/-- What a client passes that holds it, it reaches. -/
theorem Run.rehearse_careful {n : ℕ} {ops : List Command} {Y : Multiset Handle}
    (hr : Run host Discipline.careful w X)
    (e : CountedHeap.rehearse (fun _ => (Engine.top host n).perform) ops w X = some (w', Y)) :
    Run host Discipline.careful w' Y :=
  hr.rehearse (fun _ _ _ _ _ _ hm e => ⟨⟨n, e⟩, .of_held hm⟩) e

/-- Terms on which nothing is asked of counts. -/
abbrev Terms.lax (σ : Type) : Terms σ :=
  .plain False fun _ => 0

theorem lax_holds_iff {P : σ → Heap → Prop} {hP : ∀ s, Heap.Steady (P s)} :
    ((Terms.lax σ).among P hP).Holds w X ↔ w.heap.Sound ∧ P w.host w.heap :=
  ⟨fun hk => ⟨hk.sound, hk.level⟩, fun hk => ⟨hk.1, hk.2, False.elim⟩⟩

theorem kept_empty {s : Prop} {config : Config} : Kept s AtRest (.empty config) 0 := by
  refine ⟨⟨.empty config.maxBytes, List.nodup_nil, fun _ hn => by cases hn⟩,
    ⟨⟨rfl, rfl⟩, fun _ _ _ _ hi => by cases hi⟩, fun _ r => ?_⟩
  have hcounted : (Heap.empty config).arena.counted r = 0 :=
    Arena.counted_of_not_live (by simp [Heap.empty, Arena.empty, Arena.isLive, Arena.get?])
  have howned : (Heap.empty config).arena.owned ∅ = 0 := rfl
  rw [hcounted]
  unfold Heap.stored
  rw [howned]
  rfl

/-- What an engine keeps of the heap, its operations keep. It need not hold when a finalizer is installed
if the operation installs none. -/
theorem Engine.Keeps.perform_lax_of_installs {E : Engine σ} {P : σ → Heap → Prop}
    {hP : ∀ s, Heap.Steady (P s)} (K : E.Keeps ((Terms.lax σ).among P hP)) (op : Operation β)
    (hkey : op.installs → ((Terms.lax σ).among P hP).Rekeys)
    (hw : w.heap.Sound ∧ P w.host w.heap) :
    After (E.perform op).run w fun _ w' => w'.heap.Sound ∧ P w'.host w'.heap := by
  intro answer w' e
  have hop := K.perform op hkey (X := 0) (lax_holds_iff.mpr hw) answer w' e
  cases answer with
  | ok a => exact lax_holds_iff.mp (hop fun hs => hs.elim)
  | error _ => exact lax_holds_iff.mp hop

/-- What an engine keeps of the heap, whatever finalizers do, its operations keep. -/
theorem Engine.Keeps.perform_lax {E : Engine σ} {P : σ → Heap → Prop}
    {hP : ∀ s, Heap.Steady (P s)} (K : E.Keeps ((Terms.lax σ).among P hP))
    (hkey : ((Terms.lax σ).among P hP).Rekeys) (op : Operation β)
    (hw : w.heap.Sound ∧ P w.host w.heap) :
    After (E.perform op).run w fun _ w' => w'.heap.Sound ∧ P w'.host w'.heap :=
  K.perform_lax_of_installs op (fun _ => hkey) hw

/-- Every world that is reached has a sound heap that is not swept and an empty queue. -/
theorem Reachable.sound (hw : Reachable host w) : w.heap.Sound ∧ OutsidePass [] w.heap := by
  induction hw with
  | start config s => exact ⟨(kept_empty (s := False)).sound, (kept_empty (s := False)).level.1⟩
  | perform _ e ih =>
    exact (top_keeps_lax fun _ => not_false).perform_lax (fun _ _ _ hlevel => hlevel) _ ih _ _ e
  | host s _ ih => exact ih

/-- Where counts are exact, a world that is reached keeps them between operations. -/
theorem Reachable.kept (hw : Reachable host w) (hx : w.heap.Exact X) :
    Kept True (OutsidePass []) w.heap X :=
  ⟨hw.sound.1, hw.sound.2, fun _ => Heap.exact_iff.mp hx⟩

theorem Run.reachable {D : Discipline σ} (hr : Run host D w X) : Reachable host w := by
  induction hr with
  | start config s => exact .start config s
  | step _ hs _ ih =>
    obtain ⟨fuel, e⟩ := hs.performed
    exact .perform ih e
  | host s _ ih => exact .host s ih

/-- A world goes on to be reached, whether or not the bound is too low. -/
theorem Reachable.advance (hw : Reachable host w) (n : ℕ) (op : Operation β) :
    Reachable host (CountedHeap.advance host n op w) := by
  cases e : ((Engine.top host n).perform op).run w with
  | none =>
    have hsame : CountedHeap.advance host n op w = w := by
      unfold CountedHeap.advance
      rw [e]
      rfl
    rwa [hsame]
  | some x =>
    obtain ⟨answer, w'⟩ := x
    have hnext : CountedHeap.advance host n op w = w' := by
      unfold CountedHeap.advance
      rw [e]
      rfl
    exact hnext ▸ .perform hw e

/-! ## Quiet hosts -/

/-- What a quiet run preserves. -/
theorem Step.exact (hs : Step host op w X answer w') (hq : host.Silent ∨ ¬ op.installs)
    (hk : (Terms.quiet host).Holds w X)
    (hw : ∀ a, answer = .ok a → ∀ r ∈ op.made a, w'.heap.Whole r) :
    (Terms.quiet host).Holds w' (op.ledger w.heap X answer) := by
  obtain ⟨fuel, e⟩ := hs.performed
  have hk' : (Terms.quiet host).Holds w (X - op.taken + op.taken) := by
    rwa [Multiset.sub_add_cancel hs.held]
  have hrekeys : op.installs → (Terms.quiet host).Rekeys := by
    intro hi s h r hlevel
    exact ⟨hlevel.1, .inl (hq.resolve_right (not_not_intro hi))⟩
  have hdone := top_keeps_quiet.perform op hrekeys hk' answer w' e
  cases answer with
  | ok a => exact hdone fun _ => hw a rfl
  | error _ => exact hdone

/-- A careful client gets no cell with a stale reference. -/
theorem Step.whole (hs : Step host op w X answer w') (hk : (Terms.quiet host).Holds w X)
    (hc : op.Careful w.heap X) : ∀ a, answer = .ok a → ∀ r ∈ op.made a, w'.heap.Whole r := by
  obtain ⟨fuel, e⟩ := hs.performed
  have hsplit : X - op.taken + op.taken = X := Multiset.sub_add_cancel hs.held
  rw [← hsplit] at hk hc
  rintro a rfl
  refine top_keeps_quiet.perform_whole (fun _ => trivial) Terms.secures_reached op hk hc _ w' e
    fun q hq => .inl ?_
  cases op
  case allocThread source =>
    exact Heap.Reached.shared (fun t ht => hc t (Option.mem_toList.mpr ht)) hq
  all_goals cases hq

theorem Run.quiet_careful (hh : host.Silent) (hr : Run host Discipline.careful w X) :
    (Terms.quiet host).Holds w X := by
  induction hr with
  | start config s => exact quiet_holds_iff.mpr ⟨kept_empty, .inl hh⟩
  | step _ hs hc ih => exact hs.exact (.inl hh) ih (hs.whole ih hc)
  | host s _ ih => exact quiet_holds_iff.mpr (quiet_holds_iff.mp ih)

/-- A careful run keeps what is asked of a heap between operations, and exact counts. -/
theorem Run.kept (hh : host.Silent) (hr : Run host Discipline.careful w X) :
    Kept True AtRest w.heap X :=
  (quiet_holds_iff.mp (hr.quiet_careful hh)).1

end CountedHeap
