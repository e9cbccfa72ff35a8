import CountedHeap.Proofs.Runs
import CountedHeap.Proofs.Simulation

/-!
# Relations between worlds that operations respect

A relation that is respected by what operations do themselves, and by what passes and drains do, is
respected wherever operations are performed and whatever finalizers do. This holds for conditions on
heaps that are kept, and for operations that do what others do where they have a result.

* `Way`: a way of performing operations, and the engines whose finalizers perform them in this way.
* `Simulation.agree_inPass`, `Simulation.agree_inDrain`, `Simulation.agree_top`: two ways are related at
  all three places if they are for any two engines.
* `keeping`, `Reachable.keeps`: actions that keep a condition, and the worlds in which it holds then.
* `restricting`: actions that do what others do, if they have a result.
* `Attains`: the worlds that are reached where operations have a result under some condition only.
-/

namespace CountedHeap

open Heap (Withers)

variable {σ α β : Type} {I : Heap → Prop} {host : Host σ} {fuel : ℕ}

/-! ## Ways of performing operations -/

/-- A way of performing operations where an engine is in charge. -/
abbrev Way (σ : Type) : Type 1 :=
  Engine σ → (β : Type) → Operation β → Attempt σ β

namespace Way

/-- What operations do. -/
def plain : Way σ :=
  fun E _ op => E.perform op

variable (P : Way σ)

/-- Calls a native function whose operations are performed in this way. -/
def caller (E : Engine σ) (host : Host σ) : Caller σ :=
  fun id v => (host id v).run (P E _)

/-- While the queue is worked off. -/
def inDrain (host : Host σ) : Engine σ where
  drain := pure ()
  collect := pass (P.caller .inPass host) (pure ())
  slack := 0

/-- Outside of passes and drains. -/
def top (host : Host σ) (fuel : ℕ) : Engine σ :=
  let drain := drainQueue (P.caller (P.inDrain host) host) ((P.inDrain host).collect {}) fuel
  { drain := drain
    collect := pass (P.caller .inPass host) drain
    slack := fuel }

end Way

namespace Simulation

variable {τ : Type} {S : Simulation τ σ} {P' : Way τ} {P : Way σ} {E' : Engine τ} {E : Engine σ}
  {host' : Host τ} {host : Host σ}

/-- Operations are related wherever engines are. -/
def Relates (S : Simulation τ σ) (P' : Way τ) (P : Way σ) : Prop :=
  ∀ ⦃E' : Engine τ⦄ ⦃E : Engine σ⦄, S.Agree E' E → ∀ {β : Type} (op : Operation β),
    S.Lift (P' E' β op) (P E β op)

theorem relates_plain (hturn : S.Turning) : S.Relates .plain .plain :=
  fun _ _ h _ op => h.perform_all hturn op

/-- Finalizers are related wherever engines are. -/
def Finalizes (S : Simulation τ σ) (P' : Way τ) (P : Way σ) (host' : Host τ) (host : Host σ) : Prop :=
  ∀ ⦃E' : Engine τ⦄ ⦃E : Engine σ⦄, S.Agree E' E → ∀ r f,
    S.rel (runFinalizer (P'.caller E' host') r f) (runFinalizer (P.caller E host) r f)

/-- Programs are related if their operations are. -/
def Running (S : Simulation σ σ) : Prop :=
  ∀ {α : Type} (p : Program σ α) {perform' perform : {β : Type} → Operation β → Attempt σ β},
    (∀ {β : Type} (op : Operation β), S.Lift (perform' op) (perform op)) →
    S.rel (p.run perform') (p.run perform)

/-- The finalizers of a host are related if its programs are. -/
theorem Running.finalizes {S : Simulation σ σ} {P' P : Way σ} (hrun : S.Running) (hS : S.Withering)
    (hP : S.Relates P' P) : S.Finalizes P' P host host :=
  fun _ _ h _ _ => hS.runFinalizer fun _ _ => hrun _ (hP h)

theorem rel_release (hS : S.Withering) (hdrain : S.rel E'.drain E.drain) (r : Handle) :
    S.rel (E'.release r) (E.release r) :=
  S.bind (hS.change Heap.oblivious_release fun _ => .release) fun _ => S.ite hdrain S.pure

theorem agree_inPass (hS : S.Withering) : S.Agree .inPass .inPass where
  release := rel_release hS S.pure
  collect _ := S.pure
  slack := rfl

theorem agree_inDrain (hS : S.Withering) (hfin : S.Finalizes P' P host' host) :
    S.Agree (P'.inDrain host') (P.inDrain host) where
  release := rel_release hS S.pure
  collect _ := hS.pass (hfin (agree_inPass hS)) S.pure
  slack := rfl

/-- At the top the drain has to be respected as well. -/
theorem agree_top (hS : S.Withering) (hfin : S.Finalizes P' P host' host)
    (hdrain : S.rel (P'.top host' fuel).drain (P.top host fuel).drain) :
    S.Agree (P'.top host' fuel) (P.top host fuel) where
  release := rel_release hS hdrain
  collect _ := hS.pass (hfin (agree_inPass hS)) hdrain
  slack := rfl

/-- It is, if it may be said to be under way. -/
theorem rel_drain (hS : S.Withering) (hfin : S.Finalizes P' P host' host)
    (hflag : ∀ (h : Heap) b, S.step h { h with draining := b }) :
    S.rel (P'.top host' fuel).drain (P.top host fuel).drain :=
  hS.drainQueue (hfin (agree_inDrain hS hfin)) hflag ((agree_inDrain hS hfin).collect {})

end Simulation

/-! ## Conditions that are kept -/

/-- Actions that keep a condition. -/
def keeping (σ : Type) (I : Heap → Prop) : Simulation σ σ where
  rel _ x := ∀ w, I w.heap → After x w fun _ w' => I w'.heap
  step h h' := I h → I h'
  pure _ hI := after_pure.mpr hI
  bind := by
    intro α β _ x _ f hx hf w hI
    exact after_bind.mpr ((hx w hI).mono fun a w' hI' => hf a w' hI')
  change _ hf w hI := after_change.mpr (hf _ hI)
  query _ _ hI := after_query.mpr hI
  fail hf _ hI := after_modifyHeap.mpr (hf _ hI)
  stop _ _ := after_none.mpr trivial

theorem lift_keeping_iff {x' x : Attempt σ α} : (keeping σ I).Lift x' x ↔
    ∀ w, I w.heap → Meets x w (fun _ w' => I w'.heap) fun _ w' => I w'.heap := by
  refine forall_congr' fun w => imp_congr_right fun _ => forall_congr' fun r => ?_
  cases r <;> exact Iff.rfl

theorem running_keeping : (keeping σ I).Running := by
  intro α p perform' perform hop
  induction p with
  | done a => exact (keeping σ I).pure
  | perform op next ih =>
    intro w hI a w' e
    unfold Program.run at e
    split at e
    · cases e
    · rename_i answer w₁ hrun
      exact ih answer w₁ (hop op w hI answer w₁ hrun) a w' e
  | readHeap next ih => exact fun w hI => ih w.heap w hI
  | readHost next ih => exact fun w hI => ih w.host w hI
  | modifyHost f next ih => exact fun w hI => ih () ⟨w.heap, f w.host⟩ hI

/-- Strokes keep what each of them keeps. -/
theorem stroking_keeping (hI : ∀ h h', Heap.Stroke h h' → I h → I h') : (keeping σ I).Stroking := by
  intro h h' hs hI₀
  induction hs with
  | refl => exact hI₀
  | tail _ hlast ih => exact hI _ _ hlast ih

theorem turning_keeping (hI : ∀ h h', Heap.Turn h h' → I h → I h') : (keeping σ I).Turning := by
  intro h h' hs hI₀
  induction hs with
  | refl => exact hI₀
  | tail _ hlast ih => exact hI _ _ hlast ih

/-- What operations, passes and drains keep holds of every world that is reached. -/
theorem Reachable.keeps_of_relates (hempty : ∀ config, I (.empty config))
    (hplain : (keeping σ I).Relates .plain .plain) (hwithers : ∀ h h', Withers h h' → I h → I h')
    (hflag : ∀ (h : Heap) b, I h → I { h with draining := b }) {w : World σ}
    (hw : Reachable host w) : I w.heap := by
  have hfin : (keeping σ I).Finalizes .plain .plain host host :=
    running_keeping.finalizes hwithers hplain
  induction hw with
  | start config s => exact hempty config
  | @perform _ op fuel _ _ _ _ e ih =>
    have hdrain : (keeping σ I).rel (Way.plain.top host fuel).drain (Way.plain.top host fuel).drain :=
      Simulation.rel_drain hwithers hfin hflag
    exact hplain (Simulation.agree_top hwithers hfin hdrain) op _ ih _ _ e
  | host s _ ih => exact ih

/-- It is enough that each turn of an operation keeps it. -/
theorem Reachable.keeps (hempty : ∀ config, I (.empty config))
    (hturn : ∀ h h', Heap.Turn h h' → I h → I h') (hwithers : ∀ h h', Withers h h' → I h → I h')
    (hflag : ∀ (h : Heap) b, I h → I { h with draining := b }) {w : World σ}
    (hw : Reachable host w) : I w.heap :=
  hw.keeps_of_relates hempty (Simulation.relates_plain (turning_keeping hturn)) hwithers hflag

/-! ## Actions that do no more than others -/

/-- Actions that do what others do, where they have a result. -/
def restricting (σ : Type) : Simulation σ σ where
  rel x' x := ∀ w p, x' w = some p → x w = some p
  step _ _ := True
  pure _ _ := id
  bind := by
    intro α β x' x f' f hx hf w p e
    obtain ⟨⟨a, w'⟩, hx', hf'⟩ := Option.bind_eq_some_iff.mp e
    exact Option.bind_eq_some_iff.mpr ⟨(a, w'), hx w _ hx', hf a w' p hf'⟩
  change _ _ _ _ := id
  query _ _ _ := id
  fail _ _ _ := id
  stop _ _ := id

theorem restricting_refl {x : Action σ α} : (restricting σ).rel x x :=
  fun _ _ => id

theorem withering_restricting : (restricting σ).Withering :=
  fun _ _ _ => trivial

theorem turning_restricting : (restricting σ).Turning :=
  fun _ _ _ => trivial

theorem running_restricting : (restricting σ).Running := by
  intro α p perform' perform hop
  induction p with
  | done a => exact restricting_refl
  | perform op next ih =>
    intro w x e
    unfold Program.run at e ⊢
    split at e
    · cases e
    · rename_i answer w₁ hrun
      rw [hop op w _ hrun]
      exact ih answer w₁ x e
  | readHeap next ih => exact fun w => ih w.heap w
  | readHost next ih => exact fun w => ih w.host w
  | modifyHost f next ih => exact fun w => ih () ⟨w.heap, f w.host⟩

/-- The worlds that operations lead to, performed in some way that may have no result. -/
inductive Attains (perform : ℕ → (β : Type) → Operation β → Attempt σ β) : World σ → Prop where
  | start (config : Config) (s : σ) : Attains perform ⟨.empty config, s⟩
  | perform {β : Type} {op : Operation β} {fuel : ℕ} {w w' : World σ} {answer : Except HeapError β} :
      Attains perform w → (perform fuel β op).run w = some (answer, w') → Attains perform w'
  | host {w : World σ} (s : σ) : Attains perform w → Attains perform ⟨w.heap, s⟩

namespace Attains

variable {perform : ℕ → (β : Type) → Operation β → Attempt σ β} {w : World σ}

/-- If operations do what they do at the top, where they have a result, then no other worlds are
reached. -/
theorem reachable (hrestrict : ∀ fuel (β : Type) (op : Operation β),
      (restricting σ).Lift (perform fuel β op) ((Engine.top host fuel).perform op))
    (hw : Attains perform w) : Reachable host w := by
  induction hw with
  | start config s => exact .start config s
  | perform _ e ih => exact .perform ih (hrestrict _ _ _ _ _ e)
  | host s _ ih => exact .host s ih

/-- The world after an operation, or the same world if it has no result. -/
def next (perform : ℕ → (β : Type) → Operation β → Attempt σ β) (fuel : ℕ) (op : Operation β)
    (w : World σ) : World σ :=
  (((perform fuel β op).run w).map Prod.snd).getD w

theorem step (hw : Attains perform w) (fuel : ℕ) (op : Operation β) :
    Attains perform (next perform fuel op w) := by
  unfold next
  cases e : (perform fuel β op).run w with
  | none => exact hw
  | some p => exact .perform hw e

/-- The world after some operations. -/
def follow (perform : ℕ → (β : Type) → Operation β → Attempt σ β) (fuel : ℕ) (ops : List Command)
    (w : World σ) : World σ :=
  ops.foldl (fun w c => next perform fuel c.2 w) w

theorem steps (hw : Attains perform w) (fuel : ℕ) (ops : List Command) :
    Attains perform (follow perform fuel ops w) := by
  induction ops generalizing w with
  | nil => exact hw
  | cons c ops ih => exact ih (hw.step fuel c.2)

end Attains

end CountedHeap
