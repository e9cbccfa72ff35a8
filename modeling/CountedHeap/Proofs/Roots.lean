import CountedHeap.Proofs.Invariance

/-!
# Which roots there are

Where native functions leave the heap alone, only the operations on roots change which roots there are and
what these hold, whatever is freed by the way. A root that is made has a number that no other root has.

* `roots_kept`: every other operation.
* `addRoot_roots`, `removeRoot_roots`: what becomes of the roots where one is made or removed.
* `Stake`: what a careful client holds, and what is known of the roots.
* `Stake.perform`, `Stake.release`, `Stake.addRoot`, `Stake.removeRoot`: how such a client goes on.
-/

namespace CountedHeap

open Heap (Touch Shift Withers)

variable {σ β : Type} {host : Host σ} {fuel : ℕ} {w : World σ} {v : Value} {n : ℕ}

namespace Heap

variable {h : Heap} {rs : List Handle} {m : ℕ}

/-- The number of a new root is free. -/
theorem root?_holdRoot (hs : h.Sound) : h.root? (h.holdRoot v).2 = none ∧
    (h.holdRoot v).1.root? n = if n = (h.holdRoot v).2 then some v else h.root? n := by
  have hroots : (h.retainAll v.refs).roots = h.roots := by rw [retainAll_eq]
  have hrest : (h.retainAll v.refs).freeRoots = h.freeRoots := by rw [retainAll_eq]
  simp only [holdRoot, hroots, hrest]
  cases hfree : h.freeRoots with
  | nil =>
    simp only [root?, Array.getElem?_push]
    refine ⟨by simp, ?_⟩
    split <;> rfl
  | cons m rest =>
    have hm : h.roots[m]? = some none := hs.rootsFree m (hfree ▸ List.mem_cons_self)
    simp only [root?, Array.getElem?_setIfInBounds, hm]
    refine ⟨rfl, ?_⟩
    by_cases hn : n = m
    · rw [if_pos hn.symm, if_pos hn, if_pos (Array.getElem?_eq_some_iff.mp hm).1]
      rfl
    · rw [if_neg (Ne.symm hn), if_neg hn]

theorem root?_dropRoot : (h.dropRoot m).1.root? n = if n = m then none else h.root? n := by
  unfold dropRoot
  cases hm : h.root? m with
  | none =>
    by_cases hn : n = m
    · rw [if_pos hn, hn]
      exact hm
    · rw [if_neg hn]
  | some v =>
    simp only [root?, Array.getElem?_setIfInBounds]
    by_cases hn : n = m
    · rw [if_pos hn.symm, if_pos hn]
      split <;> rfl
    · rw [if_neg (Ne.symm hn), if_neg hn]

/-- What a root holds is reached. -/
theorem reached_of_root {X : Multiset Handle} {r : Handle} (hroot : h.root? n = some v)
    (hr : r ∈ v.refs) : h.Reached X r := by
  refine .start (.inr (List.mem_flatMap.mpr ⟨v, ?_, hr⟩))
  have hget : h.roots[n]? = some (some v) := Option.join_eq_some_iff.mp hroot
  exact List.mem_filterMap.mpr ⟨_, Array.mem_toList_iff.mpr (Array.mem_of_getElem? hget), rfl⟩

end Heap

/-- Native functions that leave the heap alone keep whatever is asked of it. -/
theorem Host.Silent.finalizes (hh : host.Silent) {I : Heap → Prop} (hI : (keeping σ I).Withering) :
    (keeping σ I).Finalizes .plain .plain host host := by
  refine fun _ E _ r f => hI.runFinalizer fun id v w hw _ w' e => ?_
  obtain ⟨_, s, hrun⟩ := hh.caller E id v w
  cases hrun.symm.trans e
  exact hw

section

variable {R : Array (Option Value)}

theorem withering_roots : (keeping σ (·.roots = R)).Withering :=
  fun _ _ hw hR => hw.roots.trans hR

theorem shifting_roots : (keeping σ (·.roots = R)).Shifting := by
  intro h h' hs hR
  induction hs with
  | refl => exact hR
  | tail _ hlast ih =>
    cases hlast with
    | touch ht =>
      cases ht with
      | retain r =>
        unfold Heap.retain
        split
        · exact ih
        · exact ih
      | body _ _ => exact ih
      | aside _ hroots _ _ _ _ _ => exact hroots.trans ih
    | thread _ _ _ _ => exact ih
    | current _ => exact ih

theorem agree_roots (hh : host.Silent) (fuel : ℕ) :
    (keeping σ (·.roots = R)).Agree (Engine.top host fuel) (Engine.top host fuel) := by
  have hfin := hh.finalizes (withering_roots (σ := σ) (R := R))
  have hdrain : (keeping σ (·.roots = R)).rel (Way.plain.top host fuel).drain
      (Way.plain.top host fuel).drain :=
    Simulation.rel_drain withering_roots hfin fun _ _ => id
  exact Simulation.agree_top withering_roots hfin hdrain

end

/-- Operations that are not on roots leave them as they are. -/
theorem roots_kept (hh : host.Silent) {op : Operation β} (hop : ¬ op.reroots) :
    After ((Engine.top host fuel).perform op).run w fun _ w' => w'.heap.roots = w.heap.roots := by
  have hagree := agree_roots (R := w.heap.roots) hh fuel
  have htouch := (shifting_roots (σ := σ) (R := w.heap.roots)).touching
  have hretain : ∀ (h : Heap) rs, h.roots = w.heap.roots → (h.retainAll rs).roots = w.heap.roots :=
    fun h rs => htouch h _ .retainAll
  have hmakes := hagree.makes_of htouch (fun _ _ => hagree.alloc fun _ => id)
    (fun h _ _ => hretain h _)
    (fun h t id o => hretain (h.modifyThread t fun x => { x with builtins := x.builtins.set id o }) _)
    fun _ _ => hagree.bufferResize fun _ => id
  exact hagree.perform hmakes htouch op (fun h => absurd h hop) (fun _ _ _ => id)
    (fun hop => hagree.switch shifting_roots hop) w rfl

theorem root?_kept (hh : host.Silent) (op : Operation β) (hop : ¬ op.reroots) :
    After ((Engine.top host fuel).perform op).run w fun _ w' => w'.heap.root? = w.heap.root? := by
  refine (roots_kept hh hop).mono fun _ w' hroots => ?_
  unfold Heap.root?
  rw [hroots]

theorem addRoot_roots (hs : w.heap.Sound) :
    Meets (addRoot v) w (fun _ w' => w' = w) fun n w' => w.heap.root? n = none ∧
      ∀ m, w'.heap.root? m = if m = n then some v else w.heap.root? m := by
  unfold addRoot
  simp only [meets_bind, meets_check, meets_surely, after_change]
  exact ⟨fun _ _ => trivial, fun _ _ => ⟨(Heap.root?_holdRoot (n := 0) hs).1, fun m =>
    (Heap.root?_holdRoot hs).2⟩⟩

theorem removeRoot_roots (hh : host.Silent) :
    Meets ((Engine.top host fuel).removeRoot n) w (fun _ _ => False) fun _ w' =>
      ∀ m, w'.heap.root? m = if m = n then none else w.heap.root? m := by
  unfold Engine.removeRoot
  simp only [meets_bind, meets_surely, after_change, meets_pure]
  refine (agree_roots hh fuel).releaseAll _ rfl |>.mono fun _ w' hroots m => ?_
  rw [← Heap.root?_dropRoot]
  unfold Heap.root?
  rw [hroots]

/-! ## Careful clients -/

/-- What a careful client holds, and what is known of the roots. -/
structure Stake (host : Host σ) (P : (ℕ → Option Value) → Prop) (X : Multiset Handle) (w : World σ) :
    Prop where
  run : Run host .careful w X
  roots : P w.heap.root?

namespace Stake

variable {P : (ℕ → Option Value) → Prop} {X : Multiset Handle} {op : Operation β}

theorem onHost (h : Stake host P X w) (s : σ) : Stake host P X ⟨w.heap, s⟩ :=
  ⟨.host s h.run, h.roots⟩

/-- The client goes on with an operation that takes no count. -/
theorem goes (h : Stake host P X w) (fuel : ℕ) (op : Operation β) (htaken : op.taken = 0)
    (hc : op.Careful w.heap X) :
    Meets ((Engine.top host fuel).perform op) w (fun _ w' => Run host .careful w' X)
      fun a w' => Run host .careful w' (X + op.given w.heap a) := by
  intro answer w' e
  have hstep : Step host op w X answer w' := ⟨by simp [htaken], fuel, e⟩
  have hnext := h.run.step hstep hc
  unfold Operation.ledger at hnext
  rw [htaken, tsub_zero] at hnext
  cases answer with
  | ok a => exact hnext
  | error _ => exact hnext

/-- If the operation is not on roots, these stay. -/
theorem perform (hh : host.Silent) (h : Stake host P X w) (op : Operation β) (htaken : op.taken = 0)
    (hc : op.Careful w.heap X) (hop : ¬ op.reroots) :
    Meets ((Engine.top host fuel).perform op) w (fun _ => Stake host P X)
      fun a => Stake host P (X + op.given w.heap a) := by
  have hroots : Meets ((Engine.top host fuel).perform op) w
      (fun _ w' => w'.heap.root? = w.heap.root?) fun _ w' => w'.heap.root? = w.heap.root? := by
    rintro (e | a) w' hrun
    · exact root?_kept hh op hop _ w' hrun
    · exact root?_kept hh op hop _ w' hrun
  exact Meets.mono ((h.goes fuel op htaken hc).and hroots) (fun _ _ hw => ⟨hw.1, hw.2 ▸ h.roots⟩)
    fun _ _ hw => ⟨hw.1, hw.2 ▸ h.roots⟩

/-- A count that is held is given back. -/
theorem release (hh : host.Silent) (h : Stake host P (X + v.refs) w) :
    Meets ((Engine.top host fuel).perform (.release v)) w (fun _ => Stake host P X)
      fun _ => Stake host P X := by
  have hc : (Operation.release v).Careful w.heap (X + v.refs) :=
    .of_held fun r hr => Multiset.mem_add.mpr (.inr hr)
  intro answer w' e
  have hnext := h.run.step ⟨le_add_self, fuel, e⟩ hc
  have hledger : (Operation.release v).ledger w.heap (X + v.refs) answer = X := by
    have hleft : X + v.refs - (Operation.release v).taken = X := add_tsub_cancel_right _ _
    cases answer with
    | ok _ => exact (add_zero _).trans hleft
    | error _ => exact hleft
  have hstake : Stake host P X w' :=
    ⟨hledger ▸ hnext, root?_kept hh (.release v) not_false answer w' e ▸ h.roots⟩
  cases answer with
  | ok _ => exact hstake
  | error _ => exact hstake

end Stake

end CountedHeap
