import CountedHeap.Engine
import CountedHeap.Proofs.Action
import CountedHeap.Proofs.Heap.Edits
import CountedHeap.Proofs.Heap.Release

/-!
# What engines keep

The terms on which operations run: when counts are strict, which references the state of the host
accounts for, and at what level the heap is, outside of drains and passes or within one. An engine
that keeps the terms when it gives a count back and when it runs a tracing pass keeps them through
every operation.

* `Terms.Holds`: the terms are met, with some references in flight.
* `Engine.Keeps`: what an engine has to guarantee.
* `Keeps.releaseAll`, `Keeps.putSlot`, `Keeps.terminateThread`, …: operations that give references
  back.
-/

namespace CountedHeap

/-- The terms on which operations run. -/
structure Terms (σ : Type) where
  /-- Whether counts are exact. -/
  strict : σ → Prop
  /-- The references that the host accounts for in its state. -/
  held : σ → Multiset Handle
  /-- What holds of the heap between two steps, given the state of the host. -/
  level : σ → Heap → Prop
  steady : ∀ s, Heap.Steady (level s)
  /-- How a heap may have changed while counts were given back. -/
  since : Heap → Heap → Prop
  since_refl : ∀ h, since h h
  since_key : ∀ h h', since h h' → h.finalizerKey = none → h'.finalizerKey = none

namespace Terms

variable {σ α : Type} {T : Terms σ} {w : World σ} {X given taken : Multiset Handle} {h : Heap}

/-- The same terms at another level, where no more is asked of the heap than that the key of
finalizers is not made by the way. -/
def among (T : Terms σ) (P : σ → Heap → Prop) (hP : ∀ s, Heap.Steady (P s)) : Terms σ where
  strict := T.strict
  held := T.held
  level := P
  steady := hP
  since h h' := h.finalizerKey = none → h'.finalizerKey = none
  since_refl _ := id
  since_key _ _ := id

/-- The same where the level does not depend on the state of the host. -/
abbrev during (T : Terms σ) (P : Heap → Prop) (hP : Heap.Steady P) : Terms σ :=
  T.among (fun _ => P) fun _ => hP

/-- Terms that say no more than whether counts are exact and what the host holds. -/
def plain (s : Prop) (held : σ → Multiset Handle) : Terms σ where
  strict _ := s
  held := held
  level _ _ := True
  steady _ _ _ _ _ := trivial
  since h h' := h.finalizerKey = none → h'.finalizerKey = none
  since_refl _ := id
  since_key _ _ := id

/-- The terms are met, with some references in flight. -/
def Holds (T : Terms σ) (w : World σ) (X : Multiset Handle) : Prop :=
  w.heap.Kept (T.strict w.host) (T.level w.host) (T.held w.host + X)

/-- The terms allow a key of finalizers to be made. -/
def Rekeys (T : Terms σ) : Prop :=
  ∀ s h r, T.level s h → T.level s { h with finalizerKey := some r }

/-- An attempt ends with the terms met as before. -/
def Keeping (T : Terms σ) (x : Attempt σ α) (w : World σ) (X : Multiset Handle) : Prop :=
  Meets x w (fun _ w' => T.Holds w' X) (fun _ w' => T.Holds w' X)

/-- A step that takes references from those in flight and gives others. -/
theorem Holds.trade (hk : T.Holds w (X + taken))
    (f : ∀ Z, w.heap.Kept (T.strict w.host) (T.level w.host) (Z + taken) →
      h.Kept (T.strict w.host) (T.level w.host) (Z + given)) : T.Holds ⟨h, w.host⟩ (X + given) := by
  unfold Holds at hk ⊢
  rw [← add_assoc] at hk ⊢
  exact f _ hk

theorem Holds.give (hk : T.Holds w X)
    (f : ∀ Z, w.heap.Kept (T.strict w.host) (T.level w.host) Z →
      h.Kept (T.strict w.host) (T.level w.host) (Z + given)) : T.Holds ⟨h, w.host⟩ (X + given) := by
  rw [← add_zero X] at hk
  exact hk.trade fun Z hZ => f Z (by rwa [add_zero] at hZ)

theorem Holds.same (hk : T.Holds w X)
    (f : ∀ Z, w.heap.Kept (T.strict w.host) (T.level w.host) Z →
      h.Kept (T.strict w.host) (T.level w.host) Z) : T.Holds ⟨h, w.host⟩ X :=
  f _ hk

end Terms

/-- What an engine guarantees: what it gives back is no longer in flight, and a tracing pass keeps
the terms. -/
structure Engine.Keeps {σ : Type} (E : Engine σ) (T : Terms σ) : Prop where
  release : ∀ w X r, T.Holds w (X + {r}) →
    After (E.release r) w fun _ w' => T.Holds w' X ∧ T.since w.heap w'.heap
  collect : ∀ w X o, T.Holds w X →
    After (E.collect o) w fun _ w' => T.Holds w' X ∧ T.since w.heap w'.heap

namespace Engine.Keeps

variable {σ : Type} {E : Engine σ} {T : Terms σ} {w : World σ} {X : Multiset Handle}
  {r key t : Handle} {v : Value} {slot : Slot} {i n : ℕ}

theorem releaseAll (K : E.Keeps T) {rs : List Handle} (hk : T.Holds w (X + rs)) :
    After (E.releaseAll rs) w fun _ w' => T.Holds w' X := by
  induction rs generalizing w with
  | nil => simpa [Engine.releaseAll] using hk
  | cons r rs ih =>
    rw [add_coe_cons] at hk
    simp only [Engine.releaseAll, after_bind]
    exact (K.release w _ r hk).mono fun _ w' hk' => ih hk'.1

/-- The references of what may be missing. -/
theorem releaseToList (K : E.Keeps T) {r : Option Handle} (hk : T.Holds w (X + r.toList)) :
    After (E.releaseAll r.toList) w fun _ w' => T.Holds w' X :=
  K.releaseAll hk

/-! ## Properties, prototypes and elements -/

theorem putSlot (K : E.Keeps T) (hk : T.Holds w X) : T.Keeping (E.putSlot r key slot) w X := by
  unfold Engine.putSlot Terms.Keeping
  simp only [meets_bind, meets_check, meets_surely, after_change]
  refine ⟨fun _ _ => hk, fun _ hc => ?_⟩
  exact K.releaseAll (hk.give fun _ hZ => hZ.storeSlot (T.steady _) hc)

theorem deleteProp (K : E.Keeps T) (hk : T.Holds w X) : T.Keeping (E.deleteProp r key) w X := by
  unfold Engine.deleteProp Terms.Keeping
  simp only [meets_bind, meets_check, meets_surely, after_change]
  refine ⟨fun _ _ => hk, fun _ _ => ?_⟩
  cases hd : (w.heap.dropSlot r key).2 with
  | none =>
    simp only [meets_pure]
    exact hk.same fun _ hZ => hZ.dropSlot_none hd
  | some displaced =>
    simp only [meets_bind, meets_surely, meets_pure]
    exact K.releaseAll (hk.give fun _ hZ => hZ.dropSlot (T.steady _) hd)

theorem setPrototype (K : E.Keeps T) {proto : Option Handle} (hk : T.Holds w X) :
    T.Keeping (E.setPrototype r proto) w X := by
  unfold Engine.setPrototype Terms.Keeping
  simp only [meets_bind, meets_check, meets_surely, after_modifyHeap]
  refine ⟨fun _ _ => hk, fun old hc => ?_⟩
  obtain ⟨o, ho, hl, rfl⟩ := Heap.checkPrototype_eq_ok hc
  exact K.releaseToList (hk.give fun _ hZ => hZ.linkPrototype (T.steady _) ho hl)

theorem arrayPush (hk : T.Holds w X) : T.Keeping (Engine.arrayPush r v) w X := by
  unfold Engine.arrayPush Terms.Keeping
  simp only [meets_bind, meets_check, meets_surely, after_modifyHeap, meets_pure]
  refine ⟨fun _ _ => hk, fun _ hv => ⟨fun _ _ => hk, fun _ ha => ?_⟩⟩
  obtain ⟨o, ho⟩ := Heap.checkArray_eq_ok ha
  exact hk.same fun _ hZ => hZ.appendElement (T.steady _) ho hv

theorem arraySet (K : E.Keeps T) (hk : T.Holds w X) : T.Keeping (E.arraySet r i v) w X := by
  unfold Engine.arraySet Terms.Keeping
  simp only [meets_bind, meets_check, meets_surely, after_change]
  refine ⟨fun _ _ => hk, fun _ hv => ⟨fun _ _ => hk, fun _ ha => ?_⟩⟩
  obtain ⟨o, ho⟩ := Heap.checkArray_eq_ok ha
  exact K.releaseAll (hk.give fun _ hZ => hZ.storeElement (T.steady _) ho hv)

/-! ## Roots -/

theorem addRoot (hk : T.Holds w X) : T.Keeping (addRoot v) w X := by
  unfold CountedHeap.addRoot Terms.Keeping
  simp only [meets_bind, meets_check, meets_surely, after_change]
  refine ⟨fun _ _ => hk, fun _ hv => ?_⟩
  exact hk.same fun _ hZ => hZ.holdRoot (T.steady _) fun _ => Heap.live_of_checkValue hv

theorem setRoot (K : E.Keeps T) (hk : T.Holds w X) : T.Keeping (E.setRoot n v) w X := by
  unfold Engine.setRoot Terms.Keeping
  simp only [meets_bind, meets_check, meets_surely, after_modifyHeap]
  refine ⟨fun _ _ => hk, fun _ hv => ⟨fun _ _ => hk, fun old ho => ?_⟩⟩
  exact K.releaseAll (hk.give fun _ hZ =>
    hZ.storeRoot (T.steady _) (Heap.checkRoot_eq_ok.mp ho) fun _ => Heap.live_of_checkValue hv)

theorem removeRoot (K : E.Keeps T) (hk : T.Holds w X) : T.Keeping (E.removeRoot n) w X := by
  unfold Engine.removeRoot Terms.Keeping
  simp only [meets_bind, meets_surely, after_change, meets_pure]
  exact K.releaseAll (hk.give fun _ hZ => hZ.dropRoot (T.steady _))

end Engine.Keeps

end CountedHeap
