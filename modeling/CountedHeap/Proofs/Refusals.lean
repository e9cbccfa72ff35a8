import CountedHeap.Proofs.Runs

/-!
# Refusals that change nothing

Most operations look at everything that can refuse them before they change anything, and are not
refused once they have begun. If one of these is refused, the world is as it was before: the cells with
what they hold and their counts, the queue, the roots, the strings, the threads, and the state of the
host. Wherever the operation runs this is so, whatever handles it is given.

* `Certain`: attempts that are never refused.
* `Prudent`: attempts that change nothing where they are refused.
* `Operation.looksFirst`: the operations that are, and when giving a buffer another length is one.
* `refused_unchanged`: the world after a refusal is the world before it.
-/

namespace CountedHeap

variable {σ α β : Type} {E : Engine σ} {w w' : World σ}

/-- An attempt that is never refused. -/
def Certain (x : Attempt σ α) : Prop :=
  ∀ w, Meets x w (fun _ _ => False) fun _ _ => True

/-- An attempt that changes nothing in a world where it is refused. -/
def Prudent (x : Attempt σ α) (w : World σ) : Prop :=
  Meets x w (fun _ w' => w' = w) fun _ _ => True

theorem certain_pure {a : α} : Certain (pure a : Attempt σ α) :=
  fun _ => meets_pure.mpr trivial

theorem certain_surely {x : Action σ α} : Certain (surely x) :=
  fun _ => meets_surely.mpr fun _ _ _ => trivial

theorem Certain.bind {x : Attempt σ α} {f : α → Attempt σ β} (hx : Certain x)
    (hf : ∀ a, Certain (f a)) : Certain (x >>= f) :=
  fun w => meets_bind.mpr ((hx w).mono (fun _ _ h => h) fun a w' _ => hf a w')

theorem Certain.prudent {x : Attempt σ α} (hx : Certain x) : Prudent x w :=
  (hx w).mono (fun _ _ h => h.elim) fun _ _ h => h

/-- What has only been looked at so far may still refuse. -/
theorem prudent_check_bind {f : Heap → Except HeapError α} {g : α → Attempt σ β}
    (hg : ∀ a, f w.heap = .ok a → Prudent (g a) w) : Prudent (check f >>= g) w :=
  meets_bind.mpr (meets_check.mpr ⟨fun _ _ => rfl, hg⟩)

/-- A look, and then only what is not refused. -/
theorem Certain.after_check {f : Heap → Except HeapError α} {g : α → Attempt σ β}
    (hg : ∀ a, Certain (g a)) : Prudent (check f >>= g) w :=
  prudent_check_bind fun a _ => (hg a).prudent

/-! ## Operations -/

/-- The operations that look before they change anything. To make a cell or to give a buffer another
length a pass may run first, to leave a call gives back what may be the last reference to its thread,
and a finalizer needs a key, which may have to be made. -/
def Operation.looksFirst : {β : Type} → Operation β → Heap → Prop
  | _, bufferResize b length, h =>
    h.checkDynamic b = .ok () → h.arena.canResize b.index (Body.cellBytes + length) = true
  | _, allocObject _, _ => False
  | _, allocArray _, _ => False
  | _, allocEnvironment _, _ => False
  | _, allocFunction _ _ _ _, _ => False
  | _, allocNativeFunction _ _, _ => False
  | _, allocBuffer _ _, _ => False
  | _, allocBufferFrom _, _ => False
  | _, allocThread _, _ => False
  | _, intern _ _, _ => False
  | _, setFinalizer _ _, _ => False
  | _, popActivation _, _ => False
  | _, unwindCalls _ _, _ => False
  | _, terminateThread _, _ => False
  | _, _, _ => True

namespace Engine

theorem putSlot_prudent {r key : Handle} {slot : Slot} : Prudent (E.putSlot r key slot) w :=
  Certain.after_check fun _ => certain_surely.bind fun _ => certain_surely

theorem deleteProp_prudent {r key : Handle} : Prudent (E.deleteProp r key) w := by
  refine Certain.after_check fun _ => certain_surely.bind fun displaced => ?_
  cases displaced with
  | some _ => exact certain_surely.bind fun _ => certain_pure
  | none => exact certain_pure

theorem arrayPush_prudent {r : Handle} {v : Value} : Prudent (arrayPush r v : Attempt σ ℕ) w :=
  prudent_check_bind fun _ _ => Certain.after_check fun _ => certain_surely.bind fun _ => certain_pure

theorem arraySet_prudent {r : Handle} {i : ℕ} {v : Value} : Prudent (E.arraySet r i v) w :=
  prudent_check_bind fun _ _ => Certain.after_check fun _ => certain_surely.bind fun _ =>
    certain_surely

theorem setRoot_prudent {n : ℕ} {v : Value} : Prudent (E.setRoot n v) w :=
  prudent_check_bind fun _ _ => Certain.after_check fun _ => certain_surely.bind fun _ =>
    certain_surely

theorem bufferWrite_prudent {r : Handle} {i : ℕ} {byte : UInt8} :
    Prudent (bufferWrite r i byte : Attempt σ Bool) w := by
  refine Certain.after_check fun size => ?_
  split
  · exact certain_surely.bind fun _ => certain_pure
  · exact certain_pure

/-- A buffer that can be resized as things are is resized without a pass. -/
theorem bufferResize_prudent {r : Handle} {length : ℕ}
    (hroom : w.heap.checkDynamic r = .ok () →
      w.heap.arena.canResize r.index (Body.cellBytes + length) = true) :
    Prudent (E.bufferResize r length) w := by
  refine prudent_check_bind fun _ hdynamic => ?_
  unfold Prudent
  simp only [meets_bind, meets_surely, after_query, hroom hdynamic, Bool.not_true, Bool.false_eq_true,
    ↓reduceIte, after_modifyHeap]

theorem charOffset_prudent {r : Handle} {i : ℕ} : Prudent (charOffset r i : Attempt σ ℕ) w := by
  refine Certain.after_check fun found => ?_
  obtain ⟨byte, scanned⟩ := found
  dsimp only
  split
  · exact certain_surely.bind fun _ => certain_pure
  · exact certain_pure

theorem perform_prudent {op : Operation β} (hop : op.looksFirst w.heap) : Prudent (E.perform op) w := by
  cases op with
  | bufferResize b length => exact bufferResize_prudent hop
  | putProp r key v => exact putSlot_prudent
  | putAccessor r key getter setter => exact putSlot_prudent
  | deleteProp r key => exact deleteProp_prudent
  | arrayPush r v => exact arrayPush_prudent
  | arraySet r i v => exact arraySet_prudent
  | setRoot n v => exact setRoot_prudent
  | bufferWrite b i byte => exact bufferWrite_prudent
  | charOffset s i => exact charOffset_prudent
  -- A look and a change.
  | addRoot v => exact Certain.after_check fun _ => certain_surely
  | push t v => exact Certain.after_check fun _ => certain_surely
  | pushActivation t a => exact Certain.after_check fun _ => certain_surely
  | pushCatcher t c => exact Certain.after_check fun _ => certain_surely
  | unwindCatchers t length => exact Certain.after_check fun _ => certain_surely
  | startThread t => exact Certain.after_check fun _ => certain_surely
  -- Then references are given back.
  | setPrototype r proto =>
    exact Certain.after_check fun _ => certain_surely.bind fun _ => certain_surely
  | pop t => exact Certain.after_check fun _ => certain_surely.bind fun _ => certain_surely
  | popN t n => exact Certain.after_check fun _ => certain_surely.bind fun _ => certain_surely
  | replace t i v => exact Certain.after_check fun _ => certain_surely.bind fun _ => certain_surely
  | setBuiltin t id r => exact Certain.after_check fun _ => certain_surely.bind fun _ => certain_surely
  | yieldThread => exact Certain.after_check fun _ => certain_surely.bind fun _ => certain_surely
  | resumeThread t =>
    exact Certain.after_check fun _ => certain_surely.bind fun _ => certain_surely.bind fun _ =>
      certain_surely
  -- Nothing refuses these.
  | registerNative => exact certain_surely.prudent
  | retain v => exact certain_surely.prudent
  | release v => exact certain_surely.prudent
  | collect options => exact certain_surely.prudent
  | removeRoot n =>
    exact (certain_surely.bind fun _ => certain_surely.bind fun _ => certain_pure).prudent
  | allocObject _ | allocArray _ | allocEnvironment _ | allocFunction _ _ _ _
  | allocNativeFunction _ _ | allocBuffer _ _ | allocBufferFrom _ | allocThread _ | intern _ _
  | setFinalizer _ _ | popActivation _ | unwindCalls _ _ | terminateThread _ => exact hop.elim

end Engine

/-- If an operation that looks first is refused, the world is the same as before, in whatever world and by
whatever engine it is performed. -/
theorem refused_unchanged {op : Operation β} {e : HeapError} (hop : op.looksFirst w.heap)
    (hrun : (E.perform op).run w = some (.error e, w')) : w' = w :=
  Engine.perform_prudent hop _ _ hrun

/-- A string, an array, and an object that has been freed again. -/
def discarded : List Command :=
  [⟨_, .intern "k" false⟩, ⟨_, .allocArray none⟩, ⟨_, .allocObject none⟩, ⟨_, .release (.ref ⟨2, 0⟩)⟩]

/-- The reference to the freed object cannot be stored in the array, neither under a key nor as an
element, and nothing has changed. -/
theorem refused_unchanged_stale : ∃ w : World Unit, Reachable .idle w ∧
    (∃ w', ((Engine.top .idle 5).perform (.putProp ⟨1, 0⟩ ⟨0, 0⟩ (.ref ⟨2, 0⟩))).run w =
      some (.error .invalidHandle, w') ∧ w' = w) ∧
    ∃ w', ((Engine.top .idle 5).perform (.arraySet ⟨1, 0⟩ 3 (.ref ⟨2, 0⟩))).run w =
      some (.error .invalidHandle, w') ∧ w' = w := by
  have hran : (rehearse (fun _ => (Engine.top .idle 5).perform) discarded
      (⟨.empty {}, ()⟩ : World Unit) 0).map (fun x =>
        ((((Engine.top .idle 5).perform (.putProp ⟨1, 0⟩ ⟨0, 0⟩ (.ref ⟨2, 0⟩))).run x.1).map Prod.fst,
          (((Engine.top .idle 5).perform (.arraySet ⟨1, 0⟩ 3 (.ref ⟨2, 0⟩))).run x.1).map Prod.fst)) =
      some (some (.error .invalidHandle), some (.error .invalidHandle)) := by
    decide +kernel
  obtain ⟨⟨w, X⟩, e, hw⟩ := Option.map_eq_some_iff.mp hran
  simp only [Prod.mk.injEq, Option.map_eq_some_iff] at hw
  obtain ⟨⟨⟨_, w₁⟩, hput, rfl⟩, ⟨_, w₂⟩, hset, rfl⟩ := hw
  have hr : Run .idle Discipline.careful w X := (Run.start {} ()).rehearse_careful e
  have hlooks : (Operation.putProp ⟨1, 0⟩ ⟨0, 0⟩ (.ref ⟨2, 0⟩)).looksFirst w.heap := trivial
  have hlooks' : (Operation.arraySet ⟨1, 0⟩ 3 (.ref ⟨2, 0⟩)).looksFirst w.heap := trivial
  exact ⟨w, hr.reachable, ⟨w₁, hput, refused_unchanged hlooks hput⟩,
    w₂, hset, refused_unchanged hlooks' hset⟩

end CountedHeap
