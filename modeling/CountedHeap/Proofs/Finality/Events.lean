import CountedHeap.Proofs.Heap.Dwindles
import CountedHeap.Proofs.Records

/-!
# What happens to a cell

The record of a run says which finalizers have run and which cells have been freed, in order. It is in
order if no cell is finalized twice before it is freed, and no cell is freed before it has been
finalized once that has a finalizer which was to run. A handle may name one cell after another, so
that only what was recorded since it was last freed is that of its cell.

* `Event`, `runs`: an entry of a record, and how often a cell has been finalized.
* `Event.Timely`, `Orderly`: an entry comes in time, and all entries of a record do.
* `Told`: a record is in order, and tells which cells have been finalized.
-/

namespace CountedHeap

/-- What is recorded of a composite cell. -/
inductive Event where
  /-- Its finalizer runs. -/
  | finalized (r : Handle)
  /-- It is freed. It may be due that its finalizer has run. -/
  | freed (r : Handle) (due : Bool)
deriving DecidableEq

/-- How often a cell has been finalized after an event, if that was `n` times before. -/
def Event.count (r : Handle) (n : ℕ) : Event → ℕ
  | finalized q => if q = r then n + 1 else n
  | freed q _ => if q = r then 0 else n

/-- How often the cell that a handle names has been finalized. -/
def runs (l : List Event) (r : Handle) : ℕ :=
  l.foldl (Event.count r) 0

/-- After a record, an event comes in time: a cell is finalized that has not been, and freed when it has
been finalized once, if this is due. -/
def Event.Timely (l : List Event) : Event → Prop
  | finalized r => runs l r = 0
  | freed r due => due = true → runs l r = 1

/-- Every event of a record comes in time. -/
def Orderly (l : List Event) : Prop :=
  ∀ before e after, l = before ++ e :: after → e.Timely before

variable {l l' : List Event} {e : Event} {r : Handle} {due : Bool} {F F' : Handle → Prop}

@[simp] theorem runs_snoc : runs (l ++ [e]) r = e.count r (runs l r) := by
  simp [runs]

theorem orderly_nil : Orderly [] :=
  throughout_nil

/-- A record in order goes on with an event that comes in time. -/
theorem Orderly.snoc (hl : Orderly l) (he : e.Timely l) : Orderly (l ++ [e]) :=
  (throughout_snoc (P := fun before (e : Event) => e.Timely before)).mpr ⟨hl, he⟩

/-- A record is in order, and the cells that have been finalized once are those of a class. The others
have not been. -/
structure Told (l : List Event) (F : Handle → Prop) : Prop where
  orderly : Orderly l
  once : ∀ r, F r → runs l r = 1
  never : ∀ r, ¬ F r → runs l r = 0

namespace Told

theorem nil (hF : ∀ r, ¬ F r) : Told [] F :=
  ⟨orderly_nil, fun r hr => absurd hr (hF r), fun _ _ => rfl⟩

theorem congr (ht : Told l F) (hF : ∀ r, F' r ↔ F r) : Told l F' :=
  ⟨ht.orderly, fun r hr => ht.once r ((hF r).mp hr), fun r hr => ht.never r (mt (hF r).mpr hr)⟩

/-- A cell is finalized that has not been. -/
theorem finalize (ht : Told l F) (hr : ¬ F r) (hF : ∀ q, F' q ↔ F q ∨ q = r) :
    Told (l ++ [.finalized r]) F' := by
  refine ⟨ht.orderly.snoc (ht.never r hr), fun q hq => ?_, fun q hq => ?_⟩
  · rw [runs_snoc]
    by_cases hqr : r = q
    · subst hqr
      simp [Event.count, ht.never r hr]
    · rw [Event.count, if_neg hqr]
      exact ht.once q (((hF q).mp hq).resolve_right (Ne.symm hqr))
  · simp only [hF, not_or] at hq
    rw [runs_snoc, Event.count, if_neg (Ne.symm hq.2)]
    exact ht.never q hq.1

/-- A cell is freed that has been finalized, if this is due. -/
theorem free (ht : Told l F) (hr : due = true → F r) (hF : ∀ q, F' q ↔ F q ∧ q ≠ r) :
    Told (l ++ [.freed r due]) F' := by
  refine ⟨ht.orderly.snoc fun hdue => ht.once r (hr hdue), fun q hq => ?_, fun q hq => ?_⟩
  · obtain ⟨hq, hne⟩ := (hF q).mp hq
    rw [runs_snoc, Event.count, if_neg hne.symm]
    exact ht.once q hq
  · rw [runs_snoc, Event.count]
    split
    · rfl
    · rename_i hne
      exact ht.never q fun hFq => hq ((hF q).mpr ⟨hFq, Ne.symm hne⟩)

/-- Several cells are freed, one after the other. -/
theorem freeAll {slots : List ℕ} {cell : ℕ → Handle} {due : ℕ → Bool} (ht : Told l F)
    (hcell : ∀ i, (cell i).index = i) (hnd : slots.Nodup)
    (hdue : ∀ i ∈ slots, due i = true → F (cell i))
    (hF : ∀ q, F' q ↔ F q ∧ ∀ i ∈ slots, q ≠ cell i) :
    Told (l ++ slots.map fun i => .freed (cell i) (due i)) F' := by
  induction slots generalizing l F with
  | nil =>
    have hsame : ∀ q, F' q ↔ F q := fun q => by simp [hF]
    simpa using ht.congr hsame
  | cons i slots ih =>
    have hnot : ∀ j ∈ slots, cell j ≠ cell i := fun j hj he =>
      (List.nodup_cons.mp hnd).1 (by rwa [← hcell i, ← he, hcell j])
    have hfirst : Told (l ++ [.freed (cell i) (due i)]) fun q => F q ∧ q ≠ cell i :=
      ht.free (hdue i (by simp)) fun _ => Iff.rfl
    rw [List.map_cons, ← List.singleton_append, ← List.append_assoc]
    refine ih hfirst (List.nodup_cons.mp hnd).2 (fun j hj hd => ?_) fun q => ?_
    · exact ⟨hdue j (by simp [hj]) hd, hnot j hj⟩
    · rw [hF, List.forall_mem_cons, and_assoc]

end Told

end CountedHeap
