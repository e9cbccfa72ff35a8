import Mathlib.Data.List.DropRight
import Mathlib.Algebra.Ring.Int.Defs
import CountedHeap.Config
import CountedHeap.Proofs.Records

/-!
# When a pass is due

The record of a run says when drains free cells and find the queue empty, when passes begin, and when they
set the trigger counter. What the counter should be follows from the record. So does when a voluntary pass
should begin: at the end of each round of a drain that has freed a cell and has used the counter up.

* `Beat`: an entry of a record.
* `Config.counter`: what the trigger counter should be.
* `Config.Due`, `Config.InTime`: when a voluntary pass should begin; each of them begins then, and at no other
  time.
* `Config.Fits`: the counter stays within 64 bits.
-/

namespace CountedHeap

/-- What is recorded of drains and passes. -/
inductive Beat where
  /-- A drain frees a composite cell. -/
  | freed
  /-- A drain finds the queue empty, which ends a round. -/
  | emptied
  /-- A pass begins. Those that drains begin are voluntary. -/
  | pass (voluntary : Bool)
  /-- A pass sets the trigger counter. -/
  | reset (live : ℕ)
deriving DecidableEq

/-- How many composite cells there are when the trigger counter is set. -/
def Beat.live? : Beat → Option ℕ
  | reset live => some live
  | _ => none

/-- How many composite cells there were when the trigger counter was last set. -/
def lastReset (l : List Beat) : Option ℕ :=
  (l.filterMap Beat.live?).getLast?

/-- How many composite cells drains have freed since. -/
def freedSince (l : List Beat) : ℕ :=
  (l.rtakeWhile fun e => e.live?.isNone).count .freed

/-- How many composite cells have been freed in the round that is under way. -/
def freedInRound (l : List Beat) : ℕ :=
  (l.rtakeWhile fun e => e ≠ .emptied).count .freed

variable {l : List Beat} {e : Beat} {live : ℕ}

@[simp] theorem lastReset_snoc : lastReset (l ++ [e]) = e.live?.or (lastReset l) := by
  unfold lastReset
  rw [List.filterMap_append, List.getLast?_append]
  cases e <;> rfl

@[simp] theorem freedSince_snoc : freedSince (l ++ [e]) =
    if e.live?.isNone then freedSince l + if e = .freed then 1 else 0 else 0 := by
  unfold freedSince
  rw [List.rtakeWhile_concat]
  split
  · simp [List.count_singleton]
  · rfl

@[simp] theorem freedInRound_snoc : freedInRound (l ++ [e]) =
    if e = .emptied then 0 else freedInRound l + if e = .freed then 1 else 0 := by
  unfold freedInRound
  rw [List.rtakeWhile_concat]
  by_cases he : e = .emptied
  · simp [he]
  · simp [he, List.count_singleton]

namespace Config

variable {c : Config}

/-- The trigger counter: what it was set to at first or by the last pass, less the composite cells that
drains have freed since, if these are to begin passes. -/
def counter (c : Config) (l : List Beat) : ℤ :=
  (lastReset l).elim c.triggerInitial c.nextTrigger - if c.voluntary then (freedSince l : ℤ) else 0

/-- A round has just ended that has freed a cell and has left the counter used up. -/
def Due (c : Config) (l : List Beat) : Prop :=
  ∃ before, l = before ++ [.emptied] ∧ c.voluntary = true ∧ 0 < freedInRound before ∧
    c.counter before ≤ 0

/-- A voluntary pass begins where one is due, and only there. -/
def InTime (c : Config) (l : List Beat) : Prop :=
  Throughout (fun before e => e = .pass true ↔ c.Due before) l

/-- Wherever cells are counted off the counter, it stays within 64 bits. -/
def Fits (c : Config) (l : List Beat) : Prop :=
  c.voluntary = true →
    Throughout (fun before e => e = .emptied → -2 ^ 63 ≤ c.counter before ∧ c.counter before < 2 ^ 63) l

instance : Decidable (c.Fits l) :=
  inferInstanceAs (Decidable (_ → _))

theorem counter_nil : c.counter [] = c.triggerInitial := by
  simp [counter, lastReset, freedSince]

/-- A cell that a drain frees is counted off. -/
theorem counter_freed : c.counter (l ++ [.freed]) = c.counter l - if c.voluntary then 1 else 0 := by
  simp only [counter, lastReset_snoc, freedSince_snoc, Beat.live?, Option.none_or, Option.isNone_none,
    if_true]
  split
  · rw [Nat.cast_add, Nat.cast_one, sub_sub]
  · rw [sub_zero, sub_zero]

/-- A pass sets the counter. -/
theorem counter_reset : c.counter (l ++ [.reset live]) = c.nextTrigger live := by
  have hsince : freedSince (l ++ [.reset live]) = 0 := freedSince_snoc
  have hlast : lastReset (l ++ [.reset live]) = some live := lastReset_snoc
  rw [counter, hsince, hlast, Option.elim_some, Nat.cast_zero, ite_self, sub_zero]

theorem counter_snoc (hlive : e.live? = none) (hfreed : e ≠ .freed) :
    c.counter (l ++ [e]) = c.counter l := by
  simp [counter, hlive, hfreed]

theorem due_snoc : c.Due (l ++ [e]) ↔
    e = .emptied ∧ c.voluntary = true ∧ 0 < freedInRound l ∧ c.counter l ≤ 0 := by
  constructor
  · rintro ⟨before, hl, hdue⟩
    obtain ⟨rfl, he⟩ := List.append_inj' hl rfl
    cases he
    exact ⟨rfl, hdue⟩
  · rintro ⟨rfl, hdue⟩
    exact ⟨l, rfl, hdue⟩

theorem not_due_nil : ¬ c.Due [] := by
  rintro ⟨before, hl, -⟩
  exact List.append_ne_nil_of_right_ne_nil before (by simp) hl.symm

theorem not_due_snoc (he : e ≠ .emptied) : ¬ c.Due (l ++ [e]) :=
  fun hdue => he (due_snoc.mp hdue).1

theorem inTime_nil : c.InTime [] :=
  throughout_nil

theorem InTime.snoc (hl : c.InTime l) (he : e = .pass true ↔ c.Due l) : c.InTime (l ++ [e]) :=
  throughout_snoc.mpr ⟨hl, he⟩

theorem Fits.of_snoc (hf : c.Fits (l ++ [e])) : c.Fits l :=
  fun hv => (throughout_snoc.mp (hf hv)).1

theorem Fits.emptied (hf : c.Fits (l ++ [.emptied])) (hv : c.voluntary = true) :
    -2 ^ 63 ≤ c.counter l ∧ c.counter l < 2 ^ 63 :=
  (throughout_snoc.mp (hf hv)).2 rfl

/-- Where drains begin no passes, no voluntary pass begins. -/
theorem InTime.none_voluntary (hl : c.InTime l) (hv : c.voluntary = false) : .pass true ∉ l := by
  intro hmem
  obtain ⟨before, after, h⟩ := List.append_of_mem hmem
  obtain ⟨-, -, hv', -⟩ := (hl before _ after h).mp rfl
  rw [hv] at hv'
  cases hv'

end Config

end CountedHeap
