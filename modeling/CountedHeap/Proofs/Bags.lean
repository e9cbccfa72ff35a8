import Mathlib.Data.Multiset.Basic
import Mathlib.Data.Multiset.AddSub
import Mathlib.Data.Multiset.Count
import Mathlib.Tactic

/-!
# Bags of what a list holds

The references that a list of things holds are a bag: order does not matter, repetition does. These
are the laws for changing one element.

* `coe_flatMap_set`, `coe_flatMap_modify`: one element is replaced.
* `exchange_left`, `exchange_right`: what a change of a part means for the whole.
-/

namespace CountedHeap

variable {α β : Type} (f : α → List β)

theorem coe_flatMap_append (l m : List α) :
    ((l ++ m).flatMap f : Multiset β) = (l.flatMap f : Multiset β) + (m.flatMap f : Multiset β) := by
  rw [List.flatMap_append, ← Multiset.coe_add]

theorem coe_flatMap_concat (l : List α) (x : α) :
    ((l ++ [x]).flatMap f : Multiset β) = (l.flatMap f : Multiset β) + (f x : Multiset β) := by
  rw [coe_flatMap_append, List.flatMap_singleton]

/-- What an element held leaves the bag, and what its successor holds enters it. -/
theorem coe_flatMap_set {l : List α} {i : ℕ} {x : α} (y : α) (h : l[i]? = some x) :
    ((l.set i y).flatMap f : Multiset β) + (f x : Multiset β) =
      (l.flatMap f : Multiset β) + (f y : Multiset β) := by
  obtain ⟨hi, hx⟩ := List.getElem?_eq_some_iff.mp h
  have e : l = l.take i ++ x :: l.drop (i + 1) := by
    rw [← hx, List.getElem_cons_drop, List.take_append_drop]
  have e' : l.set i y = l.take i ++ y :: l.drop (i + 1) := List.set_eq_take_append_cons_drop.trans
    (by rw [if_pos hi])
  rw [e']
  conv_rhs => rw [e]
  simp only [List.flatMap_append, List.flatMap_cons, ← Multiset.coe_add]
  abel

theorem coe_flatMap_modify {l : List α} {i : ℕ} {x : α} (g : α → α) (h : l[i]? = some x) :
    ((l.modify i g).flatMap f : Multiset β) + (f x : Multiset β) =
      (l.flatMap f : Multiset β) + (f (g x) : Multiset β) := by
  have e : l.modify i g = l.set i (g x) := by
    apply List.ext_getElem?
    intro j
    rw [List.getElem?_modify, List.getElem?_set]
    obtain ⟨hi, hx⟩ := List.getElem?_eq_some_iff.mp h
    by_cases hj : i = j
    · subst hj
      simp [hi, hx]
    · simp [hj]
  rw [e, coe_flatMap_set f _ h]

theorem coe_cons_eq (x : β) (l : List β) : ((x :: l : List β) : Multiset β) = (l ++ [x] : List β) :=
  Multiset.coe_eq_coe.mpr (List.perm_append_singleton x l).symm

/-- A list in a bag, taken apart at its head. -/
theorem add_coe_cons (s : Multiset β) (x : β) (l : List β) :
    s + ((x :: l : List β) : Multiset β) = s + l + {x} := by
  rw [coe_cons_eq, ← Multiset.coe_add, Multiset.coe_singleton, add_assoc]

/-- An array that is not empty, cut before its last element. -/
theorem toList_eq_pop_concat {xs : Array α} {x : α} (h : xs.back? = some x) :
    xs.toList = xs.pop.toList ++ [x] := by
  rw [Array.toList_pop]
  refine (List.dropLast_append_getLast? x ?_).symm
  rw [Array.getLast?_toList, h]
  rfl

theorem coe_flatMap_reverse (l : List α) :
    (l.reverse.flatMap f : Multiset β) = (l.flatMap f : Multiset β) :=
  Multiset.coe_eq_coe.mpr (l.reverse_perm.flatMap_right f)

/-! ## Exchanges

A change of a part of a bag gives some elements up and takes some in. So does the whole. -/

variable {s t given taken : Multiset β}

theorem exchange_right (u : Multiset β) (h : t + given = s + taken) :
    t + u + given = s + u + taken := by
  rw [add_right_comm, h, add_right_comm]

theorem exchange_left (u : Multiset β) (h : t + given = s + taken) :
    u + t + given = u + s + taken := by
  rw [add_assoc, h, add_assoc]

end CountedHeap
