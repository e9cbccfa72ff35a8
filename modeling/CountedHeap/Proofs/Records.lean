import Mathlib.Data.List.Basic

/-!
# Records

A record is a list of entries, each of which has been made after those before it.

* `Throughout`: every entry is right, given those before it.
* `throughout_snoc`: one more entry is made.
* `throughout_iff_take`: whether all entries are right can be decided.
-/

namespace CountedHeap

variable {ε : Type} {P : List ε → ε → Prop} {l : List ε} {e : ε}

/-- Every entry of a record is right, given the entries before it. -/
def Throughout (P : List ε → ε → Prop) (l : List ε) : Prop :=
  ∀ before e after, l = before ++ e :: after → P before e

theorem throughout_nil : Throughout P [] := by
  intro before e after h
  simp at h

theorem throughout_snoc : Throughout P (l ++ [e]) ↔ Throughout P l ∧ P l e := by
  constructor
  · exact fun hl => ⟨fun before e' after h => hl before e' (after ++ [e]) (by simp [h]), hl l e [] rfl⟩
  · rintro ⟨hl, he⟩ before e' after h
    rcases List.eq_nil_or_concat after with rfl | ⟨init, last, rfl⟩
    · obtain ⟨rfl, hlast⟩ := List.append_inj' h rfl
      cases hlast
      exact he
    · have h' : l ++ [e] = (before ++ e' :: init) ++ [last] := by simpa using h
      exact hl before e' init (List.append_inj' h' rfl).1

theorem throughout_iff_take : Throughout P l ↔ ∀ k (hk : k < l.length), P (l.take k) l[k] := by
  constructor
  · exact fun hl k hk => hl _ _ (l.drop (k + 1)) (by rw [List.getElem_cons_drop, List.take_append_drop])
  · rintro hl before e after rfl
    simpa using hl before.length (by simp)

instance [∀ l e, Decidable (P l e)] : Decidable (Throughout P l) :=
  decidable_of_iff _ throughout_iff_take.symm

end CountedHeap
