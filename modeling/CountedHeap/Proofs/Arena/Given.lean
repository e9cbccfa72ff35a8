import Mathlib.Logic.Relation
import CountedHeap.Proofs.Arena.Books
import CountedHeap.Proofs.Cell.Akin

/-!
# What handles have been given out for

A handle may be kept by something that does not count the cell, and outlast it. As long as generations do
not come round, what it has been given out for is all that it ever names: a cell of this kind, or nothing.

* `Books.Ages`: the books after a while, as far as this is concerned.
* `Books.Given`: handles that have been given out for cells of some kinds.
* `Books.Bears`: what becomes of cells, of the names of caught variables, and of handles yet to be given out.
* `names_edit`, `names_account`, `names_enter`, `names_vacate`: cells after a change at one slot.
-/

namespace CountedHeap

namespace Books

variable {B B' B'' : Books} {K : CellKind → Prop} {r p q : Handle} {b b' : Body} {i : ℕ}

/-! ## Cells -/

theorem Names.unique (h : B.Names r b) (h' : B.Names r b') : b = b' := by
  obtain ⟨t, ht, -, hb⟩ := h
  obtain ⟨t', ht', -, hb'⟩ := h'
  obtain rfl : t = t' := Option.some.inj (ht.symm.trans ht')
  exact Option.some.inj (hb.symm.trans hb')

/-- Only one cell is in a slot. -/
theorem Names.eq_of_index (h : B.Names r b) (h' : B.Names q b') (hi : q.index = r.index) : q = r := by
  obtain ⟨t, ht, hg, -⟩ := h
  obtain ⟨t', ht', hg', -⟩ := h'
  rw [hi] at ht'
  obtain rfl : t = t' := Option.some.inj (ht.symm.trans ht')
  have hgeneration : q.generation = r.generation := hg'.symm.trans hg
  obtain ⟨i, g⟩ := r
  obtain ⟨j, g'⟩ := q
  subst hi
  subst hgeneration
  rfl

/-! ### After a change at one slot -/

theorem names_edit {f : Body → Body} (h : (B.edit i f).Names r b') :
    ∃ b, B.Names r b ∧ (b' = b ∨ r.index = i ∧ b' = f b) := by
  obtain ⟨t, ht, hg, hb⟩ := h
  by_cases hi : r.index = i
  · subst hi
    simp only [edit, Function.update_self] at ht
    obtain ⟨t', ht', rfl⟩ := Option.map_eq_some_iff.mp ht
    obtain ⟨b, hb', rfl⟩ := Option.map_eq_some_iff.mp hb
    exact ⟨b, ⟨t', ht', hg, hb'⟩, .inr ⟨rfl, rfl⟩⟩
  · exact ⟨b', ⟨t, by simpa [edit, hi] using ht, hg, hb⟩, .inl rfl⟩

theorem names_account {bytes : ℕ} (h : (B.account i bytes).Names r b) : B.Names r b := by
  obtain ⟨t, ht, hg, hb⟩ := h
  by_cases hi : r.index = i
  · subst hi
    simp only [account, Function.update_self] at ht
    obtain ⟨t', ht', rfl⟩ := Option.map_eq_some_iff.mp ht
    exact ⟨t', ht', hg, hb⟩
  · exact ⟨t, by simpa [account, hi] using ht, hg, hb⟩

theorem names_enter (h : (B.enter i b).Names r b') : B.Names r b' ∨
    r = ⟨i, UInt32.ofNat (((B.slot i).map Tenure.freed).getD 0)⟩ ∧ b' = b := by
  obtain ⟨t, ht, hg, hb⟩ := h
  by_cases hi : r.index = i
  · subst hi
    simp only [enter, Function.update_self, Option.some.injEq] at ht
    subst ht
    exact .inr ⟨by rw [hg], (Option.some.inj hb).symm⟩
  · exact .inl ⟨t, by simpa [enter, hi] using ht, hg, hb⟩

theorem names_vacate (h : (B.vacate i).Names r b) : B.Names r b := by
  by_cases hempty : ∀ t, B.slot i = some t → t.body = none
  · rwa [vacate_of_empty hempty] at h
  · push Not at hempty
    obtain ⟨t, ht, hb⟩ := hempty
    obtain ⟨b', hb⟩ := Option.ne_none_iff_exists'.mp hb
    rw [vacate_of_body ht hb] at h
    obtain ⟨t', ht', hg, hb'⟩ := h
    by_cases hi : r.index = i
    · subst hi
      simp only [Function.update_self, Option.some.injEq] at ht'
      subst ht'
      cases hb'
    · exact ⟨t', by simpa [hi] using ht', hg, hb'⟩

theorem Wanes.names (hw : B.Wanes B') (h : B'.Names r b) : B.Names r b := by
  induction hw with
  | refl => exact h
  | tail _ hlast ih =>
    obtain ⟨i, rfl⟩ := hlast
    exact ih (names_vacate h)

/-! ## Books after a while -/

/-- No slot has been freed less often, and a cell that has not been freed is of the same kind. -/
def Ages (B B' : Books) : Prop :=
  ∀ i t, B.slot i = some t → ∃ t', B'.slot i = some t' ∧ t.freed ≤ t'.freed ∧
    (t'.freed = t.freed → ∀ b, t.body = some b → ∃ b', t'.body = some b' ∧ b'.kind = b.kind)

theorem Later.ages (h : B.Later B') : B.Ages B' := by
  intro i t ht
  obtain ⟨t', ht', hlater⟩ := h.slot i t ht
  refine ⟨t', ht', hlater.freed, fun he b hb => ?_⟩
  obtain ⟨b', hb', hkind, -⟩ := hlater.same he b hb
  exact ⟨b', hb', hkind⟩

namespace Ages

theorem refl : B.Ages B :=
  Later.refl.ages

theorem trans (h₁ : B.Ages B') (h₂ : B'.Ages B'') : B.Ages B'' := by
  intro i t ht
  obtain ⟨t', ht', hle, hsame⟩ := h₁ i t ht
  obtain ⟨t'', ht'', hle', hsame'⟩ := h₂ i t' ht'
  refine ⟨t'', ht'', hle.trans hle', fun he b hb => ?_⟩
  have hfreed : t'.freed = t.freed := le_antisymm (he ▸ hle') hle
  obtain ⟨b', hb', hkind⟩ := hsame hfreed b hb
  obtain ⟨b'', hb'', hkind'⟩ := hsame' (he.trans hfreed.symm) b' hb'
  exact ⟨b'', hb'', hkind'.trans hkind⟩

/-- The tenure of one slot changes, but not how often the slot has been freed. -/
theorem update_map {f : Tenure → Tenure} {used limit : ℕ} (hfreed : ∀ t, (f t).freed = t.freed)
    (hbody : ∀ t b, t.body = some b → ∃ b', (f t).body = some b' ∧ b'.kind = b.kind) :
    B.Ages ⟨Function.update B.slot i ((B.slot i).map f), used, limit⟩ := by
  intro j t ht
  by_cases hj : j = i
  · subst hj
    exact ⟨f t, by simp [ht], (hfreed t).ge, fun _ => hbody t⟩
  · exact ⟨t, (Function.update_of_ne hj ..).trans ht, le_rfl, fun _ b hb => ⟨b, hb, rfl⟩⟩

theorem edit {f : Body → Body} (hf : ∀ b, (f b).kind = b.kind) : B.Ages (B.edit i f) :=
  update_map (fun _ => rfl) fun _ b hb => ⟨f b, by simp [hb], hf b⟩

theorem account {bytes : ℕ} : B.Ages (B.account i bytes) :=
  update_map (fun _ => rfl) fun _ b hb => ⟨b, hb, rfl⟩

theorem unwrapped (h : B.Ages B') (hu : B'.Unwrapped) : B.Unwrapped := by
  intro i t ht
  obtain ⟨t', ht', hle, -⟩ := h i t ht
  exact hle.trans_lt (hu i t' ht')

end Ages

/-! ## Handles that have been given out -/

/-- A handle has been given out for a cell of one of some kinds. -/
def Given (B : Books) (K : CellKind → Prop) (r : Handle) : Prop :=
  ∃ t, B.slot r.index = some t ∧ (r.generation.toNat < t.freed ∨
    r.generation.toNat = t.freed ∧ ∃ b, t.body = some b ∧ K b.kind)

theorem Names.given (hr : B.Names r b) (hu : B.Unwrapped) (hb : K b.kind) : B.Given K r := by
  obtain ⟨t, ht, hg, hbody⟩ := hr
  refine ⟨t, ht, .inr ⟨?_, b, hbody, hb⟩⟩
  rw [← hg, UInt32.toNat_ofNat_of_lt' (hu _ t ht)]

theorem Given.ages (hr : B.Given K r) (ha : B.Ages B') : B'.Given K r := by
  obtain ⟨t, ht, hcases⟩ := hr
  obtain ⟨t', ht', hle, hsame⟩ := ha _ t ht
  refine ⟨t', ht', ?_⟩
  rcases hcases with hlt | ⟨he, b, hb, hK⟩
  · exact .inl (hlt.trans_le hle)
  · rcases hle.lt_or_eq with hlt | heq
    · exact .inl (he ▸ hlt)
    · obtain ⟨b', hb', hkind⟩ := hsame heq.symm b hb
      exact .inr ⟨he.trans heq, b', hb', hkind ▸ hK⟩

/-- What has been given out for cells of some kinds names nothing else. -/
theorem Given.kind (hr : B.Given K r) (hu : B.Unwrapped) (hb : B.Names r b) : K b.kind := by
  obtain ⟨t, ht, hcases⟩ := hr
  obtain ⟨t', ht', hg, hbody⟩ := hb
  obtain rfl : t = t' := Option.some.inj (ht.symm.trans ht')
  have hfreed : r.generation.toNat = t.freed := by
    rw [← hg, UInt32.toNat_ofNat_of_lt' (hu _ t ht)]
  rcases hcases with hlt | ⟨-, b', hb', hK⟩
  · exact absurd hfreed hlt.ne
  · obtain rfl : b = b' := Option.some.inj (hbody.symm.trans hb')
    exact hK

/-- A vacant slot has a handle yet to be given out. -/
theorem not_given {n : ℕ} (hvacant : ∀ t, B.slot i = some t → t.body = none ∧ t.freed = n)
    (hn : n < 2 ^ 32) : ¬ B.Given K ⟨i, UInt32.ofNat n⟩ := by
  rintro ⟨t, ht, hcases⟩
  obtain ⟨hbody, rfl⟩ := hvacant t ht
  have hgeneration : (UInt32.ofNat t.freed).toNat = t.freed := UInt32.toNat_ofNat_of_lt' hn
  rcases hcases with hlt | ⟨-, b, hb, -⟩
  · exact absurd hgeneration hlt.ne
  · rw [hbody] at hb
    cases hb

/-! ## What becomes of names -/

/-- The books after a while. The handle of a new cell has not been given out before, and a caught variable
that gets another name gets that of a string. -/
structure Bears (B B' : Books) : Prop where
  ages : B.Ages B'
  fresh : B'.Unwrapped → ∀ r b', B'.Names r b' → (∃ b, B.Names r b) ∨ ∀ K, ¬ B.Given K r
  caught : B'.Unwrapped → ∀ r b', B'.Names r b' → ∀ q ∈ b'.caughtNames,
    (∃ b, B.Names r b ∧ q ∈ b.caughtNames) ∨ B'.Given (· = .string) q

namespace Bears

/-- No cell is made. -/
theorem of_names (ha : B.Ages B') (hnames : ∀ r b', B'.Names r b' → ∃ b, B.Names r b ∧
    ∀ q ∈ b'.caughtNames, q ∈ b.caughtNames ∨ (B'.Unwrapped → B'.Given (· = .string) q)) :
    B.Bears B' := by
  refine ⟨ha, fun _ r b' hr => ?_, fun hu r b' hr q hq => ?_⟩
  · obtain ⟨b, hb, -⟩ := hnames r b' hr
    exact .inl ⟨b, hb⟩
  · obtain ⟨b, hb, hcaught⟩ := hnames r b' hr
    exact (hcaught q hq).imp (fun hq => ⟨b, hb, hq⟩) fun hgiven => hgiven hu

theorem refl : B.Bears B :=
  of_names .refl fun _ b hr => ⟨b, hr, fun _ => .inl⟩

theorem trans (h₁ : B.Bears B') (h₂ : B'.Bears B'') : B.Bears B'' := by
  refine ⟨h₁.ages.trans h₂.ages, fun hu r b'' hr => ?_, fun hu r b'' hr q hq => ?_⟩
  · rcases h₂.fresh hu r b'' hr with ⟨b', hr'⟩ | hnew
    · exact h₁.fresh (h₂.ages.unwrapped hu) r b' hr'
    · exact .inr fun K hgiven => hnew K (hgiven.ages h₁.ages)
  · rcases h₂.caught hu r b'' hr q hq with ⟨b', hr', hq'⟩ | hgiven
    · exact (h₁.caught (h₂.ages.unwrapped hu) r b' hr' q hq').imp_right (·.ages h₂.ages)
    · exact .inr hgiven

theorem wanes (hw : B.Wanes B') : B.Bears B' :=
  of_names hw.later.ages fun _ b hr => ⟨b, hw.names hr, fun _ => .inl⟩

theorem account {bytes : ℕ} : B.Bears (B.account i bytes) :=
  of_names .account fun _ b hr => ⟨b, names_account hr, fun _ => .inl⟩

theorem edit {f : Body → Body} (hkind : ∀ b, (f b).kind = b.kind)
    (hcaught : ∀ b, ∀ q ∈ (f b).caughtNames,
      q ∈ b.caughtNames ∨ (B.Unwrapped → B.Given (· = .string) q)) : B.Bears (B.edit i f) := by
  refine of_names (.edit hkind) fun r b' hr => ?_
  obtain ⟨b, hb, rfl | ⟨-, rfl⟩⟩ := names_edit hr
  · exact ⟨b', hb, fun _ => .inl⟩
  · exact ⟨b, hb, fun q hq => (hcaught b q hq).imp_right fun hgiven hu =>
      (hgiven (Ages.unwrapped (.edit hkind) hu)).ages (.edit hkind)⟩

/-- A new cell catches nothing. -/
theorem enter (hvacant : ∀ t, B.slot i = some t → t.body = none) (hb : b.caughtNames = []) :
    B.Bears (B.enter i b) := by
  refine ⟨(Later.enter hvacant).ages, fun hu r b' hr => ?_, fun _ r b' hr q hq => ?_⟩
  · rcases names_enter hr with hold | ⟨rfl, -⟩
    · exact .inl ⟨b', hold⟩
    · refine .inr fun K => not_given (fun t ht => ⟨hvacant t ht, ?_⟩) ?_
      · rw [ht]
        rfl
      · exact hu _ _ (Function.update_self ..)
  · rcases names_enter hr with hold | ⟨-, rfl⟩
    · exact .inl ⟨b', hold, hq⟩
    · rw [hb] at hq
      cases hq

end Bears

end Books

end CountedHeap
