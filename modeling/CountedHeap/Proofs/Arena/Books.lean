import CountedHeap.Proofs.Arena.Sound

/-!
# The books of an arena

Besides counts and lists an arena keeps books: how often each slot has been freed, and how many bytes
are accounted for it and for all slots together. `Arena.books` is the arena as far as these go, with
the bodies of the cells. Lists and marks change without it, and there are four ways to change it.

* `Arena.books`: the books.
* `books_unlink`, `books_modifyAt_of_eq`, …: changes that leave them alone.
* `books_modifyBody`, `books_release`, `books_account`, `books_place`: changes at one slot.
* `Books.Later`: what one state of the books says about all later ones.
-/

namespace CountedHeap

/-- How often a slot has been freed, the bytes accounted for it, and the body of the cell in it. -/
structure Tenure where
  freed : ℕ
  bytes : ℕ
  body : Option Body

/-- The tenures of all slots, the bytes accounted for them, and the limit of these. -/
structure Books where
  slot : ℕ → Option Tenure
  used : ℕ
  limit : ℕ

namespace Books

variable (B : Books) (i : ℕ)

/-- The body of the cell in a slot changes. -/
def edit (f : Body → Body) : Books :=
  { B with slot := Function.update B.slot i ((B.slot i).map fun t => { t with body := t.body.map f }) }

/-- A slot is emptied. -/
def vacate : Books :=
  match B.slot i with
  | some ⟨n, bytes, some _⟩ =>
    { B with slot := Function.update B.slot i (some ⟨n + 1, 0, none⟩), used := B.used - bytes }
  | _ => B

/-- Another number of bytes is accounted for a slot. -/
def account (bytes : ℕ) : Books :=
  { B with
    slot := Function.update B.slot i ((B.slot i).map fun t => { t with bytes := bytes })
    used := B.used - ((B.slot i).map Tenure.bytes).getD 0 + bytes }

/-- A new cell is put into a slot. -/
def enter (b : Body) : Books :=
  { B with
    slot := Function.update B.slot i (some ⟨((B.slot i).map Tenure.freed).getD 0, b.size, some b⟩)
    used := B.used + b.size }

variable {B i} in
theorem vacate_of_body {t : Tenure} {b : Body} (h : B.slot i = some t) (hb : t.body = some b) :
    B.vacate i = { B with
      slot := Function.update B.slot i (some ⟨t.freed + 1, 0, none⟩), used := B.used - t.bytes } := by
  obtain ⟨n, bytes, body⟩ := t
  subst hb
  unfold vacate
  rw [h]

variable {B i} in
theorem vacate_of_empty (h : ∀ t, B.slot i = some t → t.body = none) : B.vacate i = B := by
  unfold vacate
  split
  · rename_i hs
    cases h _ hs
  · rfl

/-- A handle names a cell with a body. -/
def Names (r : Handle) (b : Body) : Prop :=
  ∃ t, B.slot r.index = some t ∧ UInt32.ofNat t.freed = r.generation ∧ t.body = some b

end Books

namespace Arena

variable {a a' : Arena} {i j n : ℕ} {r : Handle} {b : Body} {chain : Chain}

/-- The books of an arena. -/
def books (a : Arena) : Books where
  slot i := (a.slots[i]?).map fun s => ⟨s.freed, s.bytes, s.cell.map (·.body)⟩
  used := a.usedBytes
  limit := a.maxBytes

theorem books_names : a.books.Names r b ↔ ∃ n, a.Holds r n b := by
  simp only [Books.Names, books, Holds, core]
  cases hs : a.slots[r.index]? with
  | none => simp
  | some s => cases hc : s.cell <;> simp [ArenaSlot.generation, hc, and_comm]

theorem Holds.names (h : a.Holds r n b) : a.books.Names r b :=
  books_names.mpr ⟨n, h⟩

theorem isLive_iff_names : a.isLive r = true ↔ ∃ b, a.books.Names r b := by
  rw [isLive_iff]
  simp only [books_names]
  exact exists_comm

/-- A slot is there and empty, or not there at all. -/
theorem vacant_iff_books : a.Vacant i ↔ ∀ t, a.books.slot i = some t → t.body = none := by
  unfold Vacant books core
  rcases hs : a.slots[i]? with - | ⟨n, l, m, - | c⟩ <;> simp [hs]

theorem books_handleAt {t : Tenure} (h : a.books.slot i = some t) :
    a.handleAt i = ⟨i, UInt32.ofNat t.freed⟩ := by
  unfold books at h
  unfold handleAt
  obtain ⟨s, hs, rfl⟩ := Option.map_eq_some_iff.mp h
  rw [hs]
  rfl

/-! ## Changes that leave the books alone -/

/-- Slots that agree in everything that is booked. -/
theorem books_congr {f : ArenaSlot → ArenaSlot} (h : a'.slots = a.slots.modify i f)
    (hf : ∀ s, (f s).freed = s.freed ∧ (f s).bytes = s.bytes ∧
      (f s).cell.map (·.body) = s.cell.map (·.body))
    (hu : a'.usedBytes = a.usedBytes) (hm : a'.maxBytes = a.maxBytes) : a'.books = a.books := by
  unfold books
  rw [h, hu, hm]
  congr 1
  funext j
  rw [Array.getElem?_modify]
  split
  · cases a.slots[j]? <;> simp [hf]
  · rfl

theorem books_modifyAt_of_eq {f : Cell → Cell} (hf : ∀ c, (f c).body = c.body) :
    (a.modifyAt i f).books = a.books :=
  books_congr (f := fun s => ⟨s.freed, s.links, s.bytes, s.cell.map f⟩) rfl
    (fun s => ⟨rfl, rfl, by cases s.cell <;> simp [hf]⟩) rfl rfl

@[simp] theorem books_modifyMarks (f : Marks → Marks) :
    (a.modifyAt i (·.modifyMarks f)).books = a.books :=
  books_modifyAt_of_eq fun _ => rfl

theorem books_modifyAll_of_eq {f : Cell → Cell} (hf : ∀ c, (f c).body = c.body) :
    (a.modifyAll f).books = a.books := by
  unfold books modifyAll
  congr 1
  funext j
  rw [Array.getElem?_map, Option.map_map]
  congr 1
  funext s
  cases hc : s.cell <;> simp [hc, hf]

@[simp] theorem books_modifyLinks (f : Links → Links) : (a.modifyLinks i f).books = a.books :=
  books_congr (f := fun s => ⟨s.freed, f s.links, s.bytes, s.cell⟩) rfl (fun _ => ⟨rfl, rfl, rfl⟩) rfl rfl

@[simp] theorem books_setEnds (e : Ends) : (a.setEnds chain e).books = a.books := by
  cases chain <;> rfl

@[simp] theorem books_linkHead : (a.linkHead chain i).books = a.books := by
  unfold linkHead
  dsimp only
  split <;> simp

@[simp] theorem books_linkTail : (a.linkTail chain i).books = a.books := by
  unfold linkTail
  dsimp only
  split <;> simp

@[simp] theorem books_unlink : (a.unlink i).books = a.books := by
  unfold unlink
  dsimp only
  split
  · rfl
  · split <;> split <;> simp

/-! ## Changes at one slot -/

theorem books_modifyBody (f : Body → Body) :
    (a.modifyAt i (·.modifyBody f)).books = a.books.edit i f := by
  unfold books modifyAt Books.edit
  congr 1
  funext j
  rw [Array.getElem?_modify]
  by_cases hij : i = j
  · subst hij
    simp only [ite_true, Function.update_self, Option.map_map]
    congr 1
    funext s
    cases hc : s.cell <;> simp [hc, Cell.modifyBody]
  · rw [if_neg hij, Function.update_of_ne (Ne.symm hij)]

theorem books_release : (a.release i).books = a.books.vacate i := by
  rcases hs : a.slots[i]? with - | ⟨n, l, m, - | c⟩
  · have hsame : a.release i = a := by simp [release, hs]
    rw [hsame, Books.vacate_of_empty fun t ht => by simp [books, hs] at ht]
  · have hsame : a.release i = a := by simp [release, hs]
    rw [hsame, Books.vacate_of_empty fun t ht => by
      simp only [books, hs, Option.map_some, Option.map_none, Option.some.injEq] at ht
      rw [← ht]]
  · have hslot : a.books.slot i = some ⟨n, m, some c.body⟩ := by simp [books, hs]
    rw [Books.vacate_of_body hslot rfl]
    unfold release books
    rw [hs]
    congr 1
    funext j
    rw [Array.getElem?_setIfInBounds]
    by_cases hij : i = j
    · subst hij
      simp [(Array.getElem?_eq_some_iff.mp hs).1]
    · rw [if_neg hij, Function.update_of_ne (Ne.symm hij)]

theorem books_account (bytes : ℕ) : (a.account i bytes).books = a.books.account i bytes := by
  unfold account Books.account books bytesAt
  congr 1
  · funext j
    rw [Array.getElem?_modify]
    by_cases hij : i = j
    · subst hij
      simp [Function.comp_def]
    · rw [if_neg hij, Function.update_of_ne (Ne.symm hij)]
  · simp [Function.comp_def]

theorem books_fill (h : a.FreeOk) : (a.fill b).books = a.books.enter a.nextSlot b := by
  unfold fill nextSlot Books.enter books
  cases hf : a.free with
  | nil =>
    dsimp only [List.head?_nil, Option.getD_none]
    congr 1
    funext j
    rw [Array.getElem?_push]
    by_cases hj : j = a.slots.size
    · subst hj
      simp [Cell.new]
    · rw [if_neg hj, Function.update_of_ne hj]
  | cons i rest =>
    obtain ⟨s, hs, -⟩ := (h.2 i).mp (by simp [hf])
    dsimp only [List.head?_cons, Option.getD_some]
    congr 1
    funext j
    rw [Array.getElem?_modify]
    by_cases hj : i = j
    · subst hj
      simp [hs, Cell.new]
    · rw [if_neg hj, Function.update_of_ne (Ne.symm hj)]

theorem books_place (h : a.FreeOk) : (a.place b).1.books = a.books.enter a.nextSlot b := by
  rw [place_eq, ← books_fill h]
  dsimp only
  split <;> simp

/-- A new cell has the generation of its slot. -/
theorem place_snd (h : a.FreeOk) : (a.place b).2 =
    ⟨a.nextSlot, UInt32.ofNat (((a.books.slot a.nextSlot).map Tenure.freed).getD 0)⟩ := by
  rw [place_eq]
  refine books_handleAt (t := ⟨_, b.size, some b⟩) ?_
  rw [books_fill h]
  exact Function.update_self ..

end Arena

/-! ## Time -/

/-- A slot at a later time. If it has not been freed meanwhile, the cell in it is the same cell: of the
same kind, with the same text if it is a string, and accounted as before if it is composite. -/
structure Tenure.Later (t t' : Tenure) : Prop where
  freed : t.freed ≤ t'.freed
  same : t'.freed = t.freed → ∀ b, t.body = some b → ∃ b', t'.body = some b' ∧ b'.kind = b.kind ∧
    b'.text? = b.text? ∧ (b.isComposite = true → t.freed < 2 ^ 32 → t'.bytes = t.bytes)

theorem Tenure.Later.refl {t : Tenure} : t.Later t :=
  ⟨le_rfl, fun _ b hb => ⟨b, hb, rfl, rfl, fun _ _ => rfl⟩⟩

theorem Tenure.Later.trans {t t' t'' : Tenure} (h₁ : t.Later t') (h₂ : t'.Later t'') :
    t.Later t'' := by
  refine ⟨h₁.freed.trans h₂.freed, fun he b hb => ?_⟩
  have he₁ : t'.freed = t.freed := le_antisymm (he ▸ h₂.freed) h₁.freed
  have he₂ : t''.freed = t'.freed := he.trans he₁.symm
  obtain ⟨b', hb', hkind, htext, hbytes⟩ := h₁.same he₁ b hb
  obtain ⟨b'', hb'', hkind', htext', hbytes'⟩ := h₂.same he₂ b' hb'
  refine ⟨b'', hb'', hkind'.trans hkind, htext'.trans htext, fun hc hf => ?_⟩
  have hc' : b'.isComposite = true := by
    unfold Body.isComposite
    rwa [hkind]
  exact (hbytes' hc' (he₁ ▸ hf)).trans (hbytes hc hf)

namespace Books

variable {B B' B'' : Books} {i j n : ℕ} {b : Body}

/-- The books at a later time. -/
structure Later (B B' : Books) : Prop where
  slot : ∀ i t, B.slot i = some t → ∃ t', B'.slot i = some t' ∧ t.Later t'
  limit : B'.limit = B.limit

namespace Later

theorem refl : B.Later B :=
  ⟨fun _ t ht => ⟨t, ht, .refl⟩, rfl⟩

theorem trans (h₁ : B.Later B') (h₂ : B'.Later B'') : B.Later B'' := by
  refine ⟨fun i t ht => ?_, h₂.limit.trans h₁.limit⟩
  obtain ⟨t', ht', hlater⟩ := h₁.slot i t ht
  obtain ⟨t'', ht'', hlater'⟩ := h₂.slot i t' ht'
  exact ⟨t'', ht'', hlater.trans hlater'⟩

/-- One slot changes. -/
theorem update {t' : Tenure} {used : ℕ} (h : ∀ t, B.slot i = some t → t.Later t') :
    B.Later ⟨Function.update B.slot i (some t'), used, B.limit⟩ := by
  refine ⟨fun j t ht => ?_, rfl⟩
  by_cases hj : j = i
  · subst hj
    exact ⟨t', Function.update_self .., h t ht⟩
  · exact ⟨t, (Function.update_of_ne hj ..).trans ht, .refl⟩

/-- The tenure of one slot changes, if it has one. -/
theorem update_map {f : Tenure → Tenure} {used : ℕ} (h : ∀ t, B.slot i = some t → t.Later (f t)) :
    B.Later ⟨Function.update B.slot i ((B.slot i).map f), used, B.limit⟩ := by
  cases hs : B.slot i with
  | none =>
    rw [Option.map_none, ← hs, Function.update_eq_self]
    exact ⟨fun _ t ht => ⟨t, ht, .refl⟩, rfl⟩
  | some t =>
    refine update fun t' ht' => ?_
    rw [hs] at ht'
    cases ht'
    exact h t hs

/-- A cell goes on to be the same when its contents change. -/
theorem edit {f : Body → Body} (hkind : ∀ b, (f b).kind = b.kind)
    (htext : ∀ b, (f b).text? = b.text?) : B.Later (B.edit i f) :=
  update_map fun t _ => ⟨le_rfl, fun _ b hb =>
    ⟨f b, by simp [hb], hkind b, htext b, fun _ _ => rfl⟩⟩

theorem vacate : B.Later (B.vacate i) := by
  by_cases h : ∀ t, B.slot i = some t → t.body = none
  · rw [vacate_of_empty h]
    exact refl
  · push Not at h
    obtain ⟨t, ht, hb⟩ := h
    obtain ⟨b, hb⟩ := Option.ne_none_iff_exists'.mp hb
    rw [vacate_of_body ht hb]
    refine update fun t' ht' => ?_
    obtain rfl : t = t' := Option.some.inj (ht.symm.trans ht')
    exact ⟨Nat.le_succ _, fun he => absurd he (Nat.succ_ne_self _)⟩

/-- Only the size of a leaf is accounted anew. -/
theorem account {bytes : ℕ} (h : ∀ t b, B.slot i = some t → t.freed < 2 ^ 32 → t.body = some b →
    b.isComposite = false) : B.Later (B.account i bytes) := by
  refine update_map fun t ht => ⟨le_rfl, fun _ b hb => ⟨b, hb, rfl, rfl, fun hc hf => ?_⟩⟩
  rw [h t b ht hf hb] at hc
  cases hc

/-- A new cell replaces none. -/
theorem enter (h : ∀ t, B.slot i = some t → t.body = none) : B.Later (B.enter i b) := by
  refine update fun t ht => ⟨?_, fun _ c hc => ?_⟩
  · rw [ht]
    rfl
  · rw [h t ht] at hc
    cases hc

end Later

/-! ### Generations -/

/-- No slot has been freed often enough for its generation to come round. -/
def Unwrapped (B : Books) : Prop :=
  ∀ i t, B.slot i = some t → t.freed < 2 ^ 32

theorem Unwrapped.earlier (h : B'.Unwrapped) (hl : B.Later B') : B.Unwrapped := by
  intro i t ht
  obtain ⟨t', ht', hlater⟩ := hl.slot i t ht
  exact hlater.freed.trans_lt (h i t' ht')

/-- Below the bound, the number can be read off the generation. -/
theorem freed_eq_of_generation {m n : ℕ} (hm : m < 2 ^ 32) (hn : n < 2 ^ 32)
    (h : UInt32.ofNat m = UInt32.ofNat n) : m = n := by
  have hmod : (UInt32.ofNat m).toNat = (UInt32.ofNat n).toNat := congrArg UInt32.toNat h
  rwa [UInt32.toNat_ofNat_of_lt' hm, UInt32.toNat_ofNat_of_lt' hn] at hmod

namespace Later

variable {r : Handle} {b' : Body} {t' : Tenure}

/-- A handle names one cell only, as long as its generation has not come round. -/
theorem same (hl : B.Later B') (hr : B.Names r b) (ht' : B'.slot r.index = some t')
    (hg : UInt32.ofNat t'.freed = r.generation) (hf : t'.freed < 2 ^ 32) :
    ∃ t b', B.slot r.index = some t ∧ t'.freed = t.freed ∧ t'.body = some b' ∧
      b'.kind = b.kind ∧ b'.text? = b.text? := by
  obtain ⟨t, ht, hg₀, hb⟩ := hr
  obtain ⟨t'', ht'', hlater⟩ := hl.slot r.index t ht
  obtain rfl : t' = t'' := Option.some.inj (ht'.symm.trans ht'')
  have hfreed : t'.freed = t.freed :=
    freed_eq_of_generation hf (hlater.freed.trans_lt hf) (hg.trans hg₀.symm)
  obtain ⟨b', hb', hkind, htext, -⟩ := hlater.same hfreed b hb
  exact ⟨t, b', ht, hfreed, hb', hkind, htext⟩

end Later

/-! ### Slots that are emptied -/

/-- One slot after the other is emptied. -/
abbrev Wanes : Books → Books → Prop :=
  Relation.ReflTransGen fun B B' => ∃ i, B' = B.vacate i

theorem Wanes.of_eq (h : B' = B) : B.Wanes B' :=
  h ▸ .refl

theorem vacate_of_ne (h : j ≠ i) : (B.vacate i).slot j = B.slot j := by
  unfold vacate
  split
  · exact Function.update_of_ne h ..
  · rfl

/-- A slot is as it was, or it has been emptied, once. -/
theorem Wanes.slot (h : B.Wanes B') (i : ℕ) : B'.slot i = B.slot i ∨
    ∃ t b, B.slot i = some t ∧ t.body = some b ∧ B'.slot i = some ⟨t.freed + 1, 0, none⟩ := by
  induction h with
  | refl => exact .inl rfl
  | @tail B₁ _ _ hlast ih =>
    obtain ⟨j, rfl⟩ := hlast
    by_cases hj : i = j
    · subst hj
      rcases ih with hsame | ⟨t, b, ht, hb, hempty⟩
      · by_cases hvacant : ∀ t, B₁.slot i = some t → t.body = none
        · rw [vacate_of_empty hvacant]
          exact .inl hsame
        · push Not at hvacant
          obtain ⟨t, ht, hb⟩ := hvacant
          obtain ⟨b, hb⟩ := Option.ne_none_iff_exists'.mp hb
          rw [vacate_of_body ht hb]
          exact .inr ⟨t, b, hsame.symm.trans ht, hb, Function.update_self ..⟩
      · rw [vacate_of_empty fun t' ht' => by rw [Option.some.inj (ht'.symm.trans hempty)]]
        exact .inr ⟨t, b, ht, hb, hempty⟩
    · rwa [vacate_of_ne hj]

theorem Wanes.later (h : B.Wanes B') : B.Later B' := by
  induction h with
  | refl => exact .refl
  | tail _ hlast ih =>
    obtain ⟨i, rfl⟩ := hlast
    exact ih.trans .vacate

end Books

end CountedHeap
