import Mathlib.Algebra.BigOperators.Group.Finset.Basic
import Mathlib.Tactic
import CountedHeap.Arena.Basic

/-!
# Slots as functions of their number

Counting looks at three things in a slot: its generation, and the count and the body of its cell.
`Arena.core` is the arena as far as these go. Every change of an arena either leaves `core` alone
(links, marks, accounted bytes) or changes it at one slot.

* `Arena.Holds`: a handle names a cell with a count and a body.
* `core_modifyAt`, `core_release`, `core_place`: the changes at one slot.
* `core_linkHead`, `core_linkTail`, `core_unlink`, `core_account`: changes that counting does not see.
-/

namespace CountedHeap.Arena

variable {a : Arena} {r : Handle} {i j n : ℕ} {b : Body}

/-- The generation of a slot, and the count and the body of the cell in it. -/
def core (a : Arena) (i : ℕ) : Option (UInt32 × Option (ℕ × Body)) :=
  (a.slots[i]?).map fun s => (s.generation, s.cell.map fun c => (c.header.count, c.body))

/-- A handle names a cell with a count and a body. -/
def Holds (a : Arena) (r : Handle) (n : ℕ) (b : Body) : Prop :=
  a.core r.index = some (r.generation, some (n, b))

theorem get?_eq_some_iff {c : Cell} : a.get? r = some c ↔
    ∃ s, a.slots[r.index]? = some s ∧ s.generation = r.generation ∧ s.cell = some c := by
  unfold get?
  cases hs : a.slots[r.index]? with
  | none => simp
  | some s =>
    by_cases hg : s.generation = r.generation <;> simp [hg]

theorem holds_iff : a.Holds r n b ↔ ∃ c, a.get? r = some c ∧ c.header.count = n ∧ c.body = b := by
  simp only [get?_eq_some_iff, Holds, core]
  cases hs : a.slots[r.index]? with
  | none => simp
  | some s =>
    cases hc : s.cell with
    | none => simp [hc]
    | some c =>
      simp only [Option.map_some, hc, Option.some.injEq, Prod.mk.injEq]
      constructor
      · rintro ⟨hg, hn, hb⟩
        exact ⟨c, ⟨s, rfl, hg, hc⟩, hn, hb⟩
      · rintro ⟨c', ⟨s', rfl, hg, hc'⟩, hn, hb⟩
        cases hc.symm.trans hc'
        exact ⟨hg, hn, hb⟩

theorem holds_of_get? {c : Cell} (h : a.get? r = some c) : a.Holds r c.header.count c.body :=
  holds_iff.mpr ⟨c, h, rfl, rfl⟩

theorem Holds.get? (h : a.Holds r n b) :
    ∃ c, a.get? r = some c ∧ c.header.count = n ∧ c.body = b :=
  holds_iff.mp h

theorem Holds.unique {m : ℕ} {b' : Body} (h : a.Holds r n b) (h' : a.Holds r m b') :
    n = m ∧ b = b' := by
  unfold Holds at h h'
  rw [h] at h'
  simpa using h'

theorem isLive_iff : a.isLive r = true ↔ ∃ n b, a.Holds r n b := by
  simp only [isLive, Option.isSome_iff_exists, holds_iff]
  constructor
  · rintro ⟨c, hc⟩
    exact ⟨_, _, c, hc, rfl, rfl⟩
  · rintro ⟨_, _, c, hc, -, -⟩
    exact ⟨c, hc⟩

theorem Holds.isLive (h : a.Holds r n b) : a.isLive r = true :=
  isLive_iff.mpr ⟨n, b, h⟩

theorem get?_eq_none_iff : a.get? r = none ↔ a.isLive r = false := by
  simp [Arena.isLive]

theorem handleAt_of_core {g : UInt32} {x : Option (ℕ × Body)} (h : a.core i = some (g, x)) :
    a.handleAt i = ⟨i, g⟩ := by
  unfold core at h
  unfold handleAt
  cases hs : a.slots[i]? with
  | none => simp [hs] at h
  | some s =>
    rw [hs] at h
    simp only [Option.map_some, Option.some.injEq, Prod.mk.injEq] at h
    simp [h.1]

theorem handleAt_congr {a' : Arena} (h : a'.core = a.core) : a'.handleAt = a.handleAt := by
  funext i
  have hcore := congrFun h i
  unfold core at hcore
  unfold handleAt
  cases hs : a.slots[i]? <;> cases hs' : a'.slots[i]? <;> simp_all

theorem Holds.handleAt (h : a.Holds r n b) : a.handleAt r.index = r :=
  handleAt_of_core h

theorem Holds.eq_of_index {s : Handle} {m : ℕ} {b' : Body} (h : a.Holds r n b)
    (h' : a.Holds s m b') (he : r.index = s.index) : r = s := by
  rw [← h.handleAt, ← h'.handleAt, he]

theorem holds_handleAt_iff : a.Holds (a.handleAt i) n b ↔ ∃ g, a.core i = some (g, some (n, b)) := by
  constructor
  · intro h
    exact ⟨_, h⟩
  · rintro ⟨g, h⟩
    rw [handleAt_of_core h]
    exact h

theorem cellAt?_eq_some {c : Cell} (h : a.cellAt? i = some c) :
    a.get? (a.handleAt i) = some c := by
  unfold cellAt? at h
  cases hs : a.slots[i]? with
  | none => simp [hs] at h
  | some s =>
    rw [hs] at h
    simp only [Option.bind_some] at h
    exact get?_eq_some_iff.mpr ⟨s, by simpa [handleAt], by simp [handleAt, hs], h⟩

theorem get?_handleAt : a.get? (a.handleAt i) = a.cellAt? i := by
  cases h : a.cellAt? i with
  | some c => exact cellAt?_eq_some h
  | none =>
    unfold cellAt? at h
    unfold Arena.get? Arena.handleAt
    cases hs : a.slots[i]? with
    | none => simp
    | some s =>
      rw [hs] at h
      simpa using h

theorem cellAt?_of_get? {c : Cell} (h : a.get? r = some c) : a.cellAt? r.index = some c := by
  obtain ⟨s, hs, -, hc⟩ := get?_eq_some_iff.mp h
  simp [cellAt?, hs, hc]

theorem core_eq_none (h : a.slots.size ≤ i) : a.core i = none := by
  simp [core, h]

theorem lt_size_of_core {x : UInt32 × Option (ℕ × Body)} (h : a.core i = some x) :
    i < a.slots.size := by
  by_contra hi
  rw [core_eq_none (by omega)] at h
  cases h

/-- Whether the cell in a slot is composite depends on `core` alone. -/
theorem cellAt?_isComposite_iff : (∃ c, a.cellAt? i = some c ∧ c.isComposite = true) ↔
    ∃ g m b, a.core i = some (g, some (m, b)) ∧ b.isComposite = true := by
  unfold cellAt? core
  cases hs : a.slots[i]? with
  | none => simp
  | some s => cases hc : s.cell <;> simp [hc, Cell.isComposite]

/-! ## Changes at one slot -/

theorem get?_modifyAt {f : Cell → Cell} :
    (a.modifyAt i f).get? r = if r.index = i then (a.get? r).map f else a.get? r := by
  unfold get? modifyAt
  dsimp only
  rw [Array.getElem?_modify]
  by_cases hi : i = r.index
  · rw [if_pos hi, if_pos hi.symm]
    cases hs : a.slots[r.index]? with
    | none => rfl
    | some s => by_cases hg : s.generation = r.generation <;> simp [hg]
  · rw [if_neg hi, if_neg (Ne.symm hi)]

theorem cellAt?_modifyAt {f : Cell → Cell} :
    (a.modifyAt i f).cellAt? j = if j = i then (a.cellAt? j).map f else a.cellAt? j := by
  unfold cellAt? modifyAt
  dsimp only
  rw [Array.getElem?_modify]
  by_cases hi : i = j
  · rw [if_pos hi, if_pos hi.symm]
    cases hs : a.slots[j]? <;> simp
  · rw [if_neg hi, if_neg (Ne.symm hi)]

@[simp] theorem isLive_modifyAt {f : Cell → Cell} : (a.modifyAt i f).isLive r = a.isLive r := by
  unfold isLive
  rw [get?_modifyAt]
  split <;> simp

/-- Changes of cells that do not interfere may be swapped. -/
theorem modifyAt_comm {f g : Cell → Cell} (h : ∀ c, f (g c) = g (f c)) :
    (a.modifyAt i f).modifyAt j g = (a.modifyAt j g).modifyAt i f := by
  unfold modifyAt
  congr 1
  apply Array.ext_getElem?
  intro k
  simp only [Array.getElem?_modify]
  by_cases hi : i = k <;> by_cases hj : j = k <;> simp [hi, hj, Function.comp_def, h]

/-- What a change does to the cell that is there matters. -/
theorem modifyAt_congr {f g : Cell → Cell} (h : ∀ c, a.cellAt? i = some c → f c = g c) :
    a.modifyAt i f = a.modifyAt i g := by
  unfold modifyAt
  congr 1
  apply Array.ext_getElem?
  intro k
  simp only [Array.getElem?_modify]
  by_cases hi : i = k
  · subst hi
    rw [if_pos rfl, if_pos rfl]
    refine Option.map_congr fun s hs => ?_
    cases hc : s.cell with
    | none => rfl
    | some c => simp [h c (by simp [cellAt?, hs, hc])]
  · rw [if_neg hi, if_neg hi]

theorem core_modifyAt {f : Cell → Cell} {F : ℕ × Body → ℕ × Body}
    (hF : ∀ c, ((f c).header.count, (f c).body) = F (c.header.count, c.body)) :
    (a.modifyAt i f).core =
      Function.update a.core i ((a.core i).map fun x => (x.1, x.2.map F)) := by
  funext j
  unfold core modifyAt
  rw [Array.getElem?_modify]
  by_cases hij : i = j
  · subst hij
    simp only [ite_true, Function.update_self, Option.map_map]
    congr 1
    funext s
    cases hc : s.cell <;> simp [hc, hF]
  · simp [hij, Function.update_of_ne (Ne.symm hij)]

theorem core_modifyAt_of_eq {f : Cell → Cell}
    (hf : ∀ c, (f c).header.count = c.header.count ∧ (f c).body = c.body) :
    (a.modifyAt i f).core = a.core := by
  rw [core_modifyAt (F := id) (by intro c; simp [hf c])]
  simp

@[simp] theorem core_modifyMarks (f : Marks → Marks) :
    (a.modifyAt i (·.modifyMarks f)).core = a.core :=
  core_modifyAt_of_eq fun _ => ⟨rfl, rfl⟩

theorem core_modifyAll_of_eq {f : Cell → Cell}
    (hf : ∀ c, (f c).header.count = c.header.count ∧ (f c).body = c.body) :
    (a.modifyAll f).core = a.core := by
  funext j
  unfold core modifyAll
  rw [Array.getElem?_map, Option.map_map]
  congr 1
  funext s
  cases hc : s.cell <;> simp [hc, hf]

@[simp] theorem core_modifyLinks (f : Links → Links) : (a.modifyLinks i f).core = a.core := by
  funext j
  unfold core modifyLinks
  rw [Array.getElem?_modify]
  by_cases hij : i = j
  · subst hij
    simp [Function.comp_def]
  · simp [hij]

@[simp] theorem core_setEnds (chain : Chain) (e : Ends) : (a.setEnds chain e).core = a.core := by
  cases chain <;> rfl

@[simp] theorem core_linkHead (chain : Chain) : (a.linkHead chain i).core = a.core := by
  unfold linkHead
  dsimp only
  split <;> simp

@[simp] theorem core_linkTail (chain : Chain) : (a.linkTail chain i).core = a.core := by
  unfold linkTail
  dsimp only
  split <;> simp

@[simp] theorem core_unlink : (a.unlink i).core = a.core := by
  unfold unlink
  dsimp only
  split
  · rfl
  · split <;> split <;> simp

@[simp] theorem core_account (bytes : ℕ) : (a.account i bytes).core = a.core := by
  funext j
  unfold core account
  rw [Array.getElem?_modify]
  by_cases hij : i = j
  · subst hij
    simp [Function.comp_def]
  · simp [hij]

theorem core_release (h : a.Holds r n b) :
    (a.release r.index).core = Function.update a.core r.index (some (r.generation + 1, none)) := by
  obtain ⟨c, hc, -, -⟩ := h.get?
  obtain ⟨⟨f, l, m, k⟩, hs, hg, hk⟩ := get?_eq_some_iff.mp hc
  simp only at hk
  subst hk
  -- The generation is counted modulo `2 ^ 32`, and so is the number of times that the slot is freed.
  have hnext : ArenaSlot.generation ⟨f + 1, l, 0, none⟩ = r.generation + 1 := by
    rw [← hg]
    exact UInt32.ofNat_add f 1
  have hlt : r.index < a.slots.size := lt_size_of_core h
  funext j
  unfold release core
  rw [hs]
  dsimp only
  rw [Array.getElem?_setIfInBounds]
  by_cases hij : r.index = j
  · subst hij
    simpa [hlt] using hnext
  · simp [hij, Function.update_of_ne (Ne.symm hij)]

/-- A slot that is not occupied. -/
def Vacant (a : Arena) (i : ℕ) : Prop :=
  ∀ g x, a.core i ≠ some (g, some x)

theorem Vacant.not_holds (h : a.Vacant r.index) : ¬ a.Holds r n b :=
  h _ _

/-- What the free list has to satisfy for a placement: its slots are there and hold nothing. -/
def FreeOk (a : Arena) : Prop :=
  a.free.Nodup ∧ ∀ i, i ∈ a.free ↔ ∃ s, a.slots[i]? = some s ∧ s.cell = none

theorem FreeOk.vacant (h : a.FreeOk) (hi : i ∈ a.free) : a.Vacant i := by
  obtain ⟨s, hs, hc⟩ := (h.2 i).mp hi
  intro g x hx
  simp [core, hs, hc] at hx

/-- The slot that the next cell gets: the one freed last, else a new one. -/
def nextSlot (a : Arena) : ℕ :=
  a.free.head?.getD a.slots.size

/-- A new cell in the next slot, on no list yet. -/
def fill (a : Arena) (b : Body) : Arena :=
  match a.free with
  | i :: rest =>
    { a with
      slots := a.slots.modify i fun s => ⟨s.freed, s.links, b.size, some (.new b)⟩
      free := rest
      usedBytes := a.usedBytes + b.size }
  | [] =>
    { a with
      slots := a.slots.push ⟨0, {}, b.size, some (.new b)⟩
      usedBytes := a.usedBytes + b.size }

/-- A placement fills the next slot, and links it if the cell is composite. -/
theorem place_eq : a.place b =
    (if b.isComposite then (a.fill b).linkHead .allocated a.nextSlot else a.fill b,
      (a.fill b).handleAt a.nextSlot) := by
  unfold place fill nextSlot
  cases hf : a.free with
  | nil =>
    dsimp only
    split <;> rfl
  | cons i rest =>
    dsimp only
    split <;> rfl

@[simp] theorem place_snd_index : (a.place b).2.index = a.nextSlot := by
  rw [place_eq]
  rfl

theorem core_fill (h : a.FreeOk) : (a.fill b).core = Function.update a.core a.nextSlot
    (some (((a.fill b).handleAt a.nextSlot).generation, some (1, b))) := by
  unfold fill nextSlot
  cases hf : a.free with
  | nil =>
    funext j
    unfold core
    dsimp only
    rw [Array.getElem?_push]
    by_cases hj : j = a.slots.size
    · subst hj
      simp [Cell.new, Header.new, handleAt]
    · simp [hj]
  | cons i rest =>
    obtain ⟨s, hs, hc⟩ := (h.2 i).mp (by simp [hf])
    funext j
    unfold core
    dsimp only
    rw [Array.getElem?_modify]
    by_cases hj : i = j
    · subst hj
      simp [hs, Cell.new, Header.new, handleAt, Array.getElem?_modify]
    · simp [hj, Function.update_of_ne (Ne.symm hj)]

theorem core_place (h : a.FreeOk) (b : Body) : (a.place b).1.core =
    Function.update a.core (a.place b).2.index (some ((a.place b).2.generation, some (1, b))) := by
  rw [place_snd_index, place_eq]
  dsimp only
  rw [← core_fill h]
  split <;> simp

theorem vacant_place (h : a.FreeOk) : a.Vacant a.nextSlot := by
  unfold nextSlot
  cases hf : a.free with
  | nil =>
    intro g x hx
    simp [core_eq_none] at hx
  | cons i rest => exact h.vacant (by simp [hf])

theorem holds_place (h : a.FreeOk) (b : Body) : (a.place b).1.Holds (a.place b).2 1 b := by
  unfold Holds
  rw [core_place h]
  simp

/-- A new cell replaces none. -/
theorem Holds.place {b' : Body} (hr : a.Holds r n b') (h : a.FreeOk) (b : Body) :
    (a.place b).1.Holds r n b' := by
  unfold Holds at hr ⊢
  rw [core_place h, place_snd_index, Function.update_of_ne, hr]
  intro hi
  rw [hi] at hr
  exact vacant_place h _ _ hr

/-- Besides the new cell there are those that were there. -/
theorem holds_of_place {b' : Body} (h : a.FreeOk) (hr : (a.place b).1.Holds r n b') :
    n = 1 ∧ b' = b ∨ a.Holds r n b' := by
  by_cases hi : r.index = (a.place b).2.index
  · exact .inl ((hr.eq_of_index (holds_place h b) hi ▸ hr).unique (holds_place h b))
  · right
    unfold Holds at hr ⊢
    rwa [core_place h, Function.update_of_ne hi] at hr

end CountedHeap.Arena
