import CountedHeap.Proofs.Arena.Slots

/-!
# The two lists of the arena

The lists are threaded through the slots in both directions. `Arena.IsChain` says that a list of
slot numbers is what the links of one chain spell out: its ends, its length, the neighbours of every
member, and which slots are on it.

* `IsChain.members_eq`: walking the links visits the members in order.
* `unlink_eq`, `linkTail_eq`, `linkHead_eq`: which links a change writes, given the members.
* `Threaded.unlink`, `Threaded.linkTail`, `Threaded.linkHead`: the lists after each change of links.
-/

namespace CountedHeap.Arena

variable {a : Arena} {i j : ℕ} {ch : Chain} {l l₁ l₂ : List ℕ}

/-! ## Links as a function -/

theorem chainOf_eq : a.chainOf i = (a.linksAt i).chain := by
  unfold chainOf linksAt
  cases a.slots[i]? <;> rfl

theorem lt_size_of_chain (h : (a.linksAt i).chain ≠ none) : i < a.slots.size := by
  by_contra hi
  apply h
  unfold linksAt
  rw [Array.getElem?_eq_none (by omega)]
  rfl

@[simp] theorem size_modifyLinks (f : Links → Links) :
    (a.modifyLinks i f).slots.size = a.slots.size := by
  simp [modifyLinks]

theorem linksAt_modifyLinks (f : Links → Links) (hi : i < a.slots.size) :
    (a.modifyLinks i f).linksAt = Function.update a.linksAt i (f (a.linksAt i)) := by
  funext j
  unfold linksAt modifyLinks
  rw [Array.getElem?_modify]
  by_cases hij : i = j
  · subst hij
    simp [hi]
  · simp [hij, Function.update_of_ne (Ne.symm hij)]

@[simp] theorem linksAt_setEnds (e : Ends) : (a.setEnds ch e).linksAt = a.linksAt := by
  cases ch <;> rfl

@[simp] theorem size_setEnds (e : Ends) : (a.setEnds ch e).slots.size = a.slots.size := by
  cases ch <;> rfl

@[simp] theorem ends_modifyLinks (f : Links → Links) : (a.modifyLinks i f).ends = a.ends := by
  funext ch
  cases ch <;> rfl

@[simp] theorem ends_setEnds (e : Ends) : (a.setEnds ch e).ends = Function.update a.ends ch e := by
  funext ch'
  cases ch <;> cases ch' <;> rfl

/-- Writes to the links of a neighbour, if there is one. -/
def modifyNeighbour (a : Arena) (o : Option ℕ) (f : Links → Links) : Arena :=
  o.elim a (a.modifyLinks · f)

@[simp] theorem size_modifyNeighbour {o : Option ℕ} {f : Links → Links} :
    (a.modifyNeighbour o f).slots.size = a.slots.size := by
  cases o with
  | none => rfl
  | some k => exact size_modifyLinks f

@[simp] theorem ends_modifyNeighbour {o : Option ℕ} {f : Links → Links} :
    (a.modifyNeighbour o f).ends = a.ends := by
  cases o with
  | none => rfl
  | some k => exact ends_modifyLinks f

theorem linksAt_modifyNeighbour {o : Option ℕ} (f : Links → Links) (ho : ∀ k ∈ o, k < a.slots.size) :
    (a.modifyNeighbour o f).linksAt = fun j =>
      if o = some j then f (a.linksAt j) else a.linksAt j := by
  funext j
  cases o with
  | none => rfl
  | some k =>
    change (a.modifyLinks k f).linksAt j = _
    rw [linksAt_modifyLinks f (ho k rfl)]
    by_cases hj : j = k
    · simp [hj]
    · simp [hj, Ne.symm hj]

/-! ## What the links spell out -/

/-- The links of a chain spell out a list of slots. -/
structure IsChain (a : Arena) (ch : Chain) (l : List ℕ) : Prop where
  head : (a.ends ch).head = l.head?
  tail : (a.ends ch).tail = l.getLast?
  length : (a.ends ch).length = l.length
  nodup : l.Nodup
  links : ∀ l₁ i l₂, l = l₁ ++ i :: l₂ → a.linksAt i = ⟨l₁.getLast?, l₂.head?, some ch⟩
  mem : ∀ i, (a.linksAt i).chain = some ch → i ∈ l

namespace IsChain

theorem chain (h : a.IsChain ch l) (hi : i ∈ l) : (a.linksAt i).chain = some ch := by
  obtain ⟨l₁, l₂, rfl⟩ := List.append_of_mem hi
  rw [h.links l₁ i l₂ rfl]

theorem mem_iff (h : a.IsChain ch l) : i ∈ l ↔ (a.linksAt i).chain = some ch :=
  ⟨h.chain, h.mem i⟩

theorem lt_size (h : a.IsChain ch l) (hi : i ∈ l) : i < a.slots.size :=
  lt_size_of_chain (by rw [h.chain hi]; simp)

/-- A chain stays what it is where its ends and its members do, and no other slot is put on it. -/
theorem of_links {a' : Arena} (h : a.IsChain ch l) (he : a'.ends ch = a.ends ch)
    (hl : ∀ i ∈ l, a'.linksAt i = a.linksAt i)
    (hm : ∀ i, (a'.linksAt i).chain = some ch → (a.linksAt i).chain = some ch) : a'.IsChain ch l where
  head := he ▸ h.head
  tail := he ▸ h.tail
  length := he ▸ h.length
  nodup := h.nodup
  links l₁ i l₂ e := (hl i (by simp [e])).trans (h.links l₁ i l₂ e)
  mem i hi := h.mem i (hm i hi)

/-- A chain looks at the ends and the links only. -/
theorem congr {a' : Arena} (h : a.IsChain ch l) (he : a'.ends ch = a.ends ch)
    (hl : a'.linksAt = a.linksAt) : a'.IsChain ch l :=
  h.of_links he (fun i _ => congrFun hl i) fun _ hi => hl ▸ hi

/-- A slot on no list is a member of none. -/
theorem not_mem (h : a.IsChain ch l) (hi : (a.linksAt i).chain = none) : i ∉ l := by
  intro hm
  rw [h.chain hm] at hi
  cases hi

theorem walk_eq (h : a.IsChain ch l) : ∀ l₁ l₂, l = l₁ ++ l₂ →
    a.walk l₂.length l₂.head? = l₂ := by
  intro l₁ l₂
  induction l₂ generalizing l₁ with
  | nil => intro _; rfl
  | cons i l₂ ih =>
    intro e
    rw [List.head?_cons, List.length_cons, walk, h.links l₁ i l₂ e]
    rw [ih (l₁ ++ [i]) (by rw [e]; simp)]

theorem members_eq (h : a.IsChain ch l) : a.members ch = l := by
  unfold members
  dsimp only
  rw [h.length, h.head]
  exact h.walk_eq [] l rfl

end IsChain

/-- Both chains, each with the list that its links spell out. -/
def Threaded (a : Arena) (l : Chain → List ℕ) : Prop :=
  ∀ ch, a.IsChain ch (l ch)

namespace Threaded

variable {l : Chain → List ℕ}

theorem members_eq (h : a.Threaded l) : a.members = l :=
  funext fun ch => (h ch).members_eq

theorem congr {a' : Arena} (h : a.Threaded l) (he : a'.ends = a.ends)
    (hl : a'.linksAt = a.linksAt) : a'.Threaded l :=
  fun ch => (h ch).congr (by rw [he]) hl

theorem eq_of_mem {ch' : Chain} (h : a.Threaded l) (hi : i ∈ l ch) (hi' : i ∈ l ch') : ch = ch' := by
  have h1 := (h ch).chain hi
  rw [(h ch').chain hi'] at h1
  exact (Option.some.inj h1).symm

/-- The slots that are on a list are the members of the lists. -/
theorem linked_iff (h : a.Threaded l) : (a.linksAt i).chain ≠ none ↔ ∃ ch, i ∈ l ch := by
  rw [Option.ne_none_iff_exists']
  exact exists_congr fun ch => ((h ch).mem_iff).symm

end Threaded

/-- The members of the lists when one of them has got another one. -/
theorem exists_mem_update {l : Chain → List ℕ} {m : List ℕ} (hm : ∀ j, j ∈ m ↔ j = i ∨ j ∈ l ch) :
    (∃ ch', j ∈ Function.update l ch m ch') ↔ j = i ∨ ∃ ch', j ∈ l ch' := by
  constructor
  · rintro ⟨ch', hj⟩
    by_cases hc : ch' = ch
    · rw [hc, Function.update_self, hm] at hj
      exact hj.imp_right fun hj => ⟨ch, hj⟩
    · rw [Function.update_of_ne hc] at hj
      exact .inr ⟨ch', hj⟩
  · rintro (hj | ⟨ch', hj⟩)
    · exact ⟨ch, by rw [Function.update_self, hm]; exact .inl hj⟩
    · refine ⟨ch', ?_⟩
      by_cases hc : ch' = ch
      · rw [hc, Function.update_self, hm]
        exact .inr (hc ▸ hj)
      · rwa [Function.update_of_ne hc]

/-! ## Without repetitions -/

/-- A member is the last one only if none comes after it. -/
theorem getLast?_eq_some_iff_of_nodup (hnd : (l₁ ++ j :: l₂).Nodup) :
    (l₁ ++ j :: l₂).getLast? = some j ↔ l₂ = [] := by
  have hlast : (l₁ ++ j :: l₂).getLast? = l₂.getLast?.or (some j) := by
    simp [List.getLast?_append, List.getLast?_cons]
  rw [hlast]
  cases hl : l₂.getLast? with
  | none => simpa using List.getLast?_eq_none_iff.mp hl
  | some k =>
    have hk : k ∈ l₂ := List.mem_of_mem_getLast? hl
    have hne : k ≠ j := by
      rintro rfl
      exact (List.nodup_middle.mp hnd).notMem (by simp [hk])
    simp [hne, List.ne_nil_of_mem hk]

/-- A member is the first one only if none comes before it. -/
theorem head?_eq_some_iff_of_nodup (hnd : (l₁ ++ j :: l₂).Nodup) :
    (l₁ ++ j :: l₂).head? = some j ↔ l₁ = [] := by
  cases l₁ with
  | nil => simp
  | cons x xs =>
    have hne : x ≠ j := by
      rintro rfl
      simp at hnd
    simp [hne]

/-! ## Taking a slot off its list -/

/-- The neighbours are linked to each other, and the ends are those of the list without the slot. -/
theorem unlink_eq (h : a.IsChain ch (l₁ ++ i :: l₂)) : a.unlink i =
    (((a.modifyNeighbour l₁.getLast? ({ · with next := l₂.head? })).modifyNeighbour l₂.head?
      ({ · with prev := l₁.getLast? })).setEnds ch
        ⟨(l₁ ++ l₂).head?, (l₁ ++ l₂).getLast?, (l₁ ++ l₂).length⟩).modifyLinks i fun _ => {} := by
  have hhead : (if l₁.getLast?.isSome = true then (a.ends ch).head else l₂.head?) =
      (l₁ ++ l₂).head? := by
    rw [h.head]
    cases l₁ with
    | nil => simp
    | cons x xs => simp [List.getLast?_cons]
  have htail : (if l₂.head?.isSome = true then (a.ends ch).tail else l₁.getLast?) =
      (l₁ ++ l₂).getLast? := by
    rw [h.tail]
    cases l₂ with
    | nil => simp
    | cons x xs => simp [List.getLast?_append, List.getLast?_cons]
  have hlength : (a.ends ch).length - 1 = (l₁ ++ l₂).length := by
    rw [h.length]
    simp
  unfold unlink modifyNeighbour
  rw [h.links l₁ i l₂ rfl]
  dsimp only
  rw [hhead, htail, hlength]
  cases l₁.getLast? <;> cases l₂.head? <;> rfl

theorem linksAt_unlink (h : a.IsChain ch (l₁ ++ i :: l₂)) : (a.unlink i).linksAt = fun j =>
    if j = i then {}
    else if l₁.getLast? = some j then { a.linksAt j with next := l₂.head? }
    else if l₂.head? = some j then { a.linksAt j with prev := l₁.getLast? }
    else a.linksAt j := by
  have hi : i < a.slots.size := h.lt_size (by simp)
  have hprev : ∀ k ∈ l₁.getLast?, k < a.slots.size := fun k hk =>
    h.lt_size (List.mem_append_left _ (List.mem_of_mem_getLast? hk))
  have hnext : ∀ k ∈ l₂.head?, k < a.slots.size := fun k hk =>
    h.lt_size (List.mem_append_right _ (List.mem_cons_of_mem _ (List.mem_of_mem_head? hk)))
  rw [unlink_eq h, linksAt_modifyLinks _ (by simpa using hi), linksAt_setEnds,
    linksAt_modifyNeighbour _ (by simpa using hnext), linksAt_modifyNeighbour _ hprev]
  funext j
  by_cases hj : j = i
  · simp [hj]
  rw [Function.update_of_ne hj, if_neg hj]
  dsimp only
  by_cases hl : l₁.getLast? = some j
  · have hr : l₂.head? ≠ some j := fun hr => List.disjoint_of_nodup_append
      h.nodup (List.mem_of_mem_getLast? hl) (List.mem_cons_of_mem _ (List.mem_of_mem_head? hr))
    rw [if_neg hr, if_pos hl, if_pos hl]
  · rw [if_neg hl, if_neg hl]

theorem ends_unlink (h : a.IsChain ch (l₁ ++ i :: l₂)) : (a.unlink i).ends =
    Function.update a.ends ch
      ⟨(l₁ ++ l₂).head?, (l₁ ++ l₂).getLast?, (l₁ ++ l₂).length⟩ := by
  rw [unlink_eq h]
  simp

/-- The slot is on no list any longer, and the others are where they were. -/
theorem IsChain.chain_unlink (h : a.IsChain ch (l₁ ++ i :: l₂)) :
    ((a.unlink i).linksAt j).chain = if j = i then none else (a.linksAt j).chain := by
  rw [linksAt_unlink h]
  dsimp only
  split_ifs <;> rfl

/-- Members of the list keep their place in it, with the slot taken out. -/
theorem IsChain.unlink_links (h : a.IsChain ch (l₁ ++ i :: l₂)) :
    ∀ m₁ j m₂, l₁ ++ l₂ = m₁ ++ j :: m₂ →
      (a.unlink i).linksAt j = ⟨m₁.getLast?, m₂.head?, some ch⟩ := by
  intro m₁ j m₂ e
  have hnd := List.nodup_middle.mp h.nodup
  have hj : j ∈ l₁ ++ l₂ := by simp [e]
  have hji : j ≠ i := by
    rintro rfl
    exact hnd.notMem hj
  have hdis : List.Disjoint l₁ l₂ := List.disjoint_of_nodup_append hnd.of_cons
  rw [linksAt_unlink h]
  dsimp only
  rw [if_neg hji]
  rcases List.append_eq_append_iff.mp e with ⟨t, rfl, rfl⟩ | ⟨t, rfl, ht⟩
  · -- `j` is behind the slot.
    have hjl : l₁.getLast? ≠ some j := fun hl =>
      hdis (List.mem_of_mem_getLast? hl) (by simp)
    rw [if_neg hjl, h.links (l₁ ++ i :: t) j m₂ (by simp)]
    simp only [head?_eq_some_iff_of_nodup (List.nodup_append.mp hnd.of_cons).2.1]
    cases t with
    | nil => simp
    | cons x xs => simp [List.getLast?_append, List.getLast?_cons]
  · cases t with
    | nil =>
      -- `j` is the slot right behind.
      rw [List.nil_append] at ht
      subst ht
      rw [List.append_nil] at *
      have hjl : m₁.getLast? ≠ some j := fun hl =>
        hdis (List.mem_of_mem_getLast? hl) (by simp)
      rw [if_neg hjl, h.links (m₁ ++ [i]) j m₂ (by simp)]
      simp
    | cons x xs =>
      -- `j` is in front of the slot.
      rw [List.cons_append, List.cons.injEq] at ht
      obtain ⟨rfl, rfl⟩ := ht
      have hjr : l₂.head? ≠ some j := fun hr =>
        hdis (by simp) (List.mem_of_mem_head? hr)
      rw [if_neg hjr, h.links m₁ j (xs ++ i :: l₂) (by simp)]
      simp only [getLast?_eq_some_iff_of_nodup (List.nodup_append.mp hnd.of_cons).1]
      cases xs with
      | nil => simp
      | cons y ys => simp

/-- The lists after a slot is taken off its list. -/
theorem Threaded.unlink {l : Chain → List ℕ} (h : a.Threaded l) (he : l ch = l₁ ++ i :: l₂) :
    (a.unlink i).Threaded (Function.update l ch (l₁ ++ l₂)) := by
  have hch : a.IsChain ch (l₁ ++ i :: l₂) := he ▸ h ch
  intro ch'
  by_cases hc : ch' = ch
  · subst hc
    rw [Function.update_self]
    refine ⟨?_, ?_, ?_, hch.nodup.sublist (by simp), hch.unlink_links, fun j hj => ?_⟩
    · rw [ends_unlink hch, Function.update_self]
    · rw [ends_unlink hch, Function.update_self]
    · rw [ends_unlink hch, Function.update_self]
    · rw [hch.chain_unlink] at hj
      split_ifs at hj with hji
      have hmem := hch.mem j hj
      simp only [List.mem_append, List.mem_cons, hji, false_or] at hmem ⊢
      exact hmem
  · rw [Function.update_of_ne hc]
    refine (h ch').of_links ?_ (fun j hj => ?_) fun j hj => ?_
    · rw [ends_unlink hch, Function.update_of_ne hc]
    · have hnot : j ∉ l₁ ++ i :: l₂ := fun hm => hc (h.eq_of_mem hj (he ▸ hm))
      simp only [List.mem_append, List.mem_cons, not_or] at hnot
      rw [linksAt_unlink hch]
      dsimp only
      have hprev : l₁.getLast? ≠ some j := fun hl => hnot.1 (List.mem_of_mem_getLast? hl)
      have hnext : l₂.head? ≠ some j := fun hr => hnot.2.2 (List.mem_of_mem_head? hr)
      rw [if_neg hnot.2.1, if_neg hprev, if_neg hnext]
    · rw [hch.chain_unlink] at hj
      split_ifs at hj
      exact hj

/-! ## Putting a slot on a list -/

/-- The slot is linked to the tail, and the ends are those of the list with the slot. -/
theorem linkTail_eq (h : a.IsChain ch l) : a.linkTail ch i =
    ((a.modifyLinks i fun _ => ⟨l.getLast?, none, some ch⟩).modifyNeighbour l.getLast?
      ({ · with next := some i })).setEnds ch
        ⟨(l ++ [i]).head?, (l ++ [i]).getLast?, (l ++ [i]).length⟩ := by
  unfold linkTail
  dsimp only
  rw [h.tail, h.length, h.head]
  cases l with
  | nil => rfl
  | cons x xs => simp [List.getLast?_cons, modifyNeighbour]

theorem linksAt_linkTail (h : a.IsChain ch l) (hi : (a.linksAt i).chain = none)
    (hlt : i < a.slots.size) : (a.linkTail ch i).linksAt = fun j =>
      if j = i then ⟨l.getLast?, none, some ch⟩
      else if l.getLast? = some j then { a.linksAt j with next := some i }
      else a.linksAt j := by
  have hlast : ∀ k ∈ l.getLast?, k < a.slots.size := fun k hk =>
    h.lt_size (List.mem_of_mem_getLast? hk)
  rw [linkTail_eq h, linksAt_setEnds, linksAt_modifyNeighbour _ (by simpa using hlast),
    linksAt_modifyLinks _ hlt]
  funext j
  by_cases hj : j = i
  · have hnot : l.getLast? ≠ some i := fun hl => h.not_mem hi (List.mem_of_mem_getLast? hl)
    subst hj
    rw [if_neg hnot, if_pos rfl, Function.update_self]
  · rw [Function.update_of_ne hj, if_neg hj]

theorem ends_linkTail (h : a.IsChain ch l) : (a.linkTail ch i).ends =
    Function.update a.ends ch ⟨(l ++ [i]).head?, (l ++ [i]).getLast?, (l ++ [i]).length⟩ := by
  rw [linkTail_eq h, ends_setEnds, ends_modifyNeighbour, ends_modifyLinks]

/-- The slot is linked to the head, and the ends are those of the list with the slot. -/
theorem linkHead_eq (h : a.IsChain ch l) : a.linkHead ch i =
    ((a.modifyLinks i fun _ => ⟨none, l.head?, some ch⟩).modifyNeighbour l.head?
      ({ · with prev := some i })).setEnds ch
        ⟨(i :: l).head?, (i :: l).getLast?, (i :: l).length⟩ := by
  unfold linkHead
  dsimp only
  rw [h.tail, h.length, h.head]
  cases l with
  | nil => rfl
  | cons x xs => simp [List.getLast?_cons, modifyNeighbour]

theorem linksAt_linkHead (h : a.IsChain ch l) (hi : (a.linksAt i).chain = none)
    (hlt : i < a.slots.size) : (a.linkHead ch i).linksAt = fun j =>
      if j = i then ⟨none, l.head?, some ch⟩
      else if l.head? = some j then { a.linksAt j with prev := some i }
      else a.linksAt j := by
  have hhead : ∀ k ∈ l.head?, k < a.slots.size := fun k hk =>
    h.lt_size (List.mem_of_mem_head? hk)
  rw [linkHead_eq h, linksAt_setEnds, linksAt_modifyNeighbour _ (by simpa using hhead),
    linksAt_modifyLinks _ hlt]
  funext j
  by_cases hj : j = i
  · have hnot : l.head? ≠ some i := fun hl => h.not_mem hi (List.mem_of_mem_head? hl)
    subst hj
    rw [if_neg hnot, if_pos rfl, Function.update_self]
  · rw [Function.update_of_ne hj, if_neg hj]

theorem ends_linkHead (h : a.IsChain ch l) : (a.linkHead ch i).ends =
    Function.update a.ends ch ⟨(i :: l).head?, (i :: l).getLast?, (i :: l).length⟩ := by
  rw [linkHead_eq h, ends_setEnds, ends_modifyNeighbour, ends_modifyLinks]

/-- A new member `i` whose links and neighbours are as they should be, and nothing else changed. -/
theorem Threaded.insert {a' : Arena} {l : Chain → List ℕ} {m : List ℕ} (h : a.Threaded l)
    (hi : (a.linksAt i).chain = none)
    (he : a'.ends = Function.update a.ends ch ⟨m.head?, m.getLast?, m.length⟩)
    (hm : m.Nodup) (hmem : ∀ j, j ∈ m ↔ j = i ∨ j ∈ l ch)
    (hlinks : ∀ m₁ j m₂, m = m₁ ++ j :: m₂ → a'.linksAt j = ⟨m₁.getLast?, m₂.head?, some ch⟩)
    (hsame : ∀ j, j ≠ i → j ∉ l ch → a'.linksAt j = a.linksAt j) :
    a'.Threaded (Function.update l ch m) := by
  have hin : ∀ j ∈ m, (a'.linksAt j).chain = some ch := by
    intro j hj
    obtain ⟨m₁, m₂, e⟩ := List.append_of_mem hj
    rw [hlinks m₁ j m₂ e]
  intro ch'
  by_cases hc : ch' = ch
  · subst hc
    rw [Function.update_self]
    refine ⟨by rw [he, Function.update_self], by rw [he, Function.update_self],
      by rw [he, Function.update_self], hm, hlinks, ?_⟩
    intro j hj
    rw [hmem]
    by_contra hn
    simp only [not_or] at hn
    rw [hsame j hn.1 hn.2] at hj
    exact hn.2 ((h ch').mem j hj)
  · rw [Function.update_of_ne hc]
    refine (h ch').of_links (by rw [he, Function.update_of_ne hc]) (fun j hj => ?_) fun j hj => ?_
    · refine hsame j ?_ fun hj' => hc (h.eq_of_mem hj hj')
      rintro rfl
      exact (h ch').not_mem hi hj
    · by_cases hjm : j ∈ m
      · rw [hin j hjm] at hj
        exact absurd (Option.some.inj hj).symm hc
      · rw [hmem, not_or] at hjm
        rwa [hsame j hjm.1 hjm.2] at hj

/-- The lists after a slot is put at the tail of one. -/
theorem Threaded.linkTail {l : Chain → List ℕ} (h : a.Threaded l)
    (hi : (a.linksAt i).chain = none) (hlt : i < a.slots.size) :
    (a.linkTail ch i).Threaded (Function.update l ch (l ch ++ [i])) := by
  have hch := h ch
  have hnot := hch.not_mem hi
  refine h.insert hi (ends_linkTail hch) ?_ (by simp [or_comm]) ?_ ?_
  · rw [List.nodup_append]
    refine ⟨hch.nodup, by simp, fun x hx y hy => ?_⟩
    rw [List.mem_singleton] at hy
    rintro rfl
    exact hnot (hy ▸ hx)
  · intro m₁ j m₂ e
    rw [linksAt_linkTail hch hi hlt]
    dsimp only
    rcases List.append_eq_append_iff.mp e with ⟨t, rfl, ht⟩ | ⟨t, ht, ht2⟩
    · -- `j` is the new member
      cases t with
      | nil =>
        simp only [List.nil_append, List.cons.injEq] at ht
        obtain ⟨rfl, rfl⟩ := ht
        simp
      | cons x xs => simp at ht
    · cases t with
      | nil =>
        simp only [List.nil_append, List.cons.injEq] at ht2
        obtain ⟨rfl, rfl⟩ := ht2
        simp only [List.append_nil] at ht
        simp [ht]
      | cons x xs =>
        simp only [List.cons_append, List.cons.injEq] at ht2
        obtain ⟨rfl, rfl⟩ := ht2
        have hji : j ≠ i := by
          rintro rfl
          exact hnot (by rw [ht]; simp)
        rw [if_neg hji, hch.links m₁ j xs ht, ht]
        simp only [getLast?_eq_some_iff_of_nodup (ht ▸ hch.nodup)]
        cases xs <;> simp
  · intro j hj hjl
    rw [linksAt_linkTail hch hi hlt]
    dsimp only
    rw [if_neg hj, if_neg]
    intro hl
    exact hjl (List.mem_of_mem_getLast? hl)

/-- The lists after a slot is put at the head of one. -/
theorem Threaded.linkHead {l : Chain → List ℕ} (h : a.Threaded l)
    (hi : (a.linksAt i).chain = none) (hlt : i < a.slots.size) :
    (a.linkHead ch i).Threaded (Function.update l ch (i :: l ch)) := by
  have hch := h ch
  have hnot := hch.not_mem hi
  refine h.insert hi (ends_linkHead hch) ?_ (by simp) ?_ ?_
  · exact List.nodup_cons.mpr ⟨hnot, hch.nodup⟩
  · intro m₁ j m₂ e
    rw [linksAt_linkHead hch hi hlt]
    dsimp only
    cases m₁ with
    | nil =>
      simp only [List.nil_append, List.cons.injEq] at e
      obtain ⟨rfl, rfl⟩ := e
      simp
    | cons x xs =>
      simp only [List.cons_append, List.cons.injEq] at e
      obtain ⟨rfl, ht⟩ := e
      have hji : j ≠ i := by
        rintro rfl
        exact hnot (by rw [ht]; simp)
      rw [if_neg hji, hch.links xs j m₂ ht, ht]
      simp only [head?_eq_some_iff_of_nodup (ht ▸ hch.nodup)]
      cases xs <;> simp [List.getLast?_cons]
  · intro j hj hjl
    rw [linksAt_linkHead hch hi hlt]
    dsimp only
    rw [if_neg hj, if_neg]
    intro hl
    exact hjl (List.mem_of_mem_head? hl)

end CountedHeap.Arena
