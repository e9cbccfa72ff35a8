import Mathlib.Tactic
import CountedHeap.Proofs.Arena.Chains
import CountedHeap.Proofs.Cell.Edits

/-!
# Sound arenas

What every arena satisfies between two steps: the free list names the empty slots, the two lists are
threaded through the composite cells and no others, a leaf that is there is counted, and property
tables are valid.

* `Arena.Sound`: the invariant.
* `Sound.recell`: a cell is overwritten by one of the same sort.
* `Sound.place`, `Sound.remove`: cells come and go.
* `Sound.enqueue`, `Sound.rescue`: cells move between the lists.
-/

namespace CountedHeap

namespace Arena

variable {a a' : Arena} {r : Handle} {i j n m : ℕ} {b b' : Body} {ch : Chain}

/-- What every arena satisfies. -/
structure Sound (a : Arena) : Prop where
  free : a.FreeOk
  threaded : a.Threaded a.members
  linked : ∀ i, (a.linksAt i).chain ≠ none ↔ ∃ g n b, a.core i = some (g, some (n, b)) ∧
    b.isComposite = true
  leaves : ∀ r n b, a.Holds r n b → b.isComposite = false → 0 < n
  bodies : ∀ r n b, a.Holds r n b → b.Valid

/-! ## What does not move cells -/

@[simp] theorem linksAt_modifyAt (f : Cell → Cell) : (a.modifyAt i f).linksAt = a.linksAt := by
  funext j
  unfold linksAt modifyAt
  rw [Array.getElem?_modify]
  by_cases hij : i = j
  · subst hij
    simp [Function.comp_def]
  · simp [hij]

@[simp] theorem linksAt_modifyAll (f : Cell → Cell) : (a.modifyAll f).linksAt = a.linksAt := by
  funext j
  unfold linksAt modifyAll
  rw [Array.getElem?_map, Option.map_map]
  rfl

@[simp] theorem linksAt_account (bytes : ℕ) : (a.account i bytes).linksAt = a.linksAt := by
  funext j
  unfold linksAt account
  rw [Array.getElem?_modify]
  by_cases hij : i = j
  · subst hij
    simp [Function.comp_def]
  · simp [hij]

@[simp] theorem linksAt_release : (a.release i).linksAt = a.linksAt := by
  unfold release
  split
  · rename_i g l n c hs
    funext j
    unfold linksAt
    dsimp only
    rw [Array.getElem?_setIfInBounds]
    by_cases hij : i = j
    · subst hij
      rw [if_pos rfl, if_pos (Array.getElem?_eq_some_iff.mp hs).1, hs]
      rfl
    · rw [if_neg hij]
  · rfl

@[simp] theorem ends_release : (a.release i).ends = a.ends := by
  unfold release
  split <;> rfl

theorem freeOk_iff : a.FreeOk ↔ a.free.Nodup ∧ ∀ i, i ∈ a.free ↔ ∃ g, a.core i = some (g, none) := by
  unfold FreeOk core
  refine and_congr_right fun _ => forall_congr' fun i => iff_congr Iff.rfl ?_
  cases a.slots[i]? <;> simp

/-- The free list goes on to name the empty slots as long as slots are neither filled nor emptied. -/
theorem FreeOk.congr (h : a.FreeOk) (hf : a'.free = a.free)
    (hc : ∀ i, (a'.core i).map (·.2.isNone) = (a.core i).map (·.2.isNone)) : a'.FreeOk := by
  have hempty : ∀ (a : Arena) i, (∃ g, a.core i = some (g, none)) ↔
      (a.core i).map (·.2.isNone) = some true := by
    intro a i
    cases a.core i with
    | none => simp
    | some x => cases x with | mk g c => cases c <;> simp
  obtain ⟨hnd, hmem⟩ := freeOk_iff.mp h
  refine freeOk_iff.mpr ⟨hf ▸ hnd, fun i => ?_⟩
  rw [hf, hmem, hempty, hempty, hc]

theorem FreeOk.of_core (h : a.FreeOk) (hf : a'.free = a.free) (hc : a'.core = a.core) : a'.FreeOk :=
  h.congr hf fun i => by rw [hc]

theorem FreeOk.modifyAt (h : a.FreeOk) (f : Cell → Cell) : (a.modifyAt i f).FreeOk := by
  refine h.congr rfl fun j => ?_
  unfold core Arena.modifyAt
  dsimp only
  rw [Array.getElem?_modify]
  by_cases hj : i = j
  · subst hj
    rw [if_pos rfl]
    cases a.slots[i]? with
    | none => rfl
    | some s => simp [Option.isNone_map]
  · rw [if_neg hj]

/-- A slot is emptied and goes to the head of the free list. -/
theorem FreeOk.vacate (h : a.FreeOk) {g : UInt32} (hr : a.Holds r n b)
    (hc : a'.core = Function.update a.core r.index (some (g, none)))
    (hf : a'.free = r.index :: a.free) : a'.FreeOk := by
  have hat : a.core r.index = some (r.generation, some (n, b)) := hr
  obtain ⟨hnd, hmem⟩ := freeOk_iff.mp h
  rw [freeOk_iff, hf]
  refine ⟨List.nodup_cons.mpr ⟨?_, hnd⟩, fun i => ?_⟩
  · rw [hmem, hat]
    simp
  · rw [List.mem_cons, hmem, hc]
    by_cases hi : i = r.index
    · simp [hi]
    · rw [Function.update_of_ne hi]
      simp [hi]

/-- The cells are the same, and the same slots are on the lists, in whatever order. -/
theorem Sound.of_core (h : a.Sound) {l : Chain → List ℕ} (hc : a'.core = a.core)
    (hf : a'.free = a.free) (ht : a'.Threaded l)
    (hl : ∀ i, (∃ ch, i ∈ l ch) ↔ ∃ ch, i ∈ a.members ch) : a'.Sound ∧ a'.members = l := by
  have hholds : ∀ r n b, a'.Holds r n b → a.Holds r n b := by
    intro r n b hr
    unfold Holds at hr ⊢
    rwa [hc] at hr
  refine ⟨⟨h.free.of_core hf hc, ht.members_eq ▸ ht, fun i => ?_, fun r n b hr =>
    h.leaves r n b (hholds r n b hr), fun r n b hr => h.bodies r n b (hholds r n b hr)⟩, ht.members_eq⟩
  rw [hc, ← h.linked, ht.linked_iff, h.threaded.linked_iff, hl]

/-- Soundness looks at cells, lists and the free list. -/
theorem Sound.congr (h : a.Sound) (hc : a'.core = a.core) (hl : a'.linksAt = a.linksAt)
    (he : a'.ends = a.ends) (hf : a'.free = a.free) : a'.Sound ∧ a'.members = a.members :=
  h.of_core hc hf (h.threaded.congr he hl) fun _ => Iff.rfl

/-- A cell is overwritten by one of the same sort. -/
theorem Sound.recell (h : a.Sound) (hr : a.Holds r n b)
    (hc : a'.core = Function.update a.core r.index (some (r.generation, some (m, b'))))
    (hl : a'.linksAt = a.linksAt) (he : a'.ends = a.ends) (hf : a'.free = a.free)
    (hk : b'.isComposite = b.isComposite) (hm : b.isComposite = false → 0 < m) (hb : b'.Valid) :
    a'.Sound ∧ a'.members = a.members := by
  have ht := h.threaded.congr he hl
  have hat : a.core r.index = some (r.generation, some (n, b)) := hr
  have hcell : ∀ s k c, a'.Holds s k c → s = r ∧ k = m ∧ c = b' ∨ a.Holds s k c := by
    intro s k c hs
    unfold Holds at hs
    rw [hc] at hs
    by_cases hi : s.index = r.index
    · rw [hi, Function.update_self] at hs
      simp only [Option.some.injEq, Prod.mk.injEq] at hs
      obtain ⟨hg, rfl, rfl⟩ := hs
      refine .inl ⟨?_, rfl, rfl⟩
      cases s
      cases r
      simp_all
    · rw [Function.update_of_ne hi] at hs
      exact .inr hs
  refine ⟨⟨?_, ht.members_eq ▸ ht, ?_, ?_, ?_⟩, ht.members_eq⟩
  · obtain ⟨hnd, hmem⟩ := freeOk_iff.mp h.free
    rw [freeOk_iff, hf]
    refine ⟨hnd, fun i => ?_⟩
    rw [hmem, hc]
    by_cases hi : i = r.index
    · simp [hi, hat]
    · rw [Function.update_of_ne hi]
  · intro i
    rw [hl, h.linked, hc]
    by_cases hi : i = r.index
    · rw [hi, Function.update_self, hat]
      simp [hk]
    · rw [Function.update_of_ne hi]
  · intro s k c hs hleaf
    rcases hcell s k c hs with ⟨rfl, rfl, rfl⟩ | hs
    · exact hm (hk ▸ hleaf)
    · exact h.leaves s k c hs hleaf
  · intro s k c hs
    rcases hcell s k c hs with ⟨rfl, rfl, rfl⟩ | hs
    · exact hb
    · exact h.bodies s k c hs

/-! ## Cells that come and go -/

/-- The slot of a cell is emptied, and it is on no list afterwards. -/
theorem Sound.vacate (h : a.Sound) {g : UInt32} (hr : a.Holds r n b)
    (hc : a'.core = Function.update a.core r.index (some (g, none)))
    (hl : ∀ j ≠ r.index, (a'.linksAt j).chain = none ↔ (a.linksAt j).chain = none)
    (hi : (a'.linksAt r.index).chain = none) (hf : a'.free = r.index :: a.free)
    (ht : a'.Threaded a'.members) : a'.Sound := by
  have hat : a.core r.index = some (r.generation, some (n, b)) := hr
  have hcell : ∀ s k c, a'.Holds s k c → a.Holds s k c := by
    intro s k c hs
    unfold Holds at hs ⊢
    rw [hc] at hs
    by_cases hi : s.index = r.index
    · rw [hi, Function.update_self] at hs
      cases hs
    · rwa [Function.update_of_ne hi] at hs
  refine ⟨h.free.vacate hr hc hf, ht, ?_, ?_, ?_⟩
  · intro j
    rw [hc]
    by_cases hj : j = r.index
    · rw [hj, Function.update_self]
      simp [hi]
    · rw [Function.update_of_ne hj, ← h.linked, not_iff_not]
      exact hl j hj
  · intro s k c hs
    exact h.leaves s k c (hcell s k c hs)
  · intro s k c hs
    exact h.bodies s k c (hcell s k c hs)

theorem free_release (h : a.Holds r n b) : (a.release r.index).free = r.index :: a.free := by
  obtain ⟨c, hc, -, -⟩ := h.get?
  obtain ⟨⟨g, l, m, k⟩, hs, hg, hk⟩ := get?_eq_some_iff.mp hc
  simp only at hg hk
  subst hk
  unfold release
  rw [hs]

theorem FreeOk.release (h : a.FreeOk) : (a.release i).FreeOk := by
  cases hc : a.cellAt? i with
  | none =>
    have hsame : a.release i = a := by
      unfold Arena.release
      split
      · rename_i hs
        simp [cellAt?, hs] at hc
      · rfl
    rwa [hsame]
  | some c =>
    have hr : a.Holds (a.handleAt i) c.header.count c.body := by
      refine holds_of_get? ?_
      rw [get?_handleAt, hc]
    exact h.vacate hr (core_release hr) (free_release hr)

/-- Whether slots are on a list is a matter of their cells. -/
theorem Sound.chain_ne_none (h : a.Sound) (hr : a.Holds r n b) (hb : b.isComposite = true) :
    (a.linksAt r.index).chain ≠ none :=
  (h.linked r.index).mpr ⟨r.generation, n, b, hr, hb⟩

theorem Sound.chain_eq_none (h : a.Sound) (hr : a.Holds r n b) (hb : b.isComposite = false) :
    (a.linksAt r.index).chain = none := by
  by_contra hl
  obtain ⟨g, n', b', hc, hcomp⟩ := (h.linked r.index).mp hl
  have hat : a.core r.index = some (r.generation, some (n, b)) := hr
  rw [hat] at hc
  cases hc
  rw [hb] at hcomp
  cases hcomp

/-- Arenas with the same cells have the same slots on their lists. -/
theorem Sound.linked_iff (h : a.Sound) (h' : a'.Sound) (hc : a'.core = a.core) :
    (a'.linksAt i).chain ≠ none ↔ (a.linksAt i).chain ≠ none := by
  rw [h'.linked, h.linked, hc]

theorem Sound.mem_members (h : a.Sound) : i ∈ a.members ch ↔ (a.linksAt i).chain = some ch :=
  (h.threaded ch).mem_iff

/-- The members of a list are composite cells. -/
theorem Sound.cell_of_mem (h : a.Sound) (hi : i ∈ a.members ch) :
    ∃ n b, a.Holds (a.handleAt i) n b ∧ b.isComposite = true := by
  have hl := h.mem_members.mp hi
  obtain ⟨g, n, b, hc, hb⟩ := (h.linked i).mp (by rw [hl]; simp)
  exact ⟨n, b, holds_handleAt_iff.mpr ⟨g, hc⟩, hb⟩

/-- A composite cell is on one of the lists. -/
theorem Sound.mem_of_cell (h : a.Sound) (hr : a.Holds r n b) (hb : b.isComposite = true) :
    ∃ ch, r.index ∈ a.members ch := by
  obtain ⟨ch, hch⟩ := Option.ne_none_iff_exists'.mp (h.chain_ne_none hr hb)
  exact ⟨ch, h.mem_members.mpr hch⟩

/-- The lists once a slot is on neither. -/
theorem Sound.threaded_unlink (h : a.Sound) (hi : (a.linksAt i).chain ≠ none) :
    (a.unlink i).Threaded fun ch => (a.members ch).erase i := by
  obtain ⟨ch, hch⟩ := Option.ne_none_iff_exists'.mp hi
  have hm := h.mem_members.mpr hch
  obtain ⟨l₁, l₂, he⟩ := List.append_of_mem hm
  have hnd := (h.threaded ch).nodup
  have hlists : (fun ch => (a.members ch).erase i) = Function.update a.members ch (l₁ ++ l₂) := by
    funext ch'
    by_cases hc : ch' = ch
    · subst hc
      rw [he] at hnd
      rw [Function.update_self, he, List.erase_append_right, List.erase_cons_head]
      exact fun hl => (List.nodup_middle.mp hnd).notMem (by simp [hl])
    · rw [Function.update_of_ne hc, List.erase_of_not_mem]
      intro hm'
      exact hc (h.threaded.eq_of_mem hm' hm)
  rw [hlists]
  exact h.threaded.unlink he

theorem chain_unlink (h : a.Sound) (hi : (a.linksAt i).chain ≠ none) :
    ((a.unlink i).linksAt j).chain = if j = i then none else (a.linksAt j).chain := by
  obtain ⟨ch, hch⟩ := Option.ne_none_iff_exists'.mp hi
  obtain ⟨l₁, l₂, he⟩ := List.append_of_mem (h.mem_members.mpr hch)
  exact IsChain.chain_unlink (he ▸ h.threaded ch)

@[simp] theorem free_unlink : (a.unlink i).free = a.free := by
  unfold unlink
  dsimp only
  split
  · rfl
  · rename_i chain _
    cases chain <;> split <;> split <;> rfl

@[simp] theorem free_linkHead : (a.linkHead ch i).free = a.free := by
  unfold linkHead
  dsimp only
  cases ch <;> split <;> rfl

@[simp] theorem free_linkTail : (a.linkTail ch i).free = a.free := by
  unfold linkTail
  dsimp only
  cases ch <;> split <;> rfl

theorem Holds.unlink (h : a.Holds r n b) : (a.unlink i).Holds r n b := by
  unfold Holds
  rw [core_unlink]
  exact h

/-- A composite cell leaves. -/
theorem Sound.remove (h : a.Sound) (hr : a.Holds r n b) (hb : b.isComposite = true) :
    ((a.unlink r.index).release r.index).Sound ∧
      ((a.unlink r.index).release r.index).members = fun ch => (a.members ch).erase r.index := by
  have hi := h.chain_ne_none hr hb
  have ht : ((a.unlink r.index).release r.index).Threaded fun ch => (a.members ch).erase r.index :=
    (h.threaded_unlink hi).congr ends_release linksAt_release
  refine ⟨h.vacate (g := r.generation + 1) hr ?_ ?_ ?_ ?_ (ht.members_eq ▸ ht), ht.members_eq⟩
  · rw [core_release hr.unlink, core_unlink]
  · intro j hj
    rw [linksAt_release, chain_unlink h hi, if_neg hj]
  · rw [linksAt_release, chain_unlink h hi, if_pos rfl]
  · rw [free_release hr.unlink, free_unlink]

/-- A composite cell moves between the lists, or within one. -/
theorem Sound.relink (h : a.Sound) {m : List ℕ} (hi : (a.linksAt i).chain ≠ none)
    (hc : a'.core = a.core) (hf : a'.free = a.free)
    (ht : a'.Threaded (Function.update (fun ch => (a.members ch).erase i) ch m))
    (hm : ∀ j, j ∈ m ↔ j = i ∨ j ∈ (a.members ch).erase i) :
    a'.Sound ∧ a'.members = Function.update (fun ch => (a.members ch).erase i) ch m := by
  refine h.of_core hc hf ht fun j => ?_
  rw [exists_mem_update hm]
  by_cases hj : j = i
  · rw [hj]
    exact iff_of_true (.inl rfl) (h.threaded.linked_iff.mp hi)
  · simp only [hj, false_or, List.mem_erase_of_ne hj]

/-- A composite cell goes to the tail of the queue. -/
theorem Sound.enqueue (h : a.Sound) (hi : (a.linksAt i).chain ≠ none) :
    ((a.unlink i).linkTail .queue i).Sound ∧
      ((a.unlink i).linkTail .queue i).members =
        Function.update (fun ch => (a.members ch).erase i) .queue ((a.members .queue).erase i ++ [i]) := by
  have hn : ((a.unlink i).linksAt i).chain = none := by
    rw [chain_unlink h hi, if_pos rfl]
  have hlt : i < (a.unlink i).slots.size := by
    obtain ⟨g, n, b, hc, -⟩ := (h.linked i).mp hi
    exact lt_size_of_core (core_unlink.symm ▸ hc : (a.unlink i).core i = _)
  exact h.relink hi (by simp) (by simp) ((h.threaded_unlink hi).linkTail hn hlt) (by simp [or_comm])

/-- A composite cell goes back to the head of the allocated list, with other marks. -/
theorem Sound.rescue (h : a.Sound) (hi : (a.linksAt i).chain ≠ none) (f : Marks → Marks) :
    (((a.unlink i).modifyAt i (·.modifyMarks f)).linkHead .allocated i).Sound ∧
      (((a.unlink i).modifyAt i (·.modifyMarks f)).linkHead .allocated i).members =
        Function.update (fun ch => (a.members ch).erase i) .allocated
          (i :: (a.members .allocated).erase i) := by
  have hn : (((a.unlink i).modifyAt i (·.modifyMarks f)).linksAt i).chain = none := by
    rw [linksAt_modifyAt, chain_unlink h hi, if_pos rfl]
  have hlt : i < ((a.unlink i).modifyAt i (·.modifyMarks f)).slots.size := by
    obtain ⟨g, n, b, hc, -⟩ := (h.linked i).mp hi
    exact lt_size_of_core (x := (g, some (n, b))) (by rw [core_modifyMarks, core_unlink, hc])
  have ht : ((a.unlink i).modifyAt i (·.modifyMarks f)).Threaded fun ch => (a.members ch).erase i :=
    (h.threaded_unlink hi).congr rfl (linksAt_modifyAt _)
  have hfree : ((a.unlink i).modifyAt i (·.modifyMarks f)).free = a.free := free_unlink
  exact h.relink hi (by simp) (by rw [free_linkHead, hfree]) (ht.linkHead hn hlt) (by simp)

/-! ## New cells -/

theorem linksAt_fill : (a.fill b).linksAt = a.linksAt := by
  funext j
  unfold linksAt fill
  cases hf : a.free with
  | nil =>
    dsimp only
    rw [Array.getElem?_push]
    by_cases hj : j = a.slots.size
    · simp [hj]
    · rw [if_neg hj]
  | cons i rest =>
    dsimp only
    rw [Array.getElem?_modify]
    by_cases hj : i = j
    · subst hj
      simp [Function.comp_def]
    · rw [if_neg hj]

theorem ends_fill : (a.fill b).ends = a.ends := by
  unfold fill
  split <;> rfl

theorem free_fill : (a.fill b).free = a.free.tail := by
  unfold fill
  split <;> simp_all

/-- The free list loses the slot that is filled. -/
theorem FreeOk.place (h : a.FreeOk) (b : Body) : (a.place b).1.FreeOk := by
  have hcore := core_place h b
  rw [place_snd_index] at hcore
  obtain ⟨hnd, hmem⟩ := freeOk_iff.mp h
  have hfree : (a.place b).1.free = a.free.tail := by
    rw [place_eq]
    dsimp only
    split <;> simp [free_fill]
  rw [freeOk_iff, hfree]
  refine ⟨hnd.tail, fun j => ?_⟩
  rw [hcore]
  by_cases hj : j = a.nextSlot
  · rw [hj, Function.update_self]
    simp only [Option.some.injEq, Prod.mk.injEq, reduceCtorEq, and_false, exists_false, iff_false]
    unfold nextSlot
    cases hf : a.free with
    | nil => simp
    | cons i rest =>
      rw [hf] at hnd
      simpa using (List.nodup_cons.mp hnd).1
  · rw [Function.update_of_ne hj, ← hmem]
    unfold nextSlot at hj
    cases hf : a.free with
    | nil => simp
    | cons i rest =>
      rw [hf] at hj
      simp only [List.head?_cons, Option.getD_some] at hj
      simp [hj]

/-- The next slot is on no list. -/
theorem Sound.chain_nextSlot (h : a.Sound) : (a.linksAt a.nextSlot).chain = none := by
  by_contra hl
  obtain ⟨g, n, b, hc, -⟩ := (h.linked _).mp hl
  exact vacant_place h.free _ _ hc

/-- A new cell enters. -/
theorem Sound.place (h : a.Sound) (hb : b.Valid) : (a.place b).1.Sound ∧ (a.place b).1.members =
    if b.isComposite then Function.update a.members .allocated (a.nextSlot :: a.members .allocated)
    else a.members := by
  have hfill : (a.fill b).Threaded a.members := h.threaded.congr ends_fill linksAt_fill
  have hcore := core_place h.free b
  rw [place_snd_index] at hcore
  have hlt : a.nextSlot < (a.fill b).slots.size := by
    have := core_fill (b := b) h.free
    exact lt_size_of_core (i := a.nextSlot) (by rw [this, Function.update_self])
  have ht : (a.place b).1.Threaded (if b.isComposite then
      Function.update a.members .allocated (a.nextSlot :: a.members .allocated)
      else a.members) := by
    rw [place_eq]
    dsimp only
    split
    · exact hfill.linkHead (by rw [linksAt_fill]; exact h.chain_nextSlot) hlt
    · exact hfill
  refine ⟨⟨h.free.place b, ht.members_eq ▸ ht, fun j => ?_, fun s k c hs hleaf => ?_,
    fun s k c hs => ?_⟩, ht.members_eq⟩
  · rw [ht.linked_iff, hcore]
    by_cases hj : j = a.nextSlot
    · have hnot : ¬ ∃ ch, a.nextSlot ∈ a.members ch := by
        rw [← h.threaded.linked_iff]
        exact not_not_intro h.chain_nextSlot
      rw [hj, Function.update_self]
      cases hcomp : b.isComposite with
      | true => exact iff_of_true ⟨.allocated, by simp⟩ ⟨_, _, _, rfl, hcomp⟩
      | false => simp [hnot, hcomp]
    · rw [Function.update_of_ne hj, ← h.linked, h.threaded.linked_iff]
      split
      · rw [exists_mem_update fun _ => List.mem_cons, or_iff_right hj]
      · rfl
  · rcases holds_of_place h.free hs with ⟨rfl, -⟩ | hs
    · exact Nat.one_pos
    · exact h.leaves s k c hs hleaf
  · rcases holds_of_place h.free hs with ⟨-, rfl⟩ | hs
    · exact hb
    · exact h.bodies s k c hs

theorem Sound.empty (maxBytes : ℕ) : (empty maxBytes).Sound := by
  have hcore : ∀ i, (Arena.empty maxBytes).core i = none := by
    intro i
    simp [core, Arena.empty]
  refine ⟨⟨by simp [Arena.empty], by simp [Arena.empty]⟩, ?_, ?_, ?_, ?_⟩
  · intro ch
    have hlinks : ∀ i, ((Arena.empty maxBytes).linksAt i).chain = none := by
      intro i
      simp [linksAt, Arena.empty]
    have hmem : (Arena.empty maxBytes).members ch = [] := by
      cases ch <;> rfl
    rw [hmem]
    refine ⟨?_, ?_, ?_, by simp, by simp, ?_⟩
    · cases ch <;> rfl
    · cases ch <;> rfl
    · cases ch <;> rfl
    · intro i hi
      rw [hlinks] at hi
      cases hi
  · intro i
    rw [hcore]
    simp [linksAt, Arena.empty]
  · intro r n b h
    simp [Holds, hcore] at h
  · intro r n b h
    simp [Holds, hcore] at h

end Arena

end CountedHeap
