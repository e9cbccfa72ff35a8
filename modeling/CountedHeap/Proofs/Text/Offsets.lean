import Mathlib.Tactic
import CountedHeap.Text.OffsetCache

/-!
# Known offsets

A scan that starts from a true offset ends at one, in both directions. So the cache of known offsets can
be trusted as long as all of its entries are true, and it stays true when an offset is remembered, when a
string is forgotten, and when all are.

* `utf8ByteSize_take`: byte offsets are the sizes of the texts before them.
* `scan_byteOffset`: scanning finds the byte offset of a character.
* `OffsetCache.Tells`: the entries are true, few enough, and one for each string at most.
* `Tells.record`, `Tells.remove`, `Tells.flush`: what keeps them so.
-/

namespace CountedHeap

variable {cs : List Char} {i j n : ℕ} {t : Text}

/-! ## Byte offsets -/

@[simp] theorem byteCount_nil : byteCount [] = 0 :=
  rfl

theorem byteCount_eq_sum : byteCount cs = (cs.map Char.utf8Size).sum := by
  have hfold : ∀ (cs : List Char) (n : ℕ),
      cs.foldl (fun n c => n + c.utf8Size) n = n + (cs.map Char.utf8Size).sum := by
    intro cs
    induction cs with
    | nil => exact fun n => rfl
    | cons c cs ih =>
      intro n
      rw [List.foldl_cons, ih, List.map_cons, List.sum_cons, add_assoc]
  exact (hfold cs 0).trans (Nat.zero_add _)

@[simp] theorem byteCount_append {ds : List Char} :
    byteCount (cs ++ ds) = byteCount cs + byteCount ds := by
  rw [byteCount_eq_sum, byteCount_eq_sum, byteCount_eq_sum, List.map_append, List.sum_append]

/-- Characters take as many bytes as the string that is made of them. -/
theorem utf8ByteSize_ofList : (String.ofList cs).utf8ByteSize = byteCount cs := by
  induction cs with
  | nil => rfl
  | cons c cs ih =>
    rw [String.ofList_cons, String.utf8ByteSize_append, String.utf8ByteSize_singleton, ih,
      byteCount_eq_sum, byteCount_eq_sum, List.map_cons, List.sum_cons]

theorem byteCount_toList {s : String} : byteCount s.toList = s.utf8ByteSize := by
  rw [← utf8ByteSize_ofList, String.ofList_toList]

@[simp] theorem byteOffset_zero : byteOffset cs 0 = 0 := by
  rw [byteOffset, List.take_zero, byteCount_nil]

theorem byteOffset_add : byteOffset cs (i + n) = byteOffset cs i + byteCount ((cs.drop i).take n) := by
  rw [byteOffset, List.take_add, byteCount_append, byteOffset]

/-- The offset of the end is the size. -/
theorem byteOffset_charCount : byteOffset t.content.toList t.charCount = t.size := by
  unfold Text.charCount Text.size
  rw [byteOffset, ← String.length_toList, List.take_length, byteCount_toList]

/-- A scan from a true offset ends at one. -/
theorem scan_byteOffset : scan cs j (byteOffset cs j) i = byteOffset cs i := by
  unfold scan
  split
  · rename_i h
    rw [← byteOffset_add, Nat.add_sub_cancel' h]
  · rename_i h
    have hle : i ≤ j := Nat.le_of_not_le h
    have hsplit : byteOffset cs j = byteOffset cs i + byteCount ((cs.drop i).take (j - i)) := by
      rw [← byteOffset_add, Nat.add_sub_cancel' hle]
    rw [hsplit, Nat.add_sub_cancel]

/-- No character takes less than a byte, so if they take no more bytes than there are characters, each
takes one. -/
theorem byteOffset_of_byteCount (h : byteCount cs = cs.length) (hi : i ≤ cs.length) :
    byteOffset cs i = i := by
  have hmin : ∀ ds : List Char, ds.length ≤ byteCount ds := by
    intro ds
    rw [byteCount_eq_sum]
    have hpos : ∀ n ∈ ds.map Char.utf8Size, 1 ≤ n := by
      intro n hn
      obtain ⟨c, -, rfl⟩ := List.mem_map.mp hn
      exact c.utf8Size_pos
    simpa using List.length_le_sum_of_one_le _ hpos
  have hsplit : byteCount cs = byteOffset cs i + byteCount (cs.drop i) := by
    rw [byteOffset, ← byteCount_append, List.take_append_drop]
  have htake := hmin (cs.take i)
  have hdrop := hmin (cs.drop i)
  rw [List.length_take, min_eq_left hi] at htake
  rw [List.length_drop] at hdrop
  unfold byteOffset at hsplit ⊢
  omega

theorem Text.byteOffset_of_isAscii (ht : t.isAscii = true) (hi : i ≤ t.charCount) :
    byteOffset t.content.toList i = i := by
  refine byteOffset_of_byteCount ?_ (by rwa [String.length_toList])
  rw [byteCount_toList, String.length_toList]
  exact (beq_iff_eq.mp ht).symm

/-! ## The cache -/

namespace OffsetCache

variable {c : OffsetCache} {r q : Handle} {e : KnownOffset} {texts texts' : Handle → Option Text}

/-- Of a known offset and another entry the one that is nearer. -/
def nearer (i : ℕ) (best : Option KnownOffset) (e : KnownOffset) : Option KnownOffset :=
  match best with
  | none => some e
  | some b => if distance e.character i < distance b.character i then some e else best

theorem nearest?_eq : c.nearest? r i = (c.entries.filter (·.string = r)).foldl (nearer i) none :=
  rfl

theorem nearer_cases (best : Option KnownOffset) :
    nearer i best e = some e ∨ nearer i best e = best ∧ best ≠ none := by
  unfold nearer
  split
  · exact .inl rfl
  · split
    · exact .inl rfl
    · exact .inr ⟨rfl, by simp⟩

theorem mem_of_foldl_nearer {l : List KnownOffset} {best : Option KnownOffset}
    (h : l.foldl (nearer i) best = some e) : e ∈ l ∨ best = some e := by
  induction l generalizing best with
  | nil => exact .inr h
  | cons x l ih =>
    rcases ih h with hl | hx
    · exact .inl (List.mem_cons_of_mem _ hl)
    · rcases nearer_cases (i := i) (e := x) best with he | ⟨he, -⟩
      · rw [he] at hx
        cases hx
        exact .inl List.mem_cons_self
      · exact .inr (he ▸ hx)

theorem foldl_nearer_ne_none {l : List KnownOffset} {best : Option KnownOffset} (h : best ≠ none) :
    l.foldl (nearer i) best ≠ none := by
  induction l generalizing best with
  | nil => exact h
  | cons x l ih =>
    refine ih ?_
    rcases nearer_cases (i := i) (e := x) best with he | ⟨he, hne⟩
    · simp [he]
    · rwa [he]

/-- The nearest entry of a string is an entry of it. -/
theorem mem_of_nearest? (h : c.nearest? r i = some e) : e ∈ c.entries ∧ e.string = r := by
  have hmem := (mem_of_foldl_nearer h).resolve_right (by simp)
  simpa using hmem

/-- If no entry of a string is found there is none. -/
theorem nearest?_eq_none (h : c.nearest? r i = none) (he : e ∈ c.entries) : e.string ≠ r := by
  intro hr
  rw [nearest?_eq] at h
  cases hl : c.entries.filter (·.string = r) with
  | nil => exact absurd (List.mem_filter.mpr ⟨he, by simpa using hr⟩) (hl ▸ List.not_mem_nil)
  | cons x l =>
    rw [hl, List.foldl_cons] at h
    exact foldl_nearer_ne_none (by simp [nearer]) h

/-- All entries are true of live strings. There is one for each at most, and not too many. -/
structure Tells (c : OffsetCache) (texts : Handle → Option Text) : Prop where
  room : c.entries.length ≤ c.capacity
  once : (c.entries.map KnownOffset.string).Nodup
  right : ∀ e ∈ c.entries, ∃ t, texts e.string = some t ∧ e.character ≤ t.charCount ∧
    e.byte = byteOffset t.content.toList e.character

namespace Tells

theorem empty : (OffsetCache.empty n).Tells texts where
  room := Nat.zero_le _
  once := List.nodup_nil
  right := fun _ he => by cases he

/-- Entries stay true as long as the strings are there. -/
theorem mono (hc : c.Tells texts) (h : ∀ e ∈ c.entries, ∀ t, texts e.string = some t →
    texts' e.string = some t) : c.Tells texts' where
  room := hc.room
  once := hc.once
  right e he := by
    obtain ⟨t, ht, htrue⟩ := hc.right e he
    exact ⟨t, h e he t ht, htrue⟩

/-- Fewer entries are as true. -/
theorem sublist (hc : c.Tells texts) {entries : List KnownOffset} (h : entries.Sublist c.entries) :
    Tells { c with entries := entries } texts where
  room := h.length_le.trans hc.room
  once := hc.once.sublist (h.map _)
  right e he := hc.right e (h.subset he)

theorem flush (hc : c.Tells texts) : c.flush.Tells texts' :=
  (hc.sublist (List.nil_sublist _)).mono fun _ he => by cases he

/-- A string is forgotten when it is gone. -/
theorem remove (hc : c.Tells texts) : (c.remove r).Tells (Function.update texts r none) := by
  refine (hc.sublist List.filter_sublist).mono fun e he t ht => ?_
  have hne : e.string ≠ r := by simpa using (List.mem_filter.mp he).2
  rwa [Function.update_of_ne hne]

/-- An offset is remembered. -/
theorem record (hc : c.Tells texts) (hr : texts r = some t) (hi : i ≤ t.charCount) :
    (c.record r i (byteOffset t.content.toList i)).Tells texts := by
  unfold OffsetCache.record
  split
  · exact hc
  rename_i hcapacity
  -- Of the entries that are kept none is of the same string, and there is room for one more.
  have hkept : ∀ kept : List KnownOffset, kept.Sublist c.entries → kept.length < c.capacity →
      (∀ e ∈ kept, e.string ≠ r) →
      Tells { c with entries := ⟨r, i, byteOffset t.content.toList i⟩ :: kept } texts := by
    intro kept hsub hlength hother
    have hrest := hc.sublist hsub
    refine ⟨hlength, List.nodup_cons.mpr ⟨?_, hrest.once⟩, fun e he => ?_⟩
    · intro hmem
      obtain ⟨e, he, hstring⟩ := List.mem_map.mp hmem
      exact hother e he hstring
    · rcases List.mem_cons.mp he with rfl | he
      · exact ⟨t, hr, hi, rfl⟩
      · exact hrest.right e he
  cases hnear : c.nearest? r i with
  | some old =>
    obtain ⟨hold, hstring⟩ := mem_of_nearest? hnear
    have hlength := List.length_erase_of_mem hold
    have hpos := List.length_pos_of_mem hold
    have hroom := hc.room
    refine hkept _ List.erase_sublist (by dsimp only; omega) fun e he hsame => ?_
    have hmem : e ∈ c.entries := List.mem_of_mem_erase he
    have heq : e = old := List.inj_on_of_nodup_map hc.once hmem hold (hsame.trans hstring.symm)
    exact (hc.once.of_map _).not_mem_erase (heq ▸ he)
  | none =>
    have hother : ∀ e ∈ c.entries, e.string ≠ r := fun e => nearest?_eq_none hnear
    have hroom := hc.room
    dsimp only
    split
    · rename_i hfull
      refine hkept _ (List.dropLast_sublist _) ?_ fun e he => hother e (List.dropLast_subset _ he)
      rw [List.length_dropLast]
      omega
    · rename_i hfull
      exact hkept _ (List.Sublist.refl _) (by omega) hother

/-- Whatever is known of a string, a scan for a character may start from there. -/
theorem right_of_nearest? (hc : c.Tells texts) (hr : texts r = some t) (h : c.nearest? r i = some e) :
    e.byte = byteOffset t.content.toList e.character := by
  obtain ⟨hmem, rfl⟩ := mem_of_nearest? h
  obtain ⟨t', ht', -, htrue⟩ := hc.right e hmem
  rw [hr] at ht'
  cases ht'
  exact htrue

end Tells

end OffsetCache

end CountedHeap
