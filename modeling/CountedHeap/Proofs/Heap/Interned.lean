import CountedHeap.Mutation.Strings
import CountedHeap.Proofs.Arena.Slots
import CountedHeap.Proofs.Cell.Edits
import CountedHeap.Proofs.Text.Interning

/-!
# The intern table of a heap

The table of a heap is exact if its entries are the strings, each once and under the hash of its
content, and no two strings have the same content. Then a look-up finds the one string with a content.

* `Arena.texts`: the texts of all strings.
* `Heap.Interned`: the table is exact.
* `Interned.interned?_eq_some`: what a look-up finds.
* `Interned.enter`, `Interned.drop`: a string is made, a string is freed.
* `Interned.count_eq`: strings are counted.
-/

namespace CountedHeap

namespace Arena

variable {a a' : Arena} {r q : Handle} {n m : ℕ} {b c : Body} {t : Text}

/-- The text of the string that a handle names. -/
def texts (a : Arena) (r : Handle) : Option Text :=
  (a.get? r).bind (·.body.text?)

theorem texts_eq_some : a.texts r = some t ↔ ∃ n, a.Holds r n (.string t) := by
  unfold texts
  simp only [Option.bind_eq_some_iff, holds_iff]
  constructor
  · rintro ⟨⟨header, b⟩, hc, ht⟩
    cases b with
    | string t' =>
      cases ht
      exact ⟨_, _, hc, rfl, rfl⟩
    | _ => cases ht
  · rintro ⟨n, c, hc, -, hb⟩
    exact ⟨c, hc, by rw [hb]; rfl⟩

theorem Holds.texts (h : a.Holds r n b) : a.texts r = b.text? := by
  obtain ⟨c, hc, -, rfl⟩ := h.get?
  simp [Arena.texts, hc]

theorem texts_eq_none (h : a.isLive r = false) : a.texts r = none := by
  simp [texts, get?_eq_none_iff.mpr h]

theorem texts_eq_core : a.texts r = (a.core r.index).bind fun x =>
    if x.1 = r.generation then x.2.bind (·.2.text?) else none := by
  unfold texts get? core
  cases a.slots[r.index]? with
  | none => rfl
  | some s =>
    by_cases hg : s.generation = r.generation
    · cases hc : s.cell <;> simp [hg, hc]
    · simp [hg]

theorem texts_of_core (hc : a'.core = a.core) : a'.texts = a.texts := by
  funext r
  rw [texts_eq_core, texts_eq_core, hc]

/-- One cell is another one now, and has the same text if any. -/
theorem texts_update (hr : a.Holds r n b)
    (hc : a'.core = Function.update a.core r.index (some (r.generation, some (m, c))))
    (ht : c.text? = b.text?) : a'.texts = a.texts := by
  funext q
  rw [texts_eq_core, texts_eq_core, hc]
  by_cases hq : q.index = r.index
  · rw [hq, Function.update_self, show a.core r.index = _ from hr]
    simp [ht]
  · rw [Function.update_of_ne hq]

/-- A slot is emptied. -/
theorem texts_free {g : UInt32} (hr : a.Holds r n b)
    (hc : a'.core = Function.update a.core r.index (some (g, none))) :
    a'.texts = Function.update a.texts r none := by
  funext q
  by_cases hqr : q = r
  · subst hqr
    rw [Function.update_self, texts_eq_core, hc, Function.update_self]
    simp
  · rw [Function.update_of_ne hqr, texts_eq_core, hc]
    by_cases hq : q.index = r.index
    · rw [hq, Function.update_self]
      have hdead : a.texts q = none := by
        rw [texts_eq_core, hq, show a.core r.index = _ from hr, Option.bind_some]
        refine if_neg fun hg => hqr ?_
        cases q
        cases r
        simp_all
      simp [hdead]
    · rw [Function.update_of_ne hq, texts_eq_core]

/-- No handle of a vacant slot names a string. -/
theorem texts_of_vacant (hv : a.Vacant r.index) : a.texts r = none := by
  refine texts_eq_none ?_
  by_contra hl
  obtain ⟨n, b, hb⟩ := isLive_iff.mp (by simpa using hl)
  exact hv r.generation (n, b) hb

theorem texts_handleAt_eq_some {i : ℕ} : (∃ t, a.texts (a.handleAt i) = some t) ↔
    (a.cellAt? i).map Cell.kind = some .string := by
  unfold texts
  rw [get?_handleAt]
  cases a.cellAt? i with
  | none => simp
  | some c =>
    obtain ⟨header, b⟩ := c
    cases b <;> simp [Cell.kind, Body.kind, Body.text?]

/-- Slots can be counted by their numbers. -/
theorem countP_slots (p : Option Cell → Bool) : a.slots.toList.countP (fun s => p s.cell) =
    (List.range a.slots.size).countP fun i => p (a.cellAt? i) := by
  have hslots : a.slots.toList.map some = (List.range a.slots.size).map fun i => a.slots[i]? := by
    refine List.ext_getElem (by simp) fun i h₁ h₂ => ?_
    simp at h₁
    simp [h₁]
  have hcount := congrArg (List.countP fun o : Option ArenaSlot => p (o.bind ArenaSlot.cell)) hslots
  rwa [List.countP_map, List.countP_map] at hcount

theorem countOf_eq_countP {k : CellKind} : a.countOf k =
    a.slots.toList.countP fun s => s.cell.map Cell.kind = some k := by
  have hstep : a.countOf k = a.slots.toList.foldl (fun n s =>
      if s.cell.map Cell.kind = some k then n + 1 else n) 0 := by
    rw [countOf, ← Array.foldl_toList]
    congr
    funext n s
    cases s.cell <;> simp
  have hfold : ∀ (l : List ArenaSlot) (n : ℕ), l.foldl (fun n s =>
      if s.cell.map Cell.kind = some k then n + 1 else n) n =
        n + l.countP fun s => s.cell.map Cell.kind = some k := by
    intro l
    induction l with
    | nil => exact fun n => rfl
    | cons s l ih =>
      intro n
      rw [List.foldl_cons, ih, List.countP_cons]
      by_cases hk : s.cell.map Cell.kind = some k
      · simp only [hk, if_true, decide_true]
        omega
      · simp [hk]
  rw [hstep, hfold, Nat.zero_add]

/-- Cells of a kind are counted slot by slot. -/
theorem countOf_eq {k : CellKind} : a.countOf k =
    ((List.range a.slots.size).filter fun i => (a.cellAt? i).map Cell.kind = some k).length := by
  rw [countOf_eq_countP, countP_slots fun c => c.map Cell.kind = some k, List.countP_eq_length_filter]

/-- A cell is placed in a vacant slot. -/
theorem texts_place (hv : a.Vacant r.index)
    (hc : a'.core = Function.update a.core r.index (some (r.generation, some (m, b)))) :
    a'.texts = Function.update a.texts r b.text? := by
  funext q
  by_cases hqr : q = r
  · subst hqr
    rw [Function.update_self, texts_eq_core, hc, Function.update_self]
    simp
  · rw [Function.update_of_ne hqr, texts_eq_core, hc]
    by_cases hq : q.index = r.index
    · rw [hq, Function.update_self, texts_of_vacant (hq ▸ hv), Option.bind_some]
      refine if_neg fun hg => hqr ?_
      cases q
      cases r
      simp_all
    · rw [Function.update_of_ne hq, texts_eq_core]

end Arena

namespace Heap

variable {h h' : Heap} {r q : Handle} {t : Text} {content : String} {hash : UInt32}

/-- The intern table is exact. -/
structure Interned (h : Heap) : Prop where
  table : h.strings.Sound
  entries : ∀ hash r, (hash, r) ∈ h.strings.entries ↔ ∃ t, h.arena.texts r = some t ∧ t.hash = hash
  once : (h.strings.entries.map Prod.snd).Nodup
  distinct : ∀ r r' t t', h.arena.texts r = some t → h.arena.texts r' = some t' →
    t.content = t'.content → r = r'

theorem interned?_text (hr : h.interned? content = some r) :
    ∃ t, h.arena.texts r = some t ∧ t.content = content := by
  unfold interned? InternTable.find? at hr
  have hp := List.find?_some hr
  unfold Arena.texts
  split at hp
  · rename_i header t hc
    exact ⟨t, by rw [hc]; rfl, by simpa using hp⟩
  · cases hp

/-- An interned string is live. -/
theorem live_of_interned (hr : h.interned? content = some r) : h.isLive r = true := by
  obtain ⟨t, ht, -⟩ := interned?_text hr
  obtain ⟨n, hn⟩ := Arena.texts_eq_some.mp ht
  exact hn.isLive

/-- A string that is entered under the hash of its content can be found. -/
theorem interned?_ne_none (hmem : r ∈ h.strings.candidates t.hash) (ht : h.arena.texts r = some t) :
    h.interned? t.content ≠ none := by
  intro hf
  unfold interned? InternTable.find? at hf
  rw [List.find?_eq_none] at hf
  obtain ⟨n, hr⟩ := Arena.texts_eq_some.mp ht
  obtain ⟨⟨header, b⟩, hc, -, hb⟩ := hr.get?
  refine hf r hmem ?_
  obtain rfl : b = .string t := hb
  simp [hc]

namespace Interned

theorem congr (hi : Interned h) (hs : h'.strings = h.strings)
    (ht : h'.arena.texts = h.arena.texts) : Interned h' := by
  obtain ⟨h₁, h₂, h₃, h₄⟩ := hi
  rw [← hs] at h₁ h₂ h₃
  rw [← ht] at h₂ h₄
  exact ⟨h₁, h₂, h₃, h₄⟩

/-- Exactly the strings can be looked up. -/
theorem mem_candidates (hi : Interned h) : r ∈ h.strings.candidates hash ↔
    ∃ t, h.arena.texts r = some t ∧ t.hash = hash :=
  hi.table.mem_candidates.trans (hi.entries hash r)

/-- What a look-up finds. -/
theorem interned?_eq_some (hi : Interned h) : h.interned? content = some r ↔
    ∃ t, h.arena.texts r = some t ∧ t.content = content := by
  refine ⟨interned?_text, ?_⟩
  rintro ⟨t, ht, rfl⟩
  cases hf : h.interned? t.content with
  | none => exact absurd hf (interned?_ne_none (hi.mem_candidates.mpr ⟨t, ht, rfl⟩) ht)
  | some r' =>
    obtain ⟨t', ht', hc⟩ := interned?_text hf
    rw [hi.distinct r' r t' t ht' ht hc]

/-- A string is made whose content is not there, and is entered. -/
theorem enter (hi : Interned h) (hnone : h.interned? t.content = none)
    (hr : h.arena.texts r = none) (hs : h'.strings = h.strings.insert t.hash r)
    (ht : h'.arena.texts = Function.update h.arena.texts r (some t)) : Interned h' := by
  obtain ⟨htable, hentries⟩ := hi.table.insert t.hash r
  rw [← hs] at htable hentries
  have hperm : h'.strings.entries.Perm (h.strings.entries ++ [(t.hash, r)]) :=
    Multiset.coe_eq_coe.mp (by rw [hentries, ← Multiset.coe_add, Multiset.coe_singleton])
  have hnew : ∀ hash, (hash, r) ∉ h.strings.entries := by
    intro hash hmem
    obtain ⟨t', ht', -⟩ := (hi.entries hash r).mp hmem
    rw [hr] at ht'
    cases ht'
  have hfresh : ∀ q t', h.arena.texts q = some t' → t'.content ≠ t.content := by
    intro q t' hq he
    rw [hi.interned?_eq_some.mpr ⟨t', hq, he⟩] at hnone
    cases hnone
  refine ⟨htable, fun hash q => ?_, ?_, fun q q' s s' hq hq' hc => ?_⟩
  · rw [hperm.mem_iff, List.mem_append, List.mem_singleton, ht]
    by_cases hqr : q = r
    · subst hqr
      rw [Function.update_self]
      simp [hnew hash, eq_comm]
    · rw [Function.update_of_ne hqr, hi.entries]
      simp [hqr]
  · rw [(hperm.map Prod.snd).nodup_iff, List.map_append, List.map_singleton]
    refine List.nodup_append.mpr ⟨hi.once, by simp, ?_⟩
    rintro q hq _ hr' rfl
    obtain rfl : q = r := by simpa using hr'
    obtain ⟨⟨hash, q'⟩, hmem, rfl⟩ := List.mem_map.mp hq
    exact hnew hash hmem
  · rw [ht] at hq hq'
    by_cases hqr : q = r <;> by_cases hqr' : q' = r
    · rw [hqr, hqr']
    · subst hqr
      rw [Function.update_self] at hq
      rw [Function.update_of_ne hqr'] at hq'
      cases hq
      exact absurd hc.symm (hfresh q' s' hq')
    · subst hqr'
      rw [Function.update_self] at hq'
      rw [Function.update_of_ne hqr] at hq
      cases hq'
      exact absurd hc (hfresh q s hq)
    · rw [Function.update_of_ne hqr] at hq
      rw [Function.update_of_ne hqr'] at hq'
      exact hi.distinct q q' s s' hq hq' hc

/-- A string is freed, and its entry is removed. -/
theorem drop (hi : Interned h) (hr : h.arena.texts r = some t)
    (hs : h'.strings = (h.strings.remove t.hash r).1)
    (ht : h'.arena.texts = Function.update h.arena.texts r none) : Interned h' := by
  have hmem : (t.hash, r) ∈ h.strings.entries := (hi.entries _ r).mpr ⟨t, hr, rfl⟩
  have hone : ∀ hash, (hash, r) ∈ h.strings.entries → hash = t.hash := by
    intro hash hm
    obtain ⟨t', ht', rfl⟩ := (hi.entries hash r).mp hm
    rw [hr] at ht'
    cases ht'
    rfl
  obtain ⟨htable, hentries⟩ := hi.table.remove hmem hone
  rw [← hs] at htable hentries
  have hperm : (h'.strings.entries ++ [(t.hash, r)]).Perm h.strings.entries :=
    Multiset.coe_eq_coe.mp (by rw [← hentries, ← Multiset.coe_add, Multiset.coe_singleton])
  have hnodup := (hperm.map Prod.snd).nodup_iff.mpr hi.once
  rw [List.map_append, List.map_singleton, List.nodup_append] at hnodup
  have hgone : ∀ hash, (hash, r) ∉ h'.strings.entries := fun hash hm =>
    hnodup.2.2 r (List.mem_map.mpr ⟨_, hm, rfl⟩) r (by simp) rfl
  refine ⟨htable, fun hash q => ?_, hnodup.1, fun q q' s s' hq hq' hc => ?_⟩
  · rw [ht]
    by_cases hqr : q = r
    · subst hqr
      simp [hgone hash]
    · rw [Function.update_of_ne hqr, ← hi.entries, ← hperm.mem_iff, List.mem_append,
        List.mem_singleton, Prod.mk.injEq]
      simp [hqr]
  · have hold : ∀ {q s}, h'.arena.texts q = some s → h.arena.texts q = some s := by
      intro q s hq
      rw [ht] at hq
      by_cases hqr : q = r
      · subst hqr
        simp at hq
      · rwa [Function.update_of_ne hqr] at hq
    exact hi.distinct q q' s s' (hold hq) (hold hq') hc

theorem mem_handles (hi : Interned h) : r ∈ h.strings.entries.map Prod.snd ↔
    ∃ t, h.arena.texts r = some t := by
  rw [List.mem_map]
  constructor
  · rintro ⟨⟨hash, r⟩, hr, rfl⟩
    obtain ⟨t, ht, -⟩ := (hi.entries _ _).mp hr
    exact ⟨t, ht⟩
  · rintro ⟨t, ht⟩
    exact ⟨(t.hash, r), (hi.entries _ _).mpr ⟨t, ht, rfl⟩, rfl⟩

/-- Strings are counted. -/
theorem count_eq (hi : Interned h) : h.strings.count = h.arena.countOf .string := by
  have hindex : ((h.strings.entries.map Prod.snd).map Handle.index).Nodup := by
    refine hi.once.map_on fun r hr q hq he => ?_
    obtain ⟨t, ht⟩ := hi.mem_handles.mp hr
    obtain ⟨t', ht'⟩ := hi.mem_handles.mp hq
    obtain ⟨n, hn⟩ := Arena.texts_eq_some.mp ht
    obtain ⟨m, hm⟩ := Arena.texts_eq_some.mp ht'
    exact hn.eq_of_index hm he
  have hperm : ((h.strings.entries.map Prod.snd).map Handle.index).Perm
      ((List.range h.arena.slots.size).filter fun i =>
        (h.arena.cellAt? i).map Cell.kind = some .string) := by
    refine (List.perm_ext_iff_of_nodup hindex (List.nodup_range.filter _)).mpr fun i => ?_
    rw [List.mem_filter, decide_eq_true_iff, ← Arena.texts_handleAt_eq_some, List.mem_range]
    constructor
    · intro hr
      obtain ⟨r, hnamed, rfl⟩ := List.mem_map.mp hr
      obtain ⟨t, ht⟩ := hi.mem_handles.mp hnamed
      obtain ⟨n, hn⟩ := Arena.texts_eq_some.mp ht
      obtain ⟨c, hc, -⟩ := hn.get?
      obtain ⟨slot, hslot, -⟩ := Arena.get?_eq_some_iff.mp hc
      exact ⟨(Array.getElem?_eq_some_iff.mp hslot).1, t, by rwa [hn.handleAt]⟩
    · rintro ⟨-, ht⟩
      exact List.mem_map.mpr ⟨h.arena.handleAt i, hi.mem_handles.mpr ht, rfl⟩
  rw [hi.table.count, Arena.countOf_eq, ← hperm.length_eq, List.length_map, List.length_map]

theorem empty (config : Config) : Interned (.empty config) := by
  have hnone : ∀ r, (Heap.empty config).arena.texts r = none := by
    simp [Heap.empty, Arena.empty, Arena.texts, Arena.get?]
  have hnil : (Heap.empty config).strings.entries = [] :=
    InternTable.contents_replicate 256
  refine ⟨InternTable.Sound.empty, fun hash r => ?_, by simp [hnil], fun r r' t t' ht => ?_⟩
  · simp [hnil, hnone]
  · rw [hnone] at ht
    cases ht

end Interned

end Heap

end CountedHeap
