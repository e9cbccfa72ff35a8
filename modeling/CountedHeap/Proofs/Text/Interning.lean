import CountedHeap.Proofs.Bags
import CountedHeap.Text.Basic

/-!
# The entries of an intern table

An intern table is sound if every entry is in the bucket of its hash and the entries are counted. A
sound table finds all entries with a hash, and adding and removing an entry does so to the bag of
entries, however often the number of buckets is doubled.

* `InternTable.Sound`: what every table satisfies.
* `Sound.mem_candidates`: a look-up goes through the entries with a hash.
* `Sound.insert`, `Sound.remove`: one entry more, one entry less.
-/

namespace CountedHeap.InternTable

variable {t : InternTable} {hash : UInt32} {r : Handle} {e : UInt32 × Handle} {i b : ℕ}
  {buckets : Array (Array (UInt32 × Handle))} {es : Array (UInt32 × Handle)}
  {l : List (UInt32 × Handle)}

/-- The entries of some buckets, one bucket after the other. -/
def contents (buckets : Array (Array (UInt32 × Handle))) : List (UInt32 × Handle) :=
  buckets.toList.flatMap Array.toList

/-- All entries of a table. -/
def entries (t : InternTable) : List (UInt32 × Handle) :=
  contents t.buckets

/-- Every entry is in the bucket of its hash. -/
def Placed (buckets : Array (Array (UInt32 × Handle))) : Prop :=
  ∀ (b : ℕ) es, buckets[b]? = some es → ∀ e ∈ es, e.1.toNat % buckets.size = b

/-- What every table satisfies. -/
structure Sound (t : InternTable) : Prop where
  buckets : 0 < t.buckets.size
  placed : Placed t.buckets
  count : t.count = t.entries.length

theorem contents_replicate (n : ℕ) : contents (Array.replicate n #[]) = [] := by
  simp [contents]

theorem placed_replicate (n : ℕ) : Placed (Array.replicate n #[]) := by
  intro b es hb e he
  rw [Array.getElem?_replicate] at hb
  split at hb
  · cases hb
    simp at he
  · cases hb

theorem Sound.empty : empty.Sound := by
  refine ⟨by simp [InternTable.empty], placed_replicate 256, ?_⟩
  rw [entries, InternTable.empty, contents_replicate]
  rfl

/-! ## Looking up -/

theorem mem_entries : e ∈ t.entries ↔ ∃ (b : ℕ) (es : Array (UInt32 × Handle)),
    t.buckets[b]? = some es ∧ e ∈ es := by
  simp only [entries, contents, List.mem_flatMap, Array.mem_toList_iff, Array.mem_iff_getElem?]
  constructor
  · rintro ⟨es, ⟨b, hb⟩, he⟩
    exact ⟨b, es, hb, he⟩
  · rintro ⟨b, es, hb, he⟩
    exact ⟨es, ⟨b, hb⟩, he⟩

theorem Sound.getElem?_bucket (h : t.Sound) :
    t.buckets[t.bucketOf hash]? = some (t.bucket hash) := by
  have hlt : t.bucketOf hash < t.buckets.size := Nat.mod_lt _ h.buckets
  simp [bucket, Array.getD, hlt]

/-- The entries with a hash are in its bucket. -/
theorem Sound.mem_bucket (h : t.Sound) : (hash, r) ∈ t.bucket hash ↔ (hash, r) ∈ t.entries := by
  rw [mem_entries]
  constructor
  · exact fun he => ⟨_, _, h.getElem?_bucket, he⟩
  · rintro ⟨b, es, hb, he⟩
    obtain rfl : t.bucketOf hash = b := h.placed b es hb _ he
    rw [h.getElem?_bucket] at hb
    cases hb
    exact he

/-- A look-up goes through the entries with its hash. -/
theorem Sound.mem_candidates (h : t.Sound) : r ∈ t.candidates hash ↔ (hash, r) ∈ t.entries := by
  rw [← h.mem_bucket, candidates, List.mem_filterMap]
  constructor
  · rintro ⟨⟨hash', r'⟩, he, hr⟩
    dsimp only at hr
    split at hr
    · rename_i heq
      cases hr
      rw [Array.mem_toList_iff, heq] at he
      exact he
    · cases hr
  · exact fun he => ⟨_, Array.mem_toList_iff.mpr he, by simp⟩

/-! ## Adding -/

theorem size_place : (place buckets e).size = buckets.size := by
  simp [place]

theorem Placed.place (h : Placed buckets) : Placed (place buckets e) := by
  intro b es hb e' he'
  rw [size_place]
  rw [InternTable.place, Array.getElem?_modify] at hb
  split at hb
  · rename_i hi
    obtain ⟨es', hes', rfl⟩ := Option.map_eq_some_iff.mp hb
    rcases Array.mem_push.mp he' with he' | rfl
    · exact h b es' hes' e' he'
    · exact hi
  · exact h b es hb e' he'

/-- An entry is placed in one bucket. -/
theorem contents_place (h : 0 < buckets.size) :
    (contents (place buckets e) : Multiset (UInt32 × Handle)) = contents buckets + {e} := by
  have hlt : e.1.toNat % buckets.size < buckets.size := Nat.mod_lt _ h
  have hb : buckets.toList[e.1.toNat % buckets.size]? = some buckets[e.1.toNat % buckets.size] := by
    simp [hlt]
  have hpush := coe_flatMap_modify Array.toList (·.push e) hb
  have hlist : (place buckets e).toList =
      buckets.toList.modify (e.1.toNat % buckets.size) (·.push e) := by
    simp [InternTable.place]
  rw [← hlist, Array.toList_push, ← Multiset.coe_add, ← add_assoc, add_right_comm] at hpush
  exact add_right_cancel hpush

/-- Entries are placed one after the other. -/
theorem foldl_place (h : 0 < buckets.size) (hp : Placed buckets) :
    (l.foldl place buckets).size = buckets.size ∧ Placed (l.foldl place buckets) ∧
      (contents (l.foldl place buckets) : Multiset (UInt32 × Handle)) = contents buckets + l := by
  induction l generalizing buckets with
  | nil => exact ⟨rfl, hp, by simp⟩
  | cons e l ih =>
    obtain ⟨hsize, hplaced, hcontents⟩ := @ih (place buckets e) (by rwa [size_place]) hp.place
    refine ⟨hsize.trans size_place, hplaced, ?_⟩
    rw [List.foldl_cons, hcontents, contents_place h, add_assoc, Multiset.singleton_add,
      Multiset.cons_coe]

/-- Twice as many buckets hold the same entries. -/
theorem Sound.grow (h : t.Sound) : t.grow.Sound ∧
    (t.grow.entries : Multiset (UInt32 × Handle)) = t.entries := by
  have hpos : 0 < (Array.replicate (2 * t.buckets.size) (#[] : Array (UInt32 × Handle))).size := by
    have := h.buckets
    rw [Array.size_replicate]
    omega
  obtain ⟨hsize, hplaced, hcontents⟩ := foldl_place (l := t.entries) hpos (placed_replicate _)
  rw [contents_replicate, Multiset.coe_nil, zero_add] at hcontents
  refine ⟨⟨?_, hplaced, ?_⟩, hcontents⟩
  · exact hsize.symm ▸ hpos
  · exact h.count.trans (congrArg Multiset.card hcontents).symm

/-- One entry more. -/
theorem Sound.insert (h : t.Sound) (hash : UInt32) (r : Handle) : (t.insert hash r).Sound ∧
    ((t.insert hash r).entries : Multiset (UInt32 × Handle)) = t.entries + {(hash, r)} := by
  have hroom : ∃ t' : InternTable, t' = (if t.count + 1 > 2 * t.buckets.size then t.grow else t) ∧
      t'.Sound ∧ (t'.entries : Multiset (UInt32 × Handle)) = t.entries := by
    refine ⟨_, rfl, ?_⟩
    split
    · exact h.grow
    · exact ⟨h, rfl⟩
  obtain ⟨t', ht', hs, hentries⟩ := hroom
  have hcontents : ((t.insert hash r).entries : Multiset (UInt32 × Handle)) =
      t'.entries + {(hash, r)} := by
    rw [ht']
    exact contents_place (ht' ▸ hs.buckets)
  refine ⟨⟨?_, ?_, ?_⟩, hcontents.trans (by rw [hentries])⟩
  · rw [InternTable.insert, ← ht']
    exact size_place.symm ▸ hs.buckets
  · rw [InternTable.insert, ← ht']
    exact hs.placed.place
  · have hlen := congrArg Multiset.card hcontents
    rw [Multiset.card_add, Multiset.coe_card, Multiset.coe_card, Multiset.card_singleton] at hlen
    rw [hlen, InternTable.insert, ← ht', hs.count]

/-! ## Removing -/

/-- The last entry takes the place of the one that is taken out. -/
theorem coe_swapRemove (hi : es[i]? = some e) :
    ((swapRemove es i).toList : Multiset (UInt32 × Handle)) + {e} = es.toList := by
  have hlt : i < es.size := (Array.getElem?_eq_some_iff.mp hi).1
  cases hback : es.back? with
  | none =>
    rw [Array.back?_eq_none_iff] at hback
    simp [hback] at hlt
  | some last =>
    have hlist := toList_eq_pop_concat hback
    have hswap : (swapRemove es i).toList = (es.toList.set i last).dropLast := by
      unfold swapRemove
      rw [hback]
      simp
    have hat : es.toList[i]? = some e := by simpa using hi
    rw [hswap, hlist]
    rw [hlist] at hat
    rcases Nat.lt_or_ge i es.pop.toList.length with hin | hend
    · rw [List.getElem?_append_left hin] at hat
      rw [List.set_append_left _ _ hin, List.dropLast_concat]
      have hset := coe_flatMap_set (fun x => [x]) last hat
      rw [← Multiset.coe_add, Multiset.coe_singleton]
      simpa using hset
    · have hsize : es.pop.toList.length = i := by
        simp only [Array.length_toList, Array.size_pop] at hend ⊢
        omega
      rw [List.getElem?_append_right hend, hsize, Nat.sub_self] at hat
      obtain rfl : last = e := by simpa using hat
      rw [List.set_append_right _ _ hend, hsize, Nat.sub_self, List.set_cons_zero,
        List.dropLast_concat, ← Multiset.coe_add, Multiset.coe_singleton]

theorem mem_swapRemove (hi : es[i]? = some e) {e' : UInt32 × Handle} (he : e' ∈ swapRemove es i) :
    e' ∈ es := by
  have hle : ((swapRemove es i).toList : Multiset (UInt32 × Handle)) ≤ es.toList := by
    rw [← coe_swapRemove hi]
    exact Multiset.le_add_right _ _
  simpa using Multiset.mem_of_le hle (Array.mem_toList_iff.mpr he)

/-- One entry less. -/
theorem Sound.remove (h : t.Sound) (he : (hash, r) ∈ t.entries)
    (hone : ∀ hash', (hash', r) ∈ t.entries → hash' = hash) : (t.remove hash r).1.Sound ∧
    ((t.remove hash r).1.entries : Multiset (UInt32 × Handle)) + {(hash, r)} = t.entries := by
  have hbucket : t.buckets[t.bucketOf hash]? = some (t.bucket hash) := h.getElem?_bucket
  cases hfind : (t.bucket hash).findIdx? (fun entry => entry.2 = r) with
  | none =>
    rw [Array.findIdx?_eq_none_iff] at hfind
    simpa using hfind _ (h.mem_bucket.mpr he)
  | some i =>
    obtain ⟨hi, hr, -⟩ := Array.findIdx?_eq_some_iff_getElem.mp hfind
    have hat : (t.bucket hash)[i]? = some (hash, r) := by
      have hmem : (t.bucket hash)[i] ∈ t.entries :=
        mem_entries.mpr ⟨_, _, hbucket, Array.getElem_mem hi⟩
      have hsnd : (t.bucket hash)[i].2 = r := by simpa using hr
      have hfst := hone (t.bucket hash)[i].1 (by rw [← hsnd]; exact hmem)
      rw [Array.getElem?_eq_getElem hi, Option.some.injEq]
      exact Prod.ext hfst hsnd
    have hremove : (t.remove hash r).1 = { t with
        buckets := t.buckets.modify (t.bucketOf hash) (swapRemove · i)
        count := t.count - 1 } := by
      unfold InternTable.remove
      rw [hfind]
    have hcontents : ((t.remove hash r).1.entries : Multiset (UInt32 × Handle)) + {(hash, r)} =
        t.entries := by
      have hmodify := coe_flatMap_modify Array.toList (swapRemove · i)
        (show t.buckets.toList[t.bucketOf hash]? = some (t.bucket hash) by simpa using hbucket)
      rw [← coe_swapRemove hat, add_comm _ {(hash, r)}, ← add_assoc] at hmodify
      rw [hremove]
      simpa [entries, contents] using add_right_cancel hmodify
    refine ⟨⟨?_, ?_, ?_⟩, hcontents⟩
    · rw [hremove]
      simpa using h.buckets
    · intro b es hb e' he'
      rw [hremove] at hb ⊢
      rw [Array.size_modify]
      rw [Array.getElem?_modify] at hb
      split at hb
      · obtain ⟨es', hes', rfl⟩ := Option.map_eq_some_iff.mp hb
        subst b
        rw [hbucket] at hes'
        cases hes'
        exact h.placed _ _ hbucket _ (mem_swapRemove hat he')
      · exact h.placed b es hb e' he'
    · have hlen := congrArg Multiset.card hcontents
      rw [Multiset.card_add, Multiset.coe_card, Multiset.coe_card, Multiset.card_singleton,
        ← h.count] at hlen
      rw [hremove] at hlen ⊢
      dsimp only
      omega

/-- A cell that has no entry is not removed. -/
theorem Sound.remove_of_not_mem (h : t.Sound) (hr : ∀ hash', (hash', r) ∉ t.entries) :
    (t.remove hash r).1 = t := by
  have hfind : (t.bucket hash).findIdx? (fun entry => entry.2 = r) = none := by
    rw [Array.findIdx?_eq_none_iff]
    rintro ⟨hash', r'⟩ he
    rw [decide_eq_false_iff_not]
    rintro rfl
    exact hr hash' (mem_entries.mpr ⟨_, _, h.getElem?_bucket, he⟩)
  unfold InternTable.remove
  rw [hfind]

end CountedHeap.InternTable
