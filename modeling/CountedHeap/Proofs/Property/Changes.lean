import CountedHeap.Proofs.Bags
import CountedHeap.Proofs.Property.Chains

/-!
# Storing and deleting properties

What a store and a deletion do to the properties of a table, taken as a bag, and that both leave a
valid table behind.

* `Valid.set`, `Valid.delete`: the table stays valid.
* `refs_set_replaced`, `refs_set_inserted`, `refs_delete`: the references that a table holds, before
  and after.
-/

namespace CountedHeap

theorem modify_eq_set {α : Type} {xs : Array α} {i : ℕ} {x : α} {f : α → α} (h : xs[i]? = some x) :
    xs.modify i f = xs.setIfInBounds i (f x) := by
  apply Array.ext_getElem?
  intro j
  rw [Array.getElem?_modify, Array.getElem?_setIfInBounds]
  by_cases hij : i = j
  · subst hij
    obtain ⟨hi, hx⟩ := Array.getElem?_eq_some_iff.mp h
    simp [hi, hx]
  · simp [hij]

/-- What a place adds to the properties of a table. -/
def Property.entry (p : Property) : List (Handle × Slot) :=
  (p.key.map (·, p.slot)).toList

namespace PropertyTable

variable {t : PropertyTable} {free : List ℕ} {chain : ℕ → List ℕ} {linked : ℕ → Prop}
  {i j : ℕ} {key k : Handle} {slot : Slot} {p q : Property}

/-! ## Properties as a bag -/

theorem toList_eq_flatMap : t.toList = t.places.toList.flatMap Property.entry := by
  unfold toList
  rw [List.filterMap_eq_flatMap_toList]
  rfl

/-- One place is overwritten. -/
theorem toList_setIfInBounds {t' : PropertyTable} (h : t.places[i]? = some p)
    (he : t'.places = t.places.setIfInBounds i q) :
    (t'.toList : Multiset (Handle × Slot)) + p.entry = t.toList + q.entry := by
  rw [toList_eq_flatMap, toList_eq_flatMap, he, Array.toList_setIfInBounds]
  exact coe_flatMap_set _ _ (by simpa using h)

theorem mem_toList_iff : (k, slot) ∈ t.toList ↔ ∃ i, t.contentAt i = some (some k, slot) := by
  unfold contentAt
  simp only [toList, List.mem_filterMap, Array.mem_toList_iff, Array.mem_iff_getElem?,
    Option.map_eq_some_iff, Prod.mk.injEq]
  constructor
  · rintro ⟨p, ⟨i, hi⟩, k', hk, rfl, rfl⟩
    exact ⟨i, p, hi, hk, rfl⟩
  · rintro ⟨i, p, hi, hk, rfl⟩
    exact ⟨p, ⟨i, hi⟩, k, hk, rfl, rfl⟩

theorem mem_keys_iff : k ∈ t.toList.map Prod.fst ↔ ∃ i, t.keyAt i = some k := by
  simp only [List.mem_map, Prod.exists, exists_and_right, exists_eq_right, mem_toList_iff,
    keyAt_eq_bind]
  constructor
  · rintro ⟨slot, i, hi⟩
    exact ⟨i, by simp [hi]⟩
  · rintro ⟨i, hi⟩
    obtain ⟨⟨k', slot⟩, hc, hk⟩ := Option.bind_eq_some_iff.mp hi
    exact ⟨slot, i, by rw [hc]; simpa using hk⟩

/-- The references of a bag of properties. -/
theorem coe_refs : (t.refs : Multiset Handle) =
    (t.toList.flatMap fun x => x.1 :: x.2.refs : List Handle) := rfl

/-- Tables whose properties differ by some differ by the references of these. -/
theorem refs_of_toList {t' : PropertyTable} {l m : List (Handle × Slot)}
    (h : (t'.toList : Multiset (Handle × Slot)) + l = t.toList + m) :
    (t'.refs : Multiset Handle) + (l.flatMap fun x => x.1 :: x.2.refs : List Handle) =
      (t.refs : Multiset Handle) + (m.flatMap fun x => x.1 :: x.2.refs : List Handle) := by
  rw [Multiset.coe_add, Multiset.coe_add, Multiset.coe_eq_coe] at h
  rw [coe_refs, coe_refs, ← coe_flatMap_append, ← coe_flatMap_append, Multiset.coe_eq_coe]
  exact h.flatMap_right _

/-! ## Looking up -/

/-- What a look-up finds: a place of the chain of the key, with the place before it. -/
theorem Chained.locate?_eq_some {before : Option ℕ} (h : t.Chained linked chain free)
    (hf : t.locate? key = some (before, i)) :
    ∃ l₁ l₂ p, chain (t.bucketOf key) = l₁ ++ i :: l₂ ∧ before = l₁.getLast? ∧
      t.places[i]? = some p ∧ p.key = some key := by
  unfold locate? at hf
  split at hf
  · cases hf
  · obtain ⟨l₁, l₂, p, hc, hb, hp, hk⟩ := locateFrom_eq_some (h.path (t.bucketOf key)) hf
    exact ⟨l₁, l₂, p, hc, by simpa using hb, hp, hk⟩

theorem Valid.locate?_eq_some {before : Option ℕ} (h : t.Valid)
    (hf : t.locate? key = some (before, i)) : ∃ p, t.places[i]? = some p ∧ p.key = some key := by
  obtain ⟨chain, free, hc⟩ := h.chained
  obtain ⟨-, -, p, -, -, hp, hk⟩ := hc.locate?_eq_some hf
  exact ⟨p, hp, hk⟩

/-- A key that is not found is not there. -/
theorem Valid.locate?_eq_none (h : t.Valid) (hf : t.locate? key = none) :
    key ∉ t.toList.map Prod.fst := by
  intro hm
  obtain ⟨i, hi⟩ := mem_keys_iff.mp hm
  obtain ⟨chain, free, hc⟩ := h.chained
  have hpos : t.count ≠ 0 := by
    rw [h.count]
    intro h0
    rw [List.eq_nil_of_length_eq_zero h0] at hm
    cases hm
  unfold locate? at hf
  rw [if_neg hpos] at hf
  exact locateFrom_ne_none (hc.path (t.bucketOf key)) (hc.length_le _)
    ((hc.mem _ i).mpr ⟨trivial, key, hi, rfl⟩) hi hf

/-! ## Storing -/

/-- Chains look at keys and at where places lead, not at contents. -/
theorem Chained.of_places {places : Array Property} (h : t.Chained linked chain free)
    (he : ∀ j : ℕ, (places[j]?).map (fun p : Property => (p.key, p.next)) =
      (t.places[j]?).map (fun p : Property => (p.key, p.next))) :
    ({ t with places := places } : PropertyTable).Chained linked chain free := by
  have hnext : ∀ j : ℕ, (places[j]?).map (·.next) = (t.places[j]?).map (·.next) := by
    intro j
    have := congrArg (Option.map Prod.snd) (he j)
    simpa [Function.comp_def] using this
  have hkey : ∀ j : ℕ, (places[j]?).map (·.key) = (t.places[j]?).map (·.key) := by
    intro j
    have := congrArg (Option.map Prod.fst) (he j)
    simpa [Function.comp_def] using this
  refine ⟨h.buckets, fun b => (h.path b).congr fun j _ => hnext j, h.nodup, ?_,
    h.freePath.congr fun j _ => hnext j, h.freeNodup, ?_⟩
  · intro b j
    rw [h.mem]
    have hk : ({ t with places := places } : PropertyTable).keyAt j = t.keyAt j := by
      have := hkey j
      unfold keyAt
      cases hp : t.places[j]? <;> cases hq : places[j]? <;> simp_all
    rw [hk]
    rfl
  · intro j
    rw [h.freeMem]
    have := hkey j
    cases hp : t.places[j]? <;> cases hq : places[j]? <;> simp_all

/-- The keys, in the order of the places. -/
theorem keys_eq : t.toList.map Prod.fst = (t.places.toList.map (·.key)).filterMap id := by
  simp [toList, List.map_filterMap, List.filterMap_map, Function.comp_def]

/-- New contents of a property touch neither its key nor where its chain goes on. -/
theorem key_next_setIfInBounds (hp : t.places[i]? = some p) (slot : Slot) (j : ℕ) :
    ((t.places.setIfInBounds i { p with slot := slot })[j]?).map
      (fun p : Property => (p.key, p.next)) =
      (t.places[j]?).map (fun p : Property => (p.key, p.next)) := by
  have hi := (Array.getElem?_eq_some_iff.mp hp).1
  rw [Array.getElem?_setIfInBounds]
  by_cases hij : i = j
  · subst hij
    rw [if_pos rfl, if_pos hi, hp]
    rfl
  · rw [if_neg hij]

theorem set_of_locate? {before : Option ℕ} (hf : t.locate? key = some (before, i))
    (hp : t.places[i]? = some p) : t.set key slot =
      ({ t with places := t.places.setIfInBounds i { p with slot := slot } }, .replaced p.slot) := by
  unfold PropertyTable.set
  rw [hf]
  dsimp only
  rw [modify_eq_set hp, hp, Option.map_some, Option.getD_some]

/-- A store over an old property leaves every place on its chain. -/
theorem Chained.replace {before : Option ℕ} (h : t.Chained linked chain free)
    (hf : t.locate? key = some (before, i)) :
    (t.set key slot).1.Chained linked chain free := by
  obtain ⟨-, -, p, -, -, hp, -⟩ := h.locate?_eq_some hf
  rw [set_of_locate? hf hp]
  exact h.of_places (key_next_setIfInBounds hp slot)

/-- A store over an old property. -/
theorem Valid.replace {before : Option ℕ} (h : t.Valid)
    (hf : t.locate? key = some (before, i)) : (t.set key slot).1.Valid := by
  obtain ⟨p, hp, -⟩ := h.locate?_eq_some hf
  have hkeys : (t.set key slot).1.toList.map Prod.fst = t.toList.map Prod.fst := by
    rw [set_of_locate? hf hp, keys_eq, keys_eq]
    congr 1
    apply List.ext_getElem?
    intro j
    have := congrArg (Option.map Prod.fst) (key_next_setIfInBounds hp slot j)
    rw [List.getElem?_map, List.getElem?_map, Array.getElem?_toList, Array.getElem?_toList]
    simpa only [Option.map_map, Function.comp_def] using this
  obtain ⟨chain, free, hc⟩ := h.chained
  refine ⟨⟨chain, free, hc.replace hf⟩, by rw [hkeys]; exact h.keys, ?_⟩
  rw [← List.length_map (f := Prod.fst), hkeys, List.length_map, ← h.count, set_of_locate? hf hp]

/-- A new property that is on no chain yet, and its place: the first free one, or the one after the
others. -/
def seat (t : PropertyTable) (key : Handle) (slot : Slot) : ℕ × PropertyTable :=
  match t.free with
  | some i =>
    (i, { t with
      count := t.count + 1
      free := (t.places[i]?).bind (·.next)
      places := t.places.setIfInBounds i ⟨some key, slot, none⟩ })
  | none =>
    (t.places.size, { t with
      count := t.count + 1
      places := t.places.push ⟨some key, slot, none⟩ })

/-- Room for one more property. -/
def roomy (t : PropertyTable) : PropertyTable :=
  if t.crowded then t.grow else t

theorem insert_eq :
    t.insert key slot = (t.roomy.seat key slot).2.link (t.roomy.seat key slot).1 := by
  unfold PropertyTable.insert seat
  dsimp only
  rw [← roomy]
  cases hf : t.roomy.free <;> simp [← hf]

@[simp] theorem row_roomy : t.roomy.row = t.row := by
  unfold roomy
  split <;> simp

@[simp] theorem count_roomy : t.roomy.count = t.count := by
  unfold roomy
  split <;> simp

theorem Chained.roomy (h : t.Chained (fun _ => True) chain free) :
    ∃ chain', t.roomy.Chained (fun _ => True) chain' free := by
  unfold PropertyTable.roomy
  split
  · exact h.grow
  · exact ⟨chain, h⟩

/-- A place that was free, or the one after the others, gets a property. -/
theorem Chained.fill {t' : PropertyTable} (h : t.Chained (fun _ => True) chain free)
    (hi : t.keyAt i = none) (hbuckets : t'.buckets = t.buckets)
    (hat : t'.keyAt i ≠ none) (hother : ∀ j ≠ i, t'.places[j]? = t.places[j]?)
    {m : List ℕ} (hfree : Path t.places t'.free m) (hsub : ∀ j, j ∈ m ↔ j ∈ free ∧ j ≠ i)
    (hfnd : m.Nodup) : t'.Chained (fun j => j ≠ i) chain m := by
  have hnotin : ∀ b, i ∉ chain b := by
    intro b hm
    obtain ⟨-, k, hk, -⟩ := (h.mem b i).mp hm
    rw [hi] at hk
    cases hk
  have hkeyAt : ∀ j ≠ i, t'.keyAt j = t.keyAt j := by
    intro j hj
    unfold keyAt
    rw [hother j hj]
  refine ⟨hbuckets ▸ h.buckets, ?_, h.nodup, ?_, hfree.of_others ?_ hother, hfnd, ?_⟩
  · intro b
    rw [hbuckets]
    exact (h.path b).of_others (hnotin b) hother
  · intro b j
    have hb : ∀ k, t'.bucketOf k = t.bucketOf k := fun k => bucketOf_congr (by rw [hbuckets])
    by_cases hj : j = i
    · subst hj
      simp [hnotin b]
    · rw [h.mem, hkeyAt j hj]
      simp [hj, hb]
  · intro hm
    exact ((hsub i).mp hm).2 rfl
  · intro j
    by_cases hj : j = i
    · subst hj
      obtain ⟨k, hk⟩ := Option.ne_none_iff_exists'.mp hat
      obtain ⟨p, hp, hpk⟩ := keyAt_eq_some.mp hk
      simp [hsub, hp, hpk]
    · rw [hsub, h.freeMem, hother j hj]
      simp [hj]

/-- The first free place is at the head of the free ones, and nothing stands there. -/
theorem Chained.first_free (h : t.Chained linked chain free) (hf : t.free = some i) :
    ∃ rest p, free = i :: rest ∧ t.places[i]? = some p ∧ p.key = none ∧
      Path t.places p.next rest := by
  have hpath := h.freePath
  rw [hf] at hpath
  cases hfl : free with
  | nil =>
    rw [hfl] at hpath
    cases hpath
  | cons j rest =>
    rw [hfl] at hpath
    obtain ⟨he, p, hp, hrest⟩ := hpath
    cases he
    obtain ⟨q, hq, hqn⟩ := (h.freeMem i).mp (by simp [hfl])
    rw [hp] at hq
    cases hq
    exact ⟨rest, p, rfl, hp, hqn, hrest⟩

theorem Chained.none_free (h : t.Chained linked chain free) (hf : t.free = none) : free = [] := by
  have hpath := h.freePath
  rw [hf] at hpath
  cases free with
  | nil => rfl
  | cons j rest => simp [Path] at hpath

theorem Chained.seat (h : t.Chained (fun _ => True) chain free) (key : Handle) (slot : Slot) :
    (t.seat key slot).2.Chained (fun j => j ≠ (t.seat key slot).1) chain free.tail := by
  unfold PropertyTable.seat
  cases hf : t.free with
  | none =>
    dsimp only
    obtain rfl := h.none_free hf
    refine h.fill (m := []) ?_ ?_ ?_ (fun j hj => ?_) ?_ ?_ ?_
    · simp [keyAt]
    · rfl
    · simp [keyAt]
    · simp only [Array.getElem?_push, if_neg hj]
    · rfl
    · simp
    · simp
  | some i =>
    dsimp only
    obtain ⟨rest, p, rfl, hp, hpn, hrest⟩ := h.first_free hf
    have hnd := List.nodup_cons.mp h.freeNodup
    refine h.fill (m := rest) ?_ ?_ ?_ (fun j hj => ?_) ?_ (fun j => ?_) hnd.2
    · simp [keyAt, hp, hpn]
    · rfl
    · simp [keyAt, (Array.getElem?_eq_some_iff.mp hp).1]
    · simp [Ne.symm hj]
    · simpa [hp] using hrest
    · rw [List.mem_cons]
      constructor
      · intro hj
        exact ⟨.inr hj, fun e => hnd.1 (e ▸ hj)⟩
      · rintro ⟨hj, hne⟩
        exact hj.resolve_left hne

/-- Whatever is stored, the free places but the first stay free. -/
theorem Chained.insert (h : t.Chained (fun _ => True) chain free) (key : Handle) (slot : Slot) :
    ∃ chain', (t.insert key slot).Chained (fun _ => True) chain' free.tail := by
  obtain ⟨chain₁, h₁⟩ := h.roomy
  obtain ⟨chain', h'⟩ := (h₁.seat key slot).link (i := (t.roomy.seat key slot).1) (by simp)
  rw [insert_eq]
  exact ⟨chain', h'.congr fun j _ _ => by tauto⟩

@[simp] theorem count_insert : (t.insert key slot).count = t.count + 1 := by
  rw [insert_eq, count_link, ← count_roomy (t := t)]
  unfold seat
  cases t.roomy.free <;> rfl

/-- A new property takes the first free place, or stands after the others. -/
theorem Chained.row_insert (h : t.Chained (fun _ => True) chain free) :
    (t.insert key slot).row = match free.head? with
      | some i => t.row.set i (some (key, slot))
      | none => t.row ++ [some (key, slot)] := by
  obtain ⟨chain₁, h₁⟩ := h.roomy
  rw [insert_eq, row_link, ← row_roomy (t := t)]
  unfold PropertyTable.seat
  cases hf : t.roomy.free with
  | none => simp [h₁.none_free hf, row]
  | some i =>
    obtain ⟨rest, p, rfl, -⟩ := h₁.first_free hf
    simp [row]

/-- A property with a new key. -/
theorem Valid.insert (h : t.Valid) (hnew : key ∉ t.toList.map Prod.fst) :
    (t.insert key slot).Valid ∧
      ((t.insert key slot).toList : Multiset (Handle × Slot)) = t.toList + [(key, slot)] := by
  obtain ⟨chain, free, hc⟩ := h.chained
  have hlist : ((t.insert key slot).toList : Multiset (Handle × Slot)) =
      t.toList + [(key, slot)] := by
    simp only [toList_eq_filterMap, hc.row_insert, List.filterMap_eq_flatMap_toList]
    cases free with
    | nil => simp [← Multiset.coe_add]
    | cons i rest =>
      obtain ⟨p, hp, hpn⟩ := (hc.freeMem i).mp (by simp)
      have hrow : t.row[i]? = some none := by simp [row, hp, hpn]
      simpa using coe_flatMap_set Option.toList (some (key, slot)) hrow
  have hperm : ((t.insert key slot).toList).Perm (t.toList ++ [(key, slot)]) :=
    Multiset.coe_eq_coe.mp hlist
  obtain ⟨chain', hc'⟩ := hc.insert key slot
  refine ⟨⟨⟨chain', free.tail, hc'⟩, ?_, ?_⟩, hlist⟩
  · rw [(hperm.map Prod.fst).nodup_iff, List.map_append]
    exact List.nodup_append.mpr ⟨h.keys, by simp, by
      rintro a ha b hb rfl
      obtain rfl : a = key := by simpa using hb
      exact hnew ha⟩
  · rw [hperm.length_eq, List.length_append, ← h.count]
    exact count_insert

/-- A table stays valid when a property is stored. -/
theorem Valid.set (h : t.Valid) : (t.set key slot).1.Valid := by
  cases hf : t.locate? key with
  | none =>
    unfold PropertyTable.set
    rw [hf]
    exact (h.insert (h.locate?_eq_none hf)).1
  | some x => exact h.replace hf

/-! ## Deleting -/

/-- The chain of a bucket leads past the place after `before`. -/
def bypass (t : PropertyTable) (b : ℕ) (before next : Option ℕ) : PropertyTable :=
  match before with
  | some j => { t with places := t.places.modify j ({ · with next := next }) }
  | none => { t with buckets := t.buckets.setIfInBounds b next }

/-- A place becomes the first free one. -/
def clear (t : PropertyTable) (i : ℕ) : PropertyTable :=
  { t with
    count := t.count - 1
    free := some i
    places := t.places.setIfInBounds i ⟨none, .data .undefined, t.free⟩ }

variable {b : ℕ} {before next : Option ℕ}

@[simp] theorem count_bypass : (t.bypass b before next).count = t.count := by
  cases before <;> rfl

@[simp] theorem free_bypass : (t.bypass b before next).free = t.free := by
  cases before <;> rfl

@[simp] theorem size_buckets_bypass : (t.bypass b before next).buckets.size = t.buckets.size := by
  cases before <;> simp [bypass]

@[simp] theorem contentAt_bypass : (t.bypass b before next).contentAt = t.contentAt := by
  cases before with
  | none => rfl
  | some j =>
    funext m
    unfold contentAt bypass
    dsimp only
    rw [Array.getElem?_modify]
    by_cases hjm : j = m
    · subst hjm
      simp [Function.comp_def]
    · rw [if_neg hjm]

@[simp] theorem count_clear : (t.clear i).count = t.count - 1 := rfl

@[simp] theorem buckets_clear : (t.clear i).buckets = t.buckets := rfl

theorem delete_of_locate? (hf : t.locate? key = some (before, i)) (hp : t.places[i]? = some p) :
    t.delete key = ((t.bypass (t.bucketOf key) before p.next).clear i, some (key, p.slot)) := by
  unfold PropertyTable.delete clear
  rw [hf]
  dsimp only
  rw [hp, free_bypass]
  cases before <;> rfl

theorem contentAt_clear (hi : i < t.places.size) : (t.clear i).contentAt j =
    if j = i then some (none, .data .undefined) else t.contentAt j := by
  unfold contentAt clear
  dsimp only
  rw [Array.getElem?_setIfInBounds]
  by_cases hij : i = j
  · subst hij
    simp [hi]
  · rw [if_neg hij, if_neg (Ne.symm hij)]

/-- Of the paths, only the chain of the bucket is another one. -/
theorem Chained.paths_bypass {l₁ l₂ : List ℕ} (h : t.Chained linked chain free)
    (hl : chain b = l₁ ++ i :: l₂) (hp : t.places[i]? = some p) :
    (∀ b', Path (t.bypass b l₁.getLast? p.next).places
      ((t.bypass b l₁.getLast? p.next).buckets[b']?).join
      (Function.update chain b (l₁ ++ l₂) b')) ∧
    Path (t.bypass b l₁.getLast? p.next).places t.free free := by
  have hremove := (hl ▸ h.path b).remove (hl ▸ h.nodup b) hp
  have hbound : b < t.buckets.size := by
    obtain ⟨-, k, -, hb⟩ := (h.mem b i).mp (by rw [hl]; simp)
    exact hb ▸ bucketOf_lt h.buckets
  cases hg : l₁.getLast? with
  | none =>
    rw [hg] at hremove
    refine ⟨fun b' => ?_, h.freePath⟩
    by_cases hb : b' = b
    · subst hb
      simpa [PropertyTable.bypass, hbound] using hremove
    · have hpath := h.path b'
      simpa [PropertyTable.bypass, hb, Array.getElem?_setIfInBounds, Ne.symm hb] using hpath
  | some j =>
    -- The place before it is written to, and it is on no other path.
    rw [hg] at hremove
    have hj : j ∈ chain b := by
      rw [hl]
      simp [List.mem_of_getLast? hg]
    obtain ⟨-, k, hk, -⟩ := (h.mem b j).mp hj
    have hother : ∀ m ≠ j,
        (t.places.modify j ({ · with next := p.next }))[m]? = t.places[m]? := fun m hm =>
      (Array.getElem?_modify ..).trans (if_neg (Ne.symm hm))
    refine ⟨fun b' => ?_, h.freePath.of_others (h.not_free hk) hother⟩
    by_cases hb : b' = b
    · subst hb
      rw [Function.update_self]
      exact hremove
    · rw [Function.update_of_ne hb]
      exact (h.path b').of_others (fun hm => hb (h.bucket_unique hm hj)) hother

/-- A place is taken off the chain of its bucket. -/
theorem Chained.bypass {l₁ l₂ : List ℕ} (h : t.Chained linked chain free)
    (hl : chain b = l₁ ++ i :: l₂) (hp : t.places[i]? = some p) :
    (t.bypass b l₁.getLast? p.next).Chained (fun j => linked j ∧ j ≠ i)
      (Function.update chain b (l₁ ++ l₂)) free := by
  have hnd : (i :: (l₁ ++ l₂)).Nodup := List.nodup_middle.mp (hl ▸ h.nodup b)
  have hi : i ∈ chain b := by simp [hl]
  obtain ⟨hpath, hfree⟩ := h.paths_bypass hl hp
  refine ⟨by simpa using h.buckets, hpath, fun b' => ?_, fun b' j => ?_, by simpa using hfree,
    h.freeNodup, fun j => ?_⟩
  · by_cases hb : b' = b
    · subst hb
      rw [Function.update_self]
      exact hnd.of_cons
    · rw [Function.update_of_ne hb]
      exact h.nodup b'
  · have hbk : ∀ k, (t.bypass b l₁.getLast? p.next).bucketOf k = t.bucketOf k := fun k =>
      bucketOf_congr size_buckets_bypass
    have hkey : (t.bypass b l₁.getLast? p.next).keyAt j = t.keyAt j := by
      rw [keyAt_eq_bind, keyAt_eq_bind, contentAt_bypass]
    have hmem : j ∈ Function.update chain b (l₁ ++ l₂) b' ↔ j ∈ chain b' ∧ j ≠ i := by
      by_cases hb : b' = b
      · subst hb
        rw [Function.update_self, hl]
        by_cases hj : j = i
        · subst hj
          simp [hnd.notMem]
        · simp [hj]
      · rw [Function.update_of_ne hb, iff_self_and]
        rintro hj rfl
        exact hb (h.bucket_unique hj hi)
    rw [hmem, h.mem, hkey]
    simp only [hbk]
    exact and_right_comm
  · rw [h.freeMem, free_iff, free_iff, contentAt_bypass]

/-- A place that is on no chain becomes free. -/
theorem Chained.clear (h : t.Chained linked chain free) (hk : t.keyAt i = some k)
    (hi : ¬ linked i) : (t.clear i).Chained linked chain (i :: free) := by
  obtain ⟨p, hp, -⟩ := keyAt_eq_some.mp hk
  have hlt := (Array.getElem?_eq_some_iff.mp hp).1
  have hother : ∀ j ≠ i, (t.clear i).places[j]? = t.places[j]? := fun j hj =>
    Array.getElem?_setIfInBounds_ne (Ne.symm hj)
  refine ⟨h.buckets, fun b => (h.path b).of_others (h.not_mem hi b) hother, h.nodup,
    fun b j => ?_, ?_, List.nodup_cons.mpr ⟨h.not_free hk, h.freeNodup⟩, fun j => ?_⟩
  · rw [h.mem, keyAt_eq_bind, keyAt_eq_bind, contentAt_clear hlt]
    by_cases hj : j = i
    · subst hj
      simp [hi]
    · rw [if_neg hj]
      rfl
  · exact ⟨rfl, ⟨none, .data .undefined, t.free⟩, by simp [PropertyTable.clear, hlt],
      h.freePath.of_others (h.not_free hk) hother⟩
  · rw [free_iff, contentAt_clear hlt, List.mem_cons, h.freeMem, free_iff]
    by_cases hj : j = i
    · simp [hj]
    · simp [hj]

/-- Clearing a place removes its property. -/
theorem toList_clear (hp : t.places[i]? = some p) :
    ((t.clear i).toList : Multiset (Handle × Slot)) + p.entry = t.toList := by
  have hfreed : (t.clear i).places = t.places.setIfInBounds i ⟨none, .data .undefined, t.free⟩ := rfl
  simpa [Property.entry] using toList_setIfInBounds hp hfreed

/-- What a deletion does to the properties. -/
theorem toList_delete (hf : t.locate? key = some (before, i)) (hp : t.places[i]? = some p) :
    ((t.delete key).1.toList : Multiset (Handle × Slot)) + p.entry = t.toList := by
  rw [delete_of_locate? hf hp]
  have hc : (t.bypass (t.bucketOf key) before p.next).contentAt i = some (p.key, p.slot) := by
    rw [contentAt_bypass]
    simp [contentAt, hp]
  obtain ⟨q, hq, he⟩ := Option.map_eq_some_iff.mp hc
  have hentry : q.entry = p.entry := by
    simp only [Prod.mk.injEq] at he
    simp [Property.entry, he]
  rw [← hentry, toList_clear hq, toList_eq_row, toList_eq_row, row_congr contentAt_bypass]

/-- The place of a deleted property becomes the first free one. -/
theorem Chained.delete (h : t.Chained (fun _ => True) chain free)
    (hf : t.locate? key = some (before, i)) :
    ∃ chain', (t.delete key).1.Chained (fun _ => True) chain' (i :: free) := by
  obtain ⟨l₁, l₂, p, hl, rfl, hp, hk⟩ := h.locate?_eq_some hf
  rw [delete_of_locate? hf hp]
  have hkey : (t.bypass (t.bucketOf key) l₁.getLast? p.next).keyAt i = some key := by
    rw [keyAt_eq_bind, contentAt_bypass, ← keyAt_eq_bind]
    exact keyAt_eq_some.mpr ⟨p, hp, hk⟩
  refine ⟨_, ((h.bypass hl hp).clear hkey (by simp)).congr fun j k hj => ?_⟩
  have hne : j ≠ i := by
    rintro rfl
    obtain ⟨q, hq, -⟩ := keyAt_eq_some.mp hkey
    rw [keyAt_eq_bind, contentAt_clear (Array.getElem?_eq_some_iff.mp hq).1, if_pos rfl] at hj
    cases hj
  simp [hne]

/-- A table stays valid when a property is deleted. -/
theorem Valid.delete (h : t.Valid) : (t.delete key).1.Valid := by
  cases hf : t.locate? key with
  | none =>
    unfold PropertyTable.delete
    rw [hf]
    exact h
  | some x =>
    obtain ⟨before, i⟩ := x
    obtain ⟨chain, free, hc⟩ := h.chained
    obtain ⟨p, hp, hk⟩ := h.locate?_eq_some hf
    obtain ⟨chain', hc'⟩ := hc.delete hf
    have hlist := toList_delete hf hp
    refine ⟨⟨chain', i :: free, hc'⟩, ?_, ?_⟩
    · rw [Multiset.coe_add, Multiset.coe_eq_coe] at hlist
      have := (hlist.map Prod.fst).nodup_iff.mpr h.keys
      rw [List.map_append] at this
      exact (List.nodup_append.mp this).1
    · have hlen := congrArg Multiset.card hlist
      have hcount : (t.delete key).1.count = t.count - 1 := by
        rw [delete_of_locate? hf hp, count_clear, count_bypass]
      rw [Multiset.card_add, Multiset.coe_card, Multiset.coe_card, Multiset.coe_card,
        ← h.count] at hlen
      simp only [Property.entry, hk, Option.map_some, Option.toList_some, List.length_cons,
        List.length_nil] at hlen
      omega

theorem Chained.empty : empty.Chained (fun _ => True) (fun _ => []) [] := by
  refine ⟨by simp [PropertyTable.empty], ?_, by simp, ?_, rfl, by simp, ?_⟩
  · intro b
    simp only [Path, PropertyTable.empty, Array.getElem?_replicate]
    split <;> rfl
  · intro b i
    simp [keyAt, PropertyTable.empty]
  · intro i
    simp [PropertyTable.empty]

theorem Valid.empty : empty.Valid :=
  ⟨⟨_, _, .empty⟩, by simp [toList, PropertyTable.empty], rfl⟩

/-! ## References -/

/-- An overwritten property: its old references leave, the new ones enter. -/
theorem refs_set_replaced {old : Slot} (h : t.Valid) (hg : t.get? key = some old) :
    ((t.set key slot).1.refs : Multiset Handle) + old.refs = t.refs + slot.refs := by
  unfold get? at hg
  cases hf : t.locate? key with
  | none => simp [hf] at hg
  | some x =>
    obtain ⟨before, i⟩ := x
    obtain ⟨p, hp, hk⟩ := h.locate?_eq_some hf
    rw [hf] at hg
    simp only [hp, Option.map_some, Option.some.injEq] at hg
    subst hg
    rw [set_of_locate? hf hp]
    have hplaces : ({ t with places := t.places.setIfInBounds i { p with slot := slot } } :
        PropertyTable).places = t.places.setIfInBounds i { p with slot := slot } := rfl
    have := refs_of_toList (toList_setIfInBounds hp hplaces)
    simp only [Property.entry, hk, Option.map_some, Option.toList_some, List.flatMap_cons,
      List.flatMap_nil, List.append_nil] at this
    rw [← Multiset.cons_coe, ← Multiset.cons_coe, Multiset.add_cons, Multiset.add_cons,
      Multiset.cons_inj_right] at this
    rw [hk]
    exact this

/-- A new property: its key and what it refers to enter. -/
theorem refs_set_inserted (h : t.Valid) (hg : t.get? key = none) :
    ((t.set key slot).1.refs : Multiset Handle) = t.refs + (key :: slot.refs : List Handle) := by
  have hf : t.locate? key = none := by
    unfold get? at hg
    cases hf : t.locate? key with
    | none => rfl
    | some x =>
      obtain ⟨before, i⟩ := x
      obtain ⟨p, hp, -⟩ := h.locate?_eq_some hf
      simp [hf, hp] at hg
  unfold PropertyTable.set
  rw [hf]
  have hlist : ((t.insert key slot).toList : Multiset (Handle × Slot)) +
      ([] : List (Handle × Slot)) = t.toList + [(key, slot)] := by
    rw [Multiset.coe_nil, add_zero]
    exact (h.insert (h.locate?_eq_none hf)).2
  have := refs_of_toList hlist
  simpa only [List.flatMap_nil, Multiset.coe_nil, add_zero, List.flatMap_singleton] using this

/-- A deleted property: its key and what it referred to leave. -/
theorem refs_delete {old : Slot} (h : t.Valid) (hg : t.get? key = some old) :
    ((t.delete key).1.refs : Multiset Handle) + (key :: old.refs : List Handle) = t.refs := by
  unfold get? at hg
  cases hf : t.locate? key with
  | none => simp [hf] at hg
  | some x =>
    obtain ⟨before, i⟩ := x
    obtain ⟨p, hp, hk⟩ := h.locate?_eq_some hf
    rw [hf] at hg
    simp only [hp, Option.map_some, Option.some.injEq] at hg
    subst hg
    have := refs_of_toList (t := t) (l := p.entry) (m := [])
      (by rw [Multiset.coe_nil, add_zero]; exact toList_delete hf hp)
    simpa only [Property.entry, hk, Option.map_some, Option.toList_some, List.flatMap_singleton,
      List.flatMap_nil, Multiset.coe_nil, add_zero] using this

end PropertyTable

end CountedHeap
