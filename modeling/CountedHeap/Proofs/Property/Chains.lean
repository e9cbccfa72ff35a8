import Mathlib.Data.List.Nodup
import Mathlib.Logic.Function.Basic
import Mathlib.Tactic
import CountedHeap.Property.Table

/-!
# The chains of a property table

Every bucket leads to a chain of places, and so does the list of free places. A table is valid if
the chains of the buckets pass each property once, on the chain of its own bucket, and the free
places are those without a key.

* `PropertyTable.Valid`: what every table satisfies.
* `Valid.empty`, `Valid.set`, `Valid.delete`: it holds at the start and is kept.
* `locate?_eq_some`: what a look-up finds.
* `Valid.locate?_eq_none`: a look-up finds nothing only where there is nothing.
-/

namespace CountedHeap.PropertyTable

variable {t : PropertyTable} {places places' : Array Property} {start : Option ℕ}
  {l l₁ l₂ free : List ℕ} {chain : ℕ → List ℕ} {linked : ℕ → Prop} {i j : ℕ} {key k : Handle}

/-! ## Paths -/

/-- From `start` on, each place naming the next one, lie the places of a list. -/
def Path (places : Array Property) : Option ℕ → List ℕ → Prop
  | start, [] => start = none
  | start, i :: l => start = some i ∧ ∃ p, places[i]? = some p ∧ Path places p.next l

/-- A path looks at where its own places lead, and at nothing else. -/
theorem Path.congr (h : Path places start l)
    (he : ∀ i ∈ l, (places'[i]?).map (·.next) = (places[i]?).map (·.next)) :
    Path places' start l := by
  induction l generalizing start with
  | nil => exact h
  | cons i l ih =>
    obtain ⟨hs, p, hp, hl⟩ := h
    have hi := he i (by simp)
    rw [hp, Option.map_some, Option.map_eq_some_iff] at hi
    obtain ⟨q, hq, hn⟩ := hi
    exact ⟨hs, q, hq, hn ▸ ih hl fun j hj => he j (by simp [hj])⟩

/-- Elsewhere, places may be written to. -/
theorem Path.of_others (h : Path places start l) (hi : i ∉ l)
    (ho : ∀ j ≠ i, places'[j]? = places[j]?) : Path places' start l :=
  h.congr fun j hj => by rw [ho j fun e => hi (e ▸ hj)]

theorem Path.lt_size (h : Path places start l) (hi : i ∈ l) : i < places.size := by
  induction l generalizing start with
  | nil => cases hi
  | cons j l ih =>
    obtain ⟨-, p, hp, hl⟩ := h
    rcases List.mem_cons.mp hi with rfl | hi
    · exact (Array.getElem?_eq_some_iff.mp hp).1
    · exact ih hl hi

/-- A path without repetitions has at most as many places as there are. -/
theorem Path.length_le (h : Path places start l) (hnd : l.Nodup) : l.length ≤ places.size := by
  have hsub : l.Subperm (List.range places.size) :=
    hnd.subperm fun i hi => List.mem_range.mpr (h.lt_size hi)
  simpa using hsub.length_le

/-- Taking a place off a path: the place before it, or else the start, leads to the one after. -/
theorem Path.remove {p : Property} (h : Path places start (l₁ ++ i :: l₂))
    (hnd : (l₁ ++ i :: l₂).Nodup) (hp : places[i]? = some p) :
    match l₁.getLast? with
    | some j => Path (places.modify j ({ · with next := p.next })) start (l₁ ++ l₂)
    | none => Path places p.next (l₁ ++ l₂) := by
  induction l₁ generalizing start with
  | nil =>
    obtain ⟨-, q, hq, hl⟩ := h
    rw [hp] at hq
    cases hq
    exact hl
  | cons j l₁ ih =>
    obtain ⟨hs, q, hq, hl⟩ := h
    rw [List.cons_append, List.nodup_cons] at hnd
    have ih := ih hl hnd.2
    have hj : j < places.size := (Array.getElem?_eq_some_iff.mp hq).1
    cases hg : l₁.getLast? with
    | none =>
      rw [hg] at ih
      dsimp only at ih
      rw [List.getLast?_cons, hg, Option.getD_none]
      have hnot : j ∉ l₁ ++ l₂ := fun hm => hnd.1 (by
        rcases List.mem_append.mp hm with hm | hm <;> simp [hm])
      exact ⟨hs, { q with next := p.next }, by simp [Array.getElem?_modify, hq],
        ih.of_others hnot fun m hm => (Array.getElem?_modify ..).trans (if_neg (Ne.symm hm))⟩
    | some m =>
      rw [hg] at ih
      dsimp only at ih
      rw [List.getLast?_cons, hg]
      have hmj : m ≠ j := by
        rintro rfl
        exact hnd.1 (by simp [List.mem_of_getLast? hg])
      exact ⟨hs, q, by simp [Array.getElem?_modify, hmj, hq], ih⟩

/-! ## Looking up -/

/-- The key of the property at a place. -/
def keyAt (t : PropertyTable) (i : ℕ) : Option Handle :=
  (t.places[i]?).bind (·.key)

/-- The property at a place, apart from where its chain goes on. -/
def contentAt (t : PropertyTable) (i : ℕ) : Option (Option Handle × Slot) :=
  (t.places[i]?).map fun p => (p.key, p.slot)

theorem keyAt_eq_some : t.keyAt i = some k ↔ ∃ p, t.places[i]? = some p ∧ p.key = some k := by
  simp [keyAt, Option.bind_eq_some_iff]

/-- What is found on a path: a place with the key, and the place before it. -/
theorem locateFrom_eq_some {fuel : ℕ} {before found : Option ℕ} (h : Path places start l)
    (hf : locateFrom places key fuel before start = some (found, i)) :
    ∃ l₁ l₂ p, l = l₁ ++ i :: l₂ ∧ found = l₁.getLast?.or before ∧ places[i]? = some p ∧
      p.key = some key := by
  induction l generalizing fuel before start with
  | nil =>
    cases fuel <;> simp [locateFrom, show start = none from h] at hf
  | cons j l ih =>
    obtain ⟨rfl, p, hp, hl⟩ := h
    cases fuel with
    | zero => simp [locateFrom] at hf
    | succ fuel =>
      simp only [locateFrom, hp] at hf
      by_cases hk : p.key = some key
      · simp only [hk, ite_true, Option.some.injEq, Prod.mk.injEq] at hf
        obtain ⟨rfl, rfl⟩ := hf
        exact ⟨[], l, p, rfl, by simp, hp, hk⟩
      · rw [if_neg hk] at hf
        obtain ⟨l₁, l₂, q, rfl, rfl, hq, hqk⟩ := ih hl hf
        refine ⟨j :: l₁, l₂, q, rfl, ?_, hq, hqk⟩
        cases hg : l₁.getLast? <;> simp [List.getLast?_cons, hg]

/-- A key on a path is found, given steps enough. -/
theorem locateFrom_ne_none {fuel : ℕ} {before : Option ℕ} (h : Path places start l)
    (hlen : l.length ≤ fuel) (hi : i ∈ l) (hk : (places[i]?).bind (·.key) = some key) :
    locateFrom places key fuel before start ≠ none := by
  induction l generalizing fuel before start with
  | nil => cases hi
  | cons j l ih =>
    obtain ⟨rfl, p, hp, hl⟩ := h
    cases fuel with
    | zero => simp at hlen
    | succ fuel =>
      simp only [locateFrom, hp]
      by_cases hpk : p.key = some key
      · simp [hpk]
      · rw [if_neg hpk]
        apply ih hl (by simpa using hlen)
        rcases List.mem_cons.mp hi with rfl | hi
        · simp only [hp, Option.bind_some] at hk
          exact absurd hk hpk
        · exact hi

/-! ## Chains -/

/-- The chains of the buckets pass the linked properties, each on the chain of its own bucket, and
the chain of free places passes the places without a key. -/
structure Chained (t : PropertyTable) (linked : ℕ → Prop) (chain : ℕ → List ℕ) (free : List ℕ) :
    Prop where
  buckets : 0 < t.buckets.size
  path : ∀ b, Path t.places (t.buckets[b]?).join (chain b)
  nodup : ∀ b, (chain b).Nodup
  mem : ∀ b i, i ∈ chain b ↔ linked i ∧ ∃ k, t.keyAt i = some k ∧ t.bucketOf k = b
  freePath : Path t.places t.free free
  freeNodup : free.Nodup
  freeMem : ∀ i, i ∈ free ↔ ∃ p, t.places[i]? = some p ∧ p.key = none

/-- What every table satisfies: all properties are on their chains, no key is there twice, and the
properties are counted. -/
structure Valid (t : PropertyTable) : Prop where
  chained : ∃ chain free, t.Chained (fun _ => True) chain free
  keys : (t.toList.map Prod.fst).Nodup
  count : t.count = t.toList.length

theorem bucketOf_lt (h : 0 < t.buckets.size) : t.bucketOf key < t.buckets.size :=
  Nat.mod_lt _ h

theorem bucketOf_congr {t' : PropertyTable} (h : t'.buckets.size = t.buckets.size) :
    t'.bucketOf key = t.bucketOf key := by
  simp [bucketOf, h]

namespace Chained

theorem not_free (h : t.Chained linked chain free) (hk : t.keyAt i = some k) : i ∉ free := by
  rw [h.freeMem]
  rintro ⟨p, hp, hn⟩
  simp [keyAt, hp, hn] at hk

theorem not_mem (h : t.Chained linked chain free) (hi : ¬ linked i) (b : ℕ) : i ∉ chain b :=
  fun hm => hi ((h.mem b i).mp hm).1

/-- No place is on the chains of two buckets. -/
theorem bucket_unique (h : t.Chained linked chain free) {b b' : ℕ} (hi : i ∈ chain b)
    (hi' : i ∈ chain b') : b = b' := by
  obtain ⟨-, k, hk, hb⟩ := (h.mem b i).mp hi
  obtain ⟨-, k', hk', hb'⟩ := (h.mem b' i).mp hi'
  obtain rfl : k = k' := Option.some.inj (hk.symm.trans hk')
  exact hb.symm.trans hb'

/-- Being linked matters for properties only. -/
theorem congr {linked' : ℕ → Prop} (h : t.Chained linked chain free)
    (hl : ∀ i k, t.keyAt i = some k → (linked' i ↔ linked i)) :
    t.Chained linked' chain free :=
  { h with
    mem := fun b i => by
      rw [h.mem]
      constructor
      · rintro ⟨hi, k, hk, hb⟩
        exact ⟨(hl i k hk).mpr hi, k, hk, hb⟩
      · rintro ⟨hi, k, hk, hb⟩
        exact ⟨(hl i k hk).mp hi, k, hk, hb⟩ }

/-- The length of a chain is at most the number of places. -/
theorem length_le (h : t.Chained linked chain free) (b : ℕ) :
    (chain b).length ≤ t.places.size :=
  (h.path b).length_le (h.nodup b)

end Chained

@[simp] theorem size_places_link : (t.link i).places.size = t.places.size := by
  unfold link
  split <;> simp

@[simp] theorem size_buckets_link : (t.link i).buckets.size = t.buckets.size := by
  unfold link
  split <;> simp

/-- Linking touches neither keys nor contents. -/
@[simp] theorem contentAt_link : (t.link i).contentAt j = t.contentAt j := by
  unfold contentAt link
  split
  · rfl
  · dsimp only
    rw [Array.getElem?_modify]
    by_cases hij : i = j
    · subst hij
      simp [Function.comp_def]
    · rw [if_neg hij]

theorem keyAt_eq_bind : t.keyAt j = (t.contentAt j).bind Prod.fst := by
  unfold keyAt contentAt
  cases t.places[j]? <;> rfl

@[simp] theorem keyAt_link : (t.link i).keyAt j = t.keyAt j := by
  rw [keyAt_eq_bind, keyAt_eq_bind, contentAt_link]

/-- Whether a place is free depends on what is there only. -/
theorem free_iff : (∃ p, t.places[j]? = some p ∧ p.key = none) ↔
    ∃ slot, t.contentAt j = some (none, slot) := by
  unfold contentAt
  cases t.places[j]? <;> simp

/-- What stands at each place: a property, or nothing. -/
def row (t : PropertyTable) : List (Option (Handle × Slot)) :=
  t.places.toList.map fun p => p.key.map (·, p.slot)

theorem toList_eq_filterMap : t.toList = t.row.filterMap id := by
  simp [toList, row, List.filterMap_map]

theorem toList_eq_row : t.toList = t.row.reduceOption :=
  toList_eq_filterMap

theorem getElem?_row : t.row[j]? = (t.contentAt j).map fun c => c.1.map (·, c.2) := by
  simp [row, contentAt, Function.comp_def]

/-- What stands where depends on keys and contents only. -/
theorem row_congr {t' : PropertyTable} (h : t'.contentAt = t.contentAt) : t'.row = t.row := by
  apply List.ext_getElem?
  intro j
  rw [getElem?_row, getElem?_row, h]

@[simp] theorem row_link : (t.link i).row = t.row :=
  row_congr (funext fun _ => contentAt_link)

@[simp] theorem count_link : (t.link i).count = t.count := by
  unfold link
  split <;> rfl

theorem link_of_no_key (hk : t.keyAt i = none) : t.link i = t := by
  unfold link
  unfold keyAt at hk
  rw [hk]

theorem link_of_key (hk : t.keyAt i = some k) : t.link i = { t with
    places := t.places.modify i ({ · with next := t.chainOf k })
    buckets := t.buckets.setIfInBounds (t.bucketOf k) (some i) } := by
  unfold link
  unfold keyAt at hk
  rw [hk]

/-- A property that is on no chain yet becomes the first one on the chain of its bucket. -/
theorem Chained.link_key (h : t.Chained linked chain free) (hi : ¬ linked i)
    (hk : t.keyAt i = some k) : (t.link i).Chained (fun j => j = i ∨ linked j)
      (Function.update chain (t.bucketOf k) (i :: chain (t.bucketOf k))) free := by
  obtain ⟨p, hp, -⟩ := keyAt_eq_some.mp hk
  have hlink := link_of_key hk
  have hbound : t.bucketOf k < t.buckets.size := bucketOf_lt h.buckets
  have hother : ∀ j ≠ i, (t.link i).places[j]? = t.places[j]? := by
    intro j hj
    rw [hlink]
    exact (Array.getElem?_modify ..).trans (if_neg (Ne.symm hj))
  refine ⟨by simpa using h.buckets, fun b => ?_, fun b => ?_, fun b j => ?_, ?_, h.freeNodup,
    fun j => ?_⟩
  · by_cases hb : b = t.bucketOf k
    · subst hb
      rw [Function.update_self]
      refine ⟨by simp [hlink, hbound], { p with next := t.chainOf k }, ?_, ?_⟩
      · simp [hlink, Array.getElem?_modify, hp]
      · exact (h.path _).of_others (h.not_mem hi _) hother
    · rw [Function.update_of_ne hb]
      have hsame : (t.link i).buckets[b]? = t.buckets[b]? := by
        rw [hlink]
        exact Array.getElem?_setIfInBounds_ne (Ne.symm hb)
      rw [hsame]
      exact (h.path b).of_others (h.not_mem hi b) hother
  · by_cases hb : b = t.bucketOf k
    · subst hb
      rw [Function.update_self]
      exact List.nodup_cons.mpr ⟨h.not_mem hi _, h.nodup _⟩
    · rw [Function.update_of_ne hb]
      exact h.nodup b
  · have hbk : ∀ k', (t.link i).bucketOf k' = t.bucketOf k' := fun k' =>
      bucketOf_congr size_buckets_link
    simp only [keyAt_link, hbk]
    by_cases hb : b = t.bucketOf k
    · subst hb
      rw [Function.update_self, List.mem_cons, h.mem]
      constructor
      · rintro (rfl | ⟨hj, k', hk', hb'⟩)
        · exact ⟨.inl rfl, k, hk, rfl⟩
        · exact ⟨.inr hj, k', hk', hb'⟩
      · rintro ⟨rfl | hj, k', hk', hb'⟩
        · exact .inl rfl
        · exact .inr ⟨hj, k', hk', hb'⟩
    · rw [Function.update_of_ne hb, h.mem]
      constructor
      · rintro ⟨hj, k', hk', hb'⟩
        exact ⟨.inr hj, k', hk', hb'⟩
      · rintro ⟨rfl | hj, k', hk', hb'⟩
        · rw [hk] at hk'
          cases hk'
          exact absurd hb'.symm hb
        · exact ⟨hj, k', hk', hb'⟩
  · have hfree : (t.link i).free = t.free := by rw [hlink]
    rw [hfree]
    exact h.freePath.of_others (h.not_free hk) hother
  · rw [h.freeMem, free_iff, free_iff, contentAt_link]

/-- Linking a property that is on no chain yet. Where there is no property, nothing is linked. -/
theorem Chained.link (h : t.Chained linked chain free) (hi : ¬ linked i) :
    ∃ chain', (t.link i).Chained (fun j => j = i ∨ linked j) chain' free := by
  cases hk : t.keyAt i with
  | none =>
    rw [link_of_no_key hk]
    refine ⟨chain, h.congr fun j k hj => or_iff_right ?_⟩
    rintro rfl
    rw [hk] at hj
    cases hj
  | some k => exact ⟨_, h.link_key hi hk⟩

/-- Linking properties that are on no chain yet, one after the other. -/
theorem Chained.foldl_link (h : t.Chained linked chain free) (hnd : l.Nodup)
    (hl : ∀ i ∈ l, ¬ linked i) :
    ∃ chain', (l.foldl PropertyTable.link t).Chained (fun j => j ∈ l ∨ linked j) chain' free := by
  induction l generalizing t linked chain with
  | nil => exact ⟨chain, by simpa using h⟩
  | cons i l ih =>
    rw [List.nodup_cons] at hnd
    obtain ⟨chain₁, h₁⟩ := h.link (hl i (by simp))
    obtain ⟨chain₂, h₂⟩ := ih h₁ hnd.2 (by
      rintro j hj (rfl | hlj)
      · exact hnd.1 hj
      · exact hl j (by simp [hj]) hlj)
    refine ⟨chain₂, h₂.congr fun j k hj => ?_⟩
    simp only [List.mem_cons]
    tauto

theorem foldl_link_fields : (l.foldl link t).places.size = t.places.size ∧
    (l.foldl link t).row = t.row ∧ (l.foldl link t).count = t.count ∧
    (l.foldl link t).buckets.size = t.buckets.size := by
  induction l generalizing t with
  | nil => exact ⟨rfl, rfl, rfl, rfl⟩
  | cons i l ih => simpa using ih (t := t.link i)

@[simp] theorem row_grow : t.grow.row = t.row :=
  foldl_link_fields.2.1

@[simp] theorem count_grow : t.grow.count = t.count :=
  foldl_link_fields.2.2.1

@[simp] theorem size_buckets_grow : t.grow.buckets.size = 2 * t.buckets.size := by
  unfold grow
  rw [foldl_link_fields.2.2.2, Array.size_replicate]

/-- Growing links every property anew. -/
theorem Chained.grow (h : t.Chained linked chain free) :
    ∃ chain', t.grow.Chained (fun _ => True) chain' free := by
  have h₀ : ({ t with buckets := Array.replicate (2 * t.buckets.size) none } :
      PropertyTable).Chained (fun _ => False) (fun _ => []) free := by
    refine ⟨by simpa using h.buckets, ?_, by simp, by simp, h.freePath, h.freeNodup, h.freeMem⟩
    intro b
    simp only [Path, Array.getElem?_replicate]
    split <;> rfl
  obtain ⟨chain', h₁⟩ := h₀.foldl_link (l := List.range t.places.size) List.nodup_range (by simp)
  refine ⟨chain', h₁.congr fun i k hk => ?_⟩
  obtain ⟨p, hp, -⟩ := keyAt_eq_some.mp hk
  have hlt := (Array.getElem?_eq_some_iff.mp hp).1
  rw [foldl_link_fields.1] at hlt
  simpa using hlt

end CountedHeap.PropertyTable
