import Mathlib.Data.Finmap
import Mathlib.Data.List.ReduceOption
import CountedHeap.Proofs.Property.Changes

/-!
# A property table is an ordered map

What a property table answers is what a finite map from keys to contents answers, and the order of its
properties is that of a vector of places in which a new key takes the place that was freed last. The
vector knows nothing of buckets, so the order depends neither on how keys are spread over them nor on
when their number was doubled.

* `PropertyTable.serve`, `Properties.Answers`, `Places.after`: requests to a table, what a map answers
  to them, and what they make of a vector of places.
* `Valid.get?_set`, `Valid.get?_delete`: what is found once a property has been stored or deleted.
* `Refines.serve`: one request keeps a table in step with a map and a vector.
* `after_refines`: all tables are in step, and what one sees of them.
-/

namespace CountedHeap

namespace PropertyTable

/-- What a client asks of a table. -/
inductive Request where
  | set (key : Handle) (slot : Slot)
  | delete (key : Handle)
  | drain

/-- What a table answers: what became of a stored property, or the properties handed back. -/
inductive Answer where
  | stored (outcome : Stored)
  | deleted (property : Option (Handle × Slot))
  | drained (properties : List (Handle × Slot))

/-- A table serves a request. -/
def serve (t : PropertyTable) : Request → PropertyTable × Answer
  | .set key slot => ((t.set key slot).1, .stored (t.set key slot).2)
  | .delete key => ((t.delete key).1, .deleted (t.delete key).2)
  | .drain => (t.drain.1, .drained t.drain.2)

/-- The table after some requests. -/
def after (requests : List Request) : PropertyTable :=
  requests.foldl (fun t r => (t.serve r).1) .empty

end PropertyTable

open PropertyTable (Request Answer)

/-! ## Finite maps -/

/-- A finite map from keys to contents. -/
abbrev Properties := Finmap fun _ : Handle => Slot

namespace Properties

/-- What a request makes of a map. -/
def serve (m : Properties) : Request → Properties
  | .set key slot => m.insert key slot
  | .delete key => m.erase key
  | .drain => ∅

/-- The map after some requests. -/
def after (requests : List Request) : Properties :=
  requests.foldl serve ∅

/-- What a map answers: the old contents of a key, the property of a key, all properties. -/
def Answers (m : Properties) : Request → Answer → Prop
  | .set key _, .stored outcome =>
    outcome = match m.lookup key with
      | some old => .replaced old
      | none => .inserted
  | .delete key, .deleted property => property = (m.lookup key).map fun slot => (key, slot)
  | .drain, .drained properties => (properties.map Prod.fst).Nodup ∧
    ∀ key slot, (key, slot) ∈ properties ↔ m.lookup key = some slot
  | _, _ => False

end Properties

/-! ## Vectors of places -/

/-- Places with or without a property, and those without, the one that was freed last first. -/
structure Places where
  row : List (Option (Handle × Slot))
  free : List ℕ

namespace Places

/-- The place of a key. -/
def find? (v : Places) (key : Handle) : Option ℕ :=
  v.row.findIdx? fun x => x.map Prod.fst = some key

/-- What a request makes of the places: a key keeps its place, a new key takes the place that was
freed last, and stands after the others if there is none. -/
def serve (v : Places) : Request → Places
  | .set key slot =>
    match v.find? key, v.free with
    | some i, _ => { v with row := v.row.set i (some (key, slot)) }
    | none, i :: free => ⟨v.row.set i (some (key, slot)), free⟩
    | none, [] => ⟨v.row ++ [some (key, slot)], []⟩
  | .delete key =>
    match v.find? key with
    | some i => ⟨v.row.set i none, i :: v.free⟩
    | none => v
  | .drain => ⟨[], []⟩

/-- The places after some requests. -/
def after (requests : List Request) : Places :=
  requests.foldl serve ⟨[], []⟩

/-- The properties in their order. -/
def live (v : Places) : List (Handle × Slot) :=
  v.row.reduceOption

end Places

namespace PropertyTable

variable {t : PropertyTable} {m : Properties} {v : Places} {i j : ℕ} {key : Handle} {slot : Slot}
  {before : Option ℕ} {r : Request}

/-! ## Where a key is -/

theorem getElem?_row_of_places {p : Property} (hp : t.places[i]? = some p)
    (hk : p.key = some key) : t.row[i]? = some (some (key, p.slot)) := by
  simp [row, hp, hk]

/-- No two properties have one key. -/
theorem Valid.place_unique (h : t.Valid) {slot' : Slot} (hi : t.row[i]? = some (some (key, slot)))
    (hj : t.row[j]? = some (some (key, slot'))) : i = j := by
  have hkeys := h.keys
  rw [toList_eq_filterMap, List.map_filterMap, List.Nodup, List.pairwise_filterMap,
    List.pairwise_iff_getElem] at hkeys
  obtain ⟨hi', hi⟩ := List.getElem?_eq_some_iff.mp hi
  obtain ⟨hj', hj⟩ := List.getElem?_eq_some_iff.mp hj
  rcases Nat.lt_trichotomy i j with hlt | heq | hgt
  · exact absurd rfl (hkeys i j hi' hj' hlt key (by simp [hi]) key (by simp [hj]))
  · exact heq
  · exact absurd rfl (hkeys j i hj' hi' hgt key (by simp [hj]) key (by simp [hi]))

/-- A look-up finds the one place where the key is. -/
theorem Valid.find?_eq (h : t.Valid) (free : List ℕ) :
    (Places.mk t.row free).find? key = (t.locate? key).map Prod.snd := by
  unfold Places.find?
  cases hf : t.locate? key with
  | none =>
    rw [Option.map_none, List.findIdx?_eq_none_iff]
    intro x hx
    have hnot := h.locate?_eq_none hf
    rw [toList_eq_row] at hnot
    simp only [decide_eq_false_iff_not, Option.map_eq_some_iff, not_exists, not_and]
    rintro ⟨k, slot⟩ rfl rfl
    exact hnot (List.mem_map.mpr ⟨(k, slot), List.reduceOption_mem_iff.mpr hx, rfl⟩)
  | some x =>
    obtain ⟨before, i⟩ := x
    obtain ⟨p, hp, hk⟩ := h.locate?_eq_some hf
    have hrow := getElem?_row_of_places hp hk
    obtain ⟨hi, hat⟩ := List.getElem?_eq_some_iff.mp hrow
    rw [Option.map_some, List.findIdx?_eq_some_iff_getElem]
    refine ⟨hi, by simp [hat], fun j hj => ?_⟩
    simp only [decide_eq_true_eq, Option.map_eq_some_iff, not_exists, not_and]
    rintro ⟨k, slot⟩ hrow' rfl
    have hrowj : t.row[j]? = some (some (k, slot)) := by
      rw [← hrow']
      exact List.getElem?_eq_getElem _
    exact absurd (h.place_unique hrowj hrow) (by omega)

/-- A look-up gives the contents that stand with the key. -/
theorem Valid.get?_eq_some_iff (h : t.Valid) : t.get? key = some slot ↔ (key, slot) ∈ t.toList := by
  rw [toList_eq_row, List.reduceOption_mem_iff]
  unfold get?
  cases hf : t.locate? key with
  | none =>
    have hnot := h.locate?_eq_none hf
    rw [toList_eq_row] at hnot
    simp only [reduceCtorEq, false_iff]
    exact fun hm => hnot (List.mem_map.mpr ⟨_, List.reduceOption_mem_iff.mpr hm, rfl⟩)
  | some x =>
    obtain ⟨before, i⟩ := x
    obtain ⟨p, hp, hk⟩ := h.locate?_eq_some hf
    have hrow := getElem?_row_of_places hp hk
    simp only [hp, Option.map_some, Option.some.injEq]
    constructor
    · rintro rfl
      exact List.mem_of_getElem? hrow
    · intro hm
      obtain ⟨j, hj⟩ := List.mem_iff_getElem?.mp hm
      obtain rfl := h.place_unique hrow hj
      rw [hrow] at hj
      simpa using hj

theorem Valid.contains_eq (h : t.Valid) : t.contains key = (t.get? key).isSome := by
  unfold contains get?
  cases hf : t.locate? key with
  | none => rfl
  | some x =>
    obtain ⟨before, i⟩ := x
    obtain ⟨p, hp, -⟩ := h.locate?_eq_some hf
    simp [hp]

/-- Properties of another key are found as before where they are. -/
theorem Valid.get?_congr {t' : PropertyTable} {l l' : List (Handle × Slot)} {k : Handle} (h : t.Valid)
    (h' : t'.Valid) (hlists : (t'.toList : Multiset (Handle × Slot)) + l = t.toList + l')
    (hother : ∀ x ∈ l ++ l', x.1 ≠ k) : t'.get? k = t.get? k := by
  have hmem : ∀ (l₀ : List (Handle × Slot)) {l₁ : List (Handle × Slot)} {s : Slot},
      (∀ x ∈ l₁, x.1 ≠ k) → ((k, s) ∈ (l₀ : Multiset (Handle × Slot)) + l₁ ↔ (k, s) ∈ l₀) := by
    intro l₀ l₁ s hl₁
    rw [Multiset.mem_add, Multiset.mem_coe, Multiset.mem_coe]
    exact or_iff_left fun hm => hl₁ _ hm rfl
  obtain ⟨hl, hl'⟩ := List.forall_mem_append.mp hother
  ext s
  rw [h.get?_eq_some_iff, h'.get?_eq_some_iff, ← hmem t'.toList hl, hlists, hmem t.toList hl']

/-- A stored property is found, and all others as before. -/
theorem Valid.get?_set (h : t.Valid) :
    (t.set key slot).1.get? = Function.update t.get? key (some slot) := by
  have hvalid : (t.set key slot).1.Valid := h.set
  obtain ⟨hstored, l, hlists, hl⟩ : (key, slot) ∈ (t.set key slot).1.toList ∧
      ∃ l : List (Handle × Slot), ((t.set key slot).1.toList : Multiset (Handle × Slot)) + l =
        t.toList + [(key, slot)] ∧ ∀ x ∈ l, x.1 = key := by
    cases hf : t.locate? key with
    | none =>
      have hset : (t.set key slot).1 = t.insert key slot := by
        unfold PropertyTable.set
        rw [hf]
      have hlists : ((t.insert key slot).toList : Multiset (Handle × Slot)) = t.toList + [(key, slot)] :=
        (h.insert (h.locate?_eq_none hf)).2
      rw [hset]
      refine ⟨?_, [], by simpa using hlists, by simp⟩
      rw [← Multiset.mem_coe, hlists]
      simp
    | some x =>
      obtain ⟨before, i⟩ := x
      obtain ⟨p, hp, hk⟩ := h.locate?_eq_some hf
      have hi := (Array.getElem?_eq_some_iff.mp hp).1
      rw [set_of_locate? hf hp]
      refine ⟨mem_toList_iff.mpr ⟨i, by simp [contentAt, hi, hk]⟩, p.entry, ?_, ?_⟩
      · have hlists : (({ t with places := t.places.setIfInBounds i { p with slot := slot } } :
            PropertyTable).toList : Multiset (Handle × Slot)) + p.entry =
              t.toList + { p with slot := slot }.entry := toList_setIfInBounds hp rfl
        simpa [Property.entry, hk] using hlists
      · simp [Property.entry, hk]
  funext k
  rcases eq_or_ne k key with rfl | hk
  · rw [Function.update_self]
    exact hvalid.get?_eq_some_iff.mpr hstored
  · rw [Function.update_of_ne hk]
    refine h.get?_congr hvalid hlists fun x hx => ?_
    rcases List.mem_append.mp hx with hx | hx
    · exact fun he => hk (he ▸ hl x hx)
    · rw [List.mem_singleton.mp hx]
      exact hk.symm

/-- A deleted property is not found, and all others are as before. -/
theorem Valid.get?_delete (h : t.Valid) :
    (t.delete key).1.get? = Function.update t.get? key none := by
  cases hf : t.locate? key with
  | none =>
    have hnone : t.get? key = none := by
      unfold get?
      rw [hf]
    unfold PropertyTable.delete
    rw [hf, ← hnone, Function.update_eq_self]
  | some x =>
    obtain ⟨before, i⟩ := x
    obtain ⟨p, hp, hk⟩ := h.locate?_eq_some hf
    have hvalid : (t.delete key).1.Valid := h.delete
    have hlists : ((t.delete key).1.toList : Multiset (Handle × Slot)) + [(key, p.slot)] = t.toList := by
      simpa [Property.entry, hk] using toList_delete hf hp
    funext k
    rcases eq_or_ne k key with rfl | hne
    · rw [Function.update_self]
      refine Option.eq_none_iff_forall_ne_some.mpr fun s hs => ?_
      have hkeys := ((Multiset.coe_eq_coe.mp hlists).map Prod.fst).nodup_iff.mpr h.keys
      rw [List.map_append, List.nodup_append] at hkeys
      exact hkeys.2.2 k (List.mem_map.mpr ⟨_, hvalid.get?_eq_some_iff.mp hs, rfl⟩) k (by simp) rfl
    · rw [Function.update_of_ne hne]
      have hlists' : ((t.delete key).1.toList : Multiset (Handle × Slot)) + [(key, p.slot)] =
          t.toList + ([] : List (Handle × Slot)) := by
        rw [hlists, Multiset.coe_nil, add_zero]
      exact h.get?_congr hvalid hlists' (by simpa using hne.symm)

/-! ## One request -/

/-- A table in step with a map and with a vector of places: it holds the properties of the map at the
places of the vector, and at most three quarters of its buckets are filled. -/
structure Refines (t : PropertyTable) (m : Properties) (v : Places) : Prop where
  chained : ∃ chain, t.Chained (fun _ => True) chain v.free
  row : t.row = v.row
  keys : (t.toList.map Prod.fst).Nodup
  count : t.count = t.toList.length
  contents : ∀ key slot, m.lookup key = some slot ↔ some (key, slot) ∈ v.row
  load : 4 * t.count ≤ 3 * t.buckets.size
  doubled : 2 ≤ t.buckets.size

namespace Refines

theorem valid (h : t.Refines m v) : t.Valid :=
  ⟨h.chained.imp fun _ hc => ⟨v.free, hc⟩, h.keys, h.count⟩

theorem toList_eq (h : t.Refines m v) : t.toList = v.live := by
  rw [toList_eq_row, h.row, Places.live]

theorem find?_eq (h : t.Refines m v) : v.find? key = (t.locate? key).map Prod.snd := by
  rw [← h.valid.find?_eq v.free, h.row]

theorem lookup_eq (h : t.Refines m v) : m.lookup key = t.get? key := by
  ext slot
  rw [h.contents, h.valid.get?_eq_some_iff, toList_eq_row, List.reduceOption_mem_iff, h.row]

end Refines

/-- A place where `key` stands, if it stands anywhere, gets other contents. -/
theorem mem_set_iff {row : List (Option (Handle × Slot))} {x : Option (Handle × Slot)} {k : Handle}
    (hi : i < row.length) (hkey : ∀ j slot, row[j]? = some (some (key, slot)) → j = i)
    (hat : ∀ k slot, row[i]? = some (some (k, slot)) → k = key) :
    some (k, slot) ∈ row.set i x ↔ x = some (k, slot) ∨ k ≠ key ∧ some (k, slot) ∈ row := by
  simp only [List.mem_iff_getElem?, List.getElem?_set]
  constructor
  · rintro ⟨j, hj⟩
    by_cases hij : i = j
    · subst hij
      left
      simpa [hi] using hj
    · rw [if_neg hij] at hj
      right
      refine ⟨?_, j, hj⟩
      rintro rfl
      exact hij (hkey j slot hj).symm
  · rintro (rfl | ⟨hk, j, hj⟩)
    · exact ⟨i, by simp [hi]⟩
    · have hij : i ≠ j := by
        rintro rfl
        exact hk (hat k slot hj)
      exact ⟨j, by rw [if_neg hij, hj]⟩

/-- A map with a key that has got other contents. -/
theorem lookup_insert_iff {k : Handle} {slot' : Slot} : (m.insert key slot).lookup k = some slot' ↔
    (key, slot) = (k, slot') ∨ k ≠ key ∧ m.lookup k = some slot' := by
  by_cases hk : k = key
  · subst hk
    simp [Finmap.lookup_insert, Prod.ext_iff]
  · simp [Finmap.lookup_insert_of_ne m hk, hk, Ne.symm hk]

/-- A map without a key. -/
theorem lookup_erase_iff {k : Handle} : (m.erase key).lookup k = some slot ↔
    k ≠ key ∧ m.lookup k = some slot := by
  by_cases hk : k = key
  · subst hk
    simp
  · simp [Finmap.lookup_erase_ne hk, hk]

theorem row_replace (hf : t.locate? key = some (before, i)) {p : Property}
    (hp : t.places[i]? = some p) (hk : p.key = some key) :
    (t.set key slot).1.row = t.row.set i (some (key, slot)) := by
  rw [set_of_locate? hf hp]
  simp [row, hk]

theorem row_delete (hf : t.locate? key = some (before, i)) {p : Property}
    (hp : t.places[i]? = some p) : (t.delete key).1.row = t.row.set i none := by
  have hsame : (t.bypass (t.bucketOf key) before p.next).row = t.row := row_congr contentAt_bypass
  rw [delete_of_locate? hf hp, ← hsame]
  simp [row, clear]

/-- At most three quarters of the buckets are filled when one more property is stored. -/
theorem load_insert (hload : 4 * t.count ≤ 3 * t.buckets.size) (hsize : 2 ≤ t.buckets.size) :
    4 * (t.insert key slot).count ≤ 3 * (t.insert key slot).buckets.size ∧
      2 ≤ (t.insert key slot).buckets.size := by
  have hbuckets : (t.insert key slot).buckets.size = t.roomy.buckets.size := by
    rw [insert_eq, size_buckets_link]
    unfold seat
    cases t.roomy.free <;> rfl
  rw [count_insert, hbuckets]
  unfold roomy
  split
  · rw [size_buckets_grow]
    omega
  · rename_i hcrowded
    simp only [crowded, gt_iff_lt, decide_eq_true_eq, not_lt] at hcrowded
    exact ⟨hcrowded, hsize⟩

namespace Refines

theorem empty : PropertyTable.empty.Refines ∅ ⟨[], []⟩ := by
  refine ⟨?_, rfl, by simp [toList, PropertyTable.empty], rfl, ?_, by simp [PropertyTable.empty],
    by simp [PropertyTable.empty]⟩
  · exact ⟨_, .empty⟩
  · simp

/-- A key that is found stands at its place and nowhere else. -/
theorem place (h : t.Refines m v) (hf : t.locate? key = some (before, i)) :
    ∃ p, t.places[i]? = some p ∧ p.key = some key ∧ i < v.row.length ∧
      (∀ j slot, v.row[j]? = some (some (key, slot)) → j = i) ∧
      ∀ k slot, v.row[i]? = some (some (k, slot)) → k = key := by
  obtain ⟨p, hp, hk⟩ := h.valid.locate?_eq_some hf
  have hrow := getElem?_row_of_places hp hk
  refine ⟨p, hp, hk, ?_, fun j slot hj => ?_, fun k slot hj => ?_⟩
  · rw [← h.row]
    exact (List.getElem?_eq_some_iff.mp hrow).1
  · rw [← h.row] at hj
    exact h.valid.place_unique hj hrow
  · rw [← h.row, hrow] at hj
    simp only [Option.some.injEq, Prod.mk.injEq] at hj
    exact hj.1.symm

/-- A key that is not found stands nowhere. -/
theorem not_mem_row (h : t.Refines m v) (hf : t.locate? key = none) :
    some (key, slot) ∉ v.row := by
  intro hm
  have hnot := h.valid.locate?_eq_none hf
  rw [h.toList_eq, Places.live] at hnot
  exact hnot (List.mem_map.mpr ⟨_, List.reduceOption_mem_iff.mpr hm, rfl⟩)

/-- A store over an old property. -/
theorem replace (h : t.Refines m v) (hf : t.locate? key = some (before, i)) :
    (t.set key slot).1.Refines (m.insert key slot)
      { v with row := v.row.set i (some (key, slot)) } := by
  obtain ⟨chain, hc⟩ := h.chained
  obtain ⟨p, hp, hk, hi, hkey, hat⟩ := h.place hf
  have hvalid : (t.set key slot).1.Valid := h.valid.set
  refine ⟨⟨chain, hc.replace hf⟩, ?_, hvalid.keys, hvalid.count, fun k s => ?_, ?_, ?_⟩
  · rw [row_replace hf hp hk, h.row]
  · rw [lookup_insert_iff, mem_set_iff hi hkey hat, h.contents, Option.some.injEq]
  · rw [set_of_locate? hf hp]
    exact h.load
  · rw [set_of_locate? hf hp]
    exact h.doubled

/-- A store of a new property: at the place that was freed last, or after the others. -/
theorem insert (h : t.Refines m v) (hf : t.locate? key = none) :
    (t.insert key slot).Refines (m.insert key slot) ⟨match v.free.head? with
      | some i => v.row.set i (some (key, slot))
      | none => v.row ++ [some (key, slot)], v.free.tail⟩ := by
  obtain ⟨chain, hc⟩ := h.chained
  have hvalid : (t.insert key slot).Valid := (h.valid.insert (h.valid.locate?_eq_none hf)).1
  have hload : 4 * (t.insert key slot).count ≤ 3 * (t.insert key slot).buckets.size ∧
      2 ≤ (t.insert key slot).buckets.size := load_insert h.load h.doubled
  refine ⟨hc.insert key slot, ?_, hvalid.keys, hvalid.count, fun k s => ?_, hload.1, hload.2⟩
  · rw [← h.row]
    exact hc.row_insert
  · rw [lookup_insert_iff, h.contents]
    cases hfree : v.free with
    | nil =>
      have hne : k ≠ key ∧ some (k, s) ∈ v.row ↔ some (k, s) ∈ v.row :=
        ⟨And.right, fun hm => ⟨fun e => h.not_mem_row hf (e ▸ hm), hm⟩⟩
      rw [hne, List.head?_nil, List.mem_append, List.mem_singleton, Option.some.injEq, or_comm,
        eq_comm]
    | cons i free =>
      obtain ⟨q, hq, hqn⟩ := (hc.freeMem i).mp (by simp [hfree])
      have hnone : v.row[i]? = some none := by
        rw [← h.row]
        simp [PropertyTable.row, hq, hqn]
      rw [List.head?_cons, mem_set_iff (List.getElem?_eq_some_iff.mp hnone).1, Option.some.injEq]
      · intro j s hj
        exact absurd (List.mem_of_getElem? hj) (h.not_mem_row hf)
      · simp [hnone]

/-- A deletion. -/
theorem erase (h : t.Refines m v) (hf : t.locate? key = some (before, i)) :
    (t.delete key).1.Refines (m.erase key) ⟨v.row.set i none, i :: v.free⟩ := by
  obtain ⟨chain, hc⟩ := h.chained
  obtain ⟨p, hp, hk, hi, hkey, hat⟩ := h.place hf
  have hvalid : (t.delete key).1.Valid := h.valid.delete
  have hcount : (t.delete key).1.count ≤ t.count := by
    rw [delete_of_locate? hf hp, count_clear, count_bypass]
    omega
  have hbuckets : (t.delete key).1.buckets.size = t.buckets.size := by
    rw [delete_of_locate? hf hp, buckets_clear, size_buckets_bypass]
  refine ⟨hc.delete hf, ?_, hvalid.keys, hvalid.count, fun k s => ?_, ?_, hbuckets ▸ h.doubled⟩
  · rw [row_delete hf hp, h.row]
  · rw [lookup_erase_iff, mem_set_iff hi hkey hat, h.contents]
    simp
  · have := h.load
    omega

/-- **One request.** The table stays in step with the map and the places. -/
theorem serve (h : t.Refines m v) (r : Request) :
    (t.serve r).1.Refines (m.serve r) (v.serve r) := by
  cases r with
  | set key slot =>
    have hfind : v.find? key = (t.locate? key).map Prod.snd := h.find?_eq
    simp only [PropertyTable.serve, Properties.serve, Places.serve]
    cases hf : t.locate? key with
    | some x =>
      rw [hf] at hfind
      rw [hfind]
      exact h.replace hf
    | none =>
      rw [hf] at hfind
      have hset : (t.set key slot).1 = t.insert key slot := by
        unfold PropertyTable.set
        rw [hf]
      rw [hset, hfind]
      have hinsert : (t.insert key slot).Refines _ _ := h.insert hf
      cases hfree : v.free <;> simpa [hfree] using hinsert
  | delete key =>
    have hfind : v.find? key = (t.locate? key).map Prod.snd := h.find?_eq
    simp only [PropertyTable.serve, Properties.serve, Places.serve]
    cases hf : t.locate? key with
    | some x =>
      rw [hf] at hfind
      rw [hfind]
      exact h.erase hf
    | none =>
      rw [hf] at hfind
      have hdelete : (t.delete key).1 = t := by
        unfold PropertyTable.delete
        rw [hf]
      have herase : m.erase key = m := by
        refine Finmap.ext_lookup fun k => Option.ext fun s => ?_
        rw [lookup_erase_iff, h.contents]
        exact ⟨And.right, fun hm => ⟨fun e => h.not_mem_row hf (e ▸ hm), hm⟩⟩
      rw [hdelete, herase, hfind]
      exact h
  | drain => exact .empty

/-- What the table answers is what the map answers. -/
theorem answers (h : t.Refines m v) (r : Request) : m.Answers r (t.serve r).2 := by
  cases r with
  | set key slot =>
    simp only [PropertyTable.serve, Properties.Answers, h.lookup_eq, get?]
    cases hf : t.locate? key with
    | some x =>
      obtain ⟨p, hp, -⟩ := h.valid.locate?_eq_some hf
      simp [set_of_locate? hf hp, hp]
    | none => simp [PropertyTable.set, hf]
  | delete key =>
    simp only [PropertyTable.serve, Properties.Answers, h.lookup_eq, get?]
    cases hf : t.locate? key with
    | some x =>
      obtain ⟨p, hp, -⟩ := h.valid.locate?_eq_some hf
      simp [delete_of_locate? hf hp, hp]
    | none => simp [PropertyTable.delete, hf]
  | drain =>
    refine ⟨h.keys, fun key slot => ?_⟩
    rw [h.lookup_eq, h.valid.get?_eq_some_iff]
    rfl

/-- As many properties are counted as the map has keys. -/
theorem count_eq (h : t.Refines m v) : t.count = m.keys.card := by
  have hkeys : m.keys = (t.toList.map Prod.fst).toFinset := by
    ext key
    rw [Finmap.mem_keys, Finmap.mem_iff, List.mem_toFinset]
    simp [h.lookup_eq, h.valid.get?_eq_some_iff]
  rw [hkeys, List.toFinset_card_of_nodup h.keys, List.length_map, h.count]

/-- Every chain ends, after at most as many steps as there are places. -/
theorem ends (h : t.Refines m v) {start : Option ℕ}
    (hstart : start = t.free ∨ start ∈ t.buckets) :
    ∃ l, Path t.places start l ∧ l.length ≤ t.places.size := by
  obtain ⟨chain, hc⟩ := h.chained
  rcases hstart with rfl | hstart
  · exact ⟨v.free, hc.freePath, hc.freePath.length_le hc.freeNodup⟩
  · obtain ⟨b, hb⟩ := Array.mem_iff_getElem?.mp hstart
    have hpath := hc.path b
    rw [hb, Option.join_some] at hpath
    exact ⟨chain b, hpath, hpath.length_le (hc.nodup b)⟩

end Refines

/-! ## All requests -/

theorem after_refines (requests : List Request) :
    (after requests).Refines (Properties.after requests) (Places.after requests) := by
  induction requests using List.reverseRecOn with
  | nil => exact .empty
  | append_singleton requests r ih =>
    simpa [after, Properties.after, Places.after] using ih.serve r

/-- **A property table is an ordered map.** After any requests, look-ups, the number of properties and
what the next request is answered are those of the finite map, the properties and the references are
listed in the order of the places, every chain ends, and at most three quarters of the buckets are
filled. -/
theorem ordered_map (requests : List Request) :
    (∀ key, (after requests).get? key = (Properties.after requests).lookup key) ∧
      (∀ key, (after requests).contains key = ((Properties.after requests).lookup key).isSome) ∧
      (after requests).count = (Properties.after requests).keys.card ∧
      (∀ r, (Properties.after requests).Answers r ((after requests).serve r).2) ∧
      (after requests).toList = (Places.after requests).live ∧
      (after requests).refs =
        (Places.after requests).live.flatMap (fun property => property.1 :: property.2.refs) ∧
      (∀ start, start = (after requests).free ∨ start ∈ (after requests).buckets →
        ∃ l, Path (after requests).places start l ∧ l.length ≤ (after requests).places.size) ∧
      4 * (after requests).count ≤ 3 * (after requests).buckets.size := by
  have h := after_refines requests
  refine ⟨fun key => h.lookup_eq.symm, fun key => ?_, h.count_eq, h.answers, h.toList_eq, ?_,
    fun start => h.ends, h.load⟩
  · rw [h.valid.contains_eq, h.lookup_eq]
  · rw [refs, h.toList_eq]

/-- A new key takes the place of a deleted one. -/
example : ((after [.set ⟨1, 0⟩ default, .set ⟨2, 0⟩ default, .set ⟨3, 0⟩ default, .delete ⟨2, 0⟩,
    .set ⟨4, 0⟩ default]).toList.map fun property => property.1.index) = [1, 4, 3] := by
  decide

end PropertyTable

end CountedHeap
