import CountedHeap.Property.Slot

/-!
# Property tables

Properties are kept in an array, in the order in which they were made; a new property takes the
place of the most recently deleted one, if any. Buckets of a hash table hold the first property of
a chain, and each property names the next one of its chain, so a look-up never scans the array.
Keys are handles of interned strings, so equal keys are equal handles.

The table never touches counts: what a change displaces is handed back.

* `PropertyTable.get?`, `set`, `delete`, `drain`: the table as a map from keys to contents.
* `PropertyTable.toList`: the properties in the order of the array.
* `PropertyTable.storageBytes`: the storage that is accounted for a table.
-/

namespace CountedHeap

/-- A place of the array: a property, or a free place when there is no key. `next` is the next place
of the chain the property is on, or of the chain of free places. -/
structure Property where
  key : Option Handle
  slot : Slot
  next : Option Nat
deriving DecidableEq, Inhabited

/-- Properties in chains. -/
structure PropertyTable where
  count : Nat
  places : Array Property
  buckets : Array (Option Nat)
  free : Option Nat
deriving DecidableEq

namespace PropertyTable

/-- The table of no property, with four buckets. -/
def empty : PropertyTable :=
  ⟨0, #[], Array.replicate 4 none, none⟩

instance : Inhabited PropertyTable := ⟨empty⟩

/-- What became of a stored property: a new one, or an old one whose contents are handed back. -/
inductive Stored where
  | inserted
  | replaced (old : Slot)
deriving DecidableEq

/-- A key spread over 32 bits. -/
def spread (key : Handle) : UInt32 :=
  let g := key.generation
  let h := UInt32.ofNat key.index ^^^ ((g <<< 16) ||| (g >>> 16))
  let h := (h ^^^ (h >>> 16)) * 0x85ebca6b
  let h := (h ^^^ (h >>> 13)) * 0xc2b2ae35
  h ^^^ (h >>> 16)

/-- The bucket of a key. -/
def bucketOf (t : PropertyTable) (key : Handle) : Nat :=
  (spread key).toNat % t.buckets.size

/-- The first place of the chain that a key belongs to. -/
def chainOf (t : PropertyTable) (key : Handle) : Option Nat :=
  (t.buckets[t.bucketOf key]?).join

/-- The place of a key on the chain from `place`, with the place before it. -/
def locateFrom (places : Array Property) (key : Handle) :
    Nat → Option Nat → Option Nat → Option (Option Nat × Nat)
  | fuel + 1, before, some i =>
    match places[i]? with
    | none => none
    | some p =>
      if p.key = some key then some (before, i) else locateFrom places key fuel (some i) p.next
  | _, _, _ => none

/-- The place of a key, with the place before it on its chain. A chain passes no place twice, so it
ends within as many steps as there are places. -/
def locate? (t : PropertyTable) (key : Handle) : Option (Option Nat × Nat) :=
  if t.count = 0 then none
  else locateFrom t.places key t.places.size none (t.chainOf key)

/-- The contents of a property. -/
def get? (t : PropertyTable) (key : Handle) : Option Slot :=
  match t.locate? key with
  | some (_, i) => (t.places[i]?).map (·.slot)
  | none => none

def contains (t : PropertyTable) (key : Handle) : Bool :=
  (t.locate? key).isSome

/-- Puts the property at place `i` at the head of the chain of its bucket. -/
def link (t : PropertyTable) (i : Nat) : PropertyTable :=
  match (t.places[i]?).bind (·.key) with
  | none => t
  | some key =>
    let bucket := t.bucketOf key
    let first := t.chainOf key
    { t with
      places := t.places.modify i ({ · with next := first })
      buckets := t.buckets.setIfInBounds bucket (some i) }

/-- Twice as many buckets, with every property linked anew in the order of the array. -/
def grow (t : PropertyTable) : PropertyTable :=
  let size := 2 * t.buckets.size
  (List.range t.places.size).foldl link { t with buckets := Array.replicate size none }

/-- Whether one more property would fill more than three quarters of the buckets. -/
def crowded (t : PropertyTable) : Bool :=
  4 * (t.count + 1) > 3 * t.buckets.size

/-- Stores a property whose key is not in the table: in the first free place, else at the end. -/
def insert (t : PropertyTable) (key : Handle) (slot : Slot) : PropertyTable :=
  let t := if t.crowded then t.grow else t
  match t.free with
  | some i =>
    let next := (t.places[i]?).bind (·.next)
    let t := { t with
      count := t.count + 1
      free := next
      places := t.places.setIfInBounds i ⟨some key, slot, none⟩ }
    t.link i
  | none =>
    let i := t.places.size
    let t := { t with
      count := t.count + 1
      places := t.places.push ⟨some key, slot, none⟩ }
    t.link i

/-- Stores a property, over the old one if the key is in the table. -/
def set (t : PropertyTable) (key : Handle) (slot : Slot) : PropertyTable × Stored :=
  match t.locate? key with
  | some (_, i) =>
    let old := ((t.places[i]?).map (·.slot)).getD (.data .undefined)
    ({ t with places := t.places.modify i ({ · with slot := slot }) }, .replaced old)
  | none => (t.insert key slot, .inserted)

/-- Removes a property. Its place becomes the first free one. -/
def delete (t : PropertyTable) (key : Handle) : PropertyTable × Option (Handle × Slot) :=
  match t.locate? key with
  | none => (t, none)
  | some (before, i) =>
    match t.places[i]? with
    | none => (t, none)
    | some p =>
      let freed : Property := ⟨none, .data .undefined, t.free⟩
      let bucket := t.bucketOf key
      let t := match before with
        | some j => { t with places := t.places.modify j ({ · with next := p.next }) }
        | none => { t with buckets := t.buckets.setIfInBounds bucket p.next }
      ({ t with
          count := t.count - 1
          free := some i
          places := t.places.setIfInBounds i freed },
        some (key, p.slot))

/-- The properties in the order of the array. -/
def toList (t : PropertyTable) : List (Handle × Slot) :=
  t.places.toList.filterMap fun p => p.key.map (·, p.slot)

/-- Removes all properties, which are handed back. The buckets are those of a new table. -/
def drain (t : PropertyTable) : PropertyTable × List (Handle × Slot) :=
  (empty, t.toList)

/-- The references a table holds: each key, then what its property refers to. -/
def refs (t : PropertyTable) : List Handle :=
  t.toList.flatMap fun (key, slot) => key :: slot.refs

/-- Places that are reserved for `n` properties: none for none, and otherwise four, eight, … -/
def reserved (n : Nat) : Nat :=
  if n = 0 then 0 else max 4 n.nextPowerOfTwo

/-- The bytes of a place, of a bucket, and of a value in an array. -/
def placeBytes : Nat := 48
def bucketBytes : Nat := 4

/-- The storage that is accounted for a table. Deleting gives no storage back. -/
def storageBytes (t : PropertyTable) : Nat :=
  reserved t.places.size * placeBytes + t.buckets.size * bucketBytes

end PropertyTable

end CountedHeap
