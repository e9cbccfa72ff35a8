import CountedHeap.Handle

/-!
# Intern table

The table maps the content of strings to the cells that hold them. It knows content only by a hash,
so a look-up asks of each cell with the right hash whether it is the one. The table holds no count.

* `contentHash`: the hash of a content.
* `InternTable.find?`, `insert`, `remove`: the table's operations.
-/

namespace CountedHeap

/-- The bytes of a text as digits of base 31, modulo `2 ^ 32`. -/
def contentHash (text : String) : UInt32 :=
  text.toUTF8.foldl (fun h b => h * 31 + b.toUInt32) 0

/-- Cells of strings by hash. -/
structure InternTable where
  buckets : Array (Array (UInt32 × Handle))
  count : Nat

namespace InternTable

/-- No strings, in 256 buckets. -/
def empty : InternTable :=
  ⟨Array.replicate 256 #[], 0⟩

/-- The bucket of a hash. -/
def bucketOf (t : InternTable) (hash : UInt32) : Nat :=
  hash.toNat % t.buckets.size

/-- The entries that share a hash's bucket. -/
def bucket (t : InternTable) (hash : UInt32) : Array (UInt32 × Handle) :=
  t.buckets.getD (t.bucketOf hash) #[]

/-- The cells that have a hash, in the order in which a look-up meets them. -/
def candidates (t : InternTable) (hash : UInt32) : List Handle :=
  (t.bucket hash).toList.filterMap fun (h, r) => if h = hash then some r else none

/-- The first cell with a hash that is the one sought. -/
def find? (t : InternTable) (hash : UInt32) (isSought : Handle → Bool) : Option Handle :=
  (t.candidates hash).find? isSought

/-- Adds an entry to the end of its bucket. -/
def place (buckets : Array (Array (UInt32 × Handle))) (entry : UInt32 × Handle) :
    Array (Array (UInt32 × Handle)) :=
  buckets.modify (entry.1.toNat % buckets.size) (·.push entry)

/-- Twice as many buckets, with the entries placed anew bucket by bucket. -/
def grow (t : InternTable) : InternTable :=
  let entries := t.buckets.toList.flatMap Array.toList
  { t with buckets := entries.foldl place (Array.replicate (2 * t.buckets.size) #[]) }

/-- Adds a cell under a hash. There are never more than two entries for each bucket. -/
def insert (t : InternTable) (hash : UInt32) (r : Handle) : InternTable :=
  let t := if t.count + 1 > 2 * t.buckets.size then t.grow else t
  { t with buckets := place t.buckets (hash, r), count := t.count + 1 }

/-- Takes the entry at `i` out, and moves the last entry to its place. -/
def swapRemove (entries : Array (UInt32 × Handle)) (i : Nat) : Array (UInt32 × Handle) :=
  match entries.back? with
  | some last => (entries.setIfInBounds i last).pop
  | none => entries

/-- Removes a cell that was added under a hash; whether it was there. -/
def remove (t : InternTable) (hash : UInt32) (r : Handle) : InternTable × Bool :=
  match (t.bucket hash).findIdx? (fun entry => entry.2 = r) with
  | some i =>
    ({ t with
        buckets := t.buckets.modify (t.bucketOf hash) (swapRemove · i)
        count := t.count - 1 }, true)
  | none => (t, false)

end InternTable

end CountedHeap
