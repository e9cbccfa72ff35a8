import CountedHeap.Text.Basic

/-!
# Offset cache

The byte offset of a character is found by scanning from a known position: an end of the string, or
a position that an earlier look-up left in this cache. The cache holds one position for each of
the most recently used strings and no counts.

* `OffsetCache.nearest?`: the position known for a string.
* `OffsetCache.record`: remembers a position, most recent first.
* `scan`: the byte offset of a character, from the byte offset of another one.
-/

namespace CountedHeap

/-- A character of a string and its byte offset. -/
structure KnownOffset where
  string : Handle
  character : Nat
  byte : Nat
deriving DecidableEq

/-- Known positions, most recently used first, and how many are kept. -/
structure OffsetCache where
  entries : List KnownOffset
  capacity : Nat
deriving DecidableEq

/-- How far apart two positions are. -/
def distance (i j : Nat) : Nat :=
  (i - j) + (j - i)

namespace OffsetCache

def empty (capacity : Nat) : OffsetCache :=
  ⟨[], capacity⟩

/-- Of the positions known for a string the nearest one, the most recently used of several. -/
def nearest? (c : OffsetCache) (string : Handle) (character : Nat) : Option KnownOffset :=
  (c.entries.filter (·.string = string)).foldl (fun best e =>
    match best with
    | none => some e
    | some b =>
      if distance e.character character < distance b.character character then some e else best)
    none

/-- Remembers a position. It takes the place of the nearest one of the same string, else of the
least recently used one if the cache is full. -/
def record (c : OffsetCache) (string : Handle) (character byte : Nat) : OffsetCache :=
  if c.capacity = 0 then c
  else
    let kept :=
      match c.nearest? string character with
      | some old => c.entries.erase old
      | none =>
        if c.entries.length = c.capacity then c.entries.dropLast else c.entries
    { c with entries := ⟨string, character, byte⟩ :: kept }

/-- Forgets a string. -/
def remove (c : OffsetCache) (string : Handle) : OffsetCache :=
  { c with entries := c.entries.filter (·.string ≠ string) }

/-- Forgets everything. -/
def flush (c : OffsetCache) : OffsetCache :=
  { c with entries := [] }

def contains (c : OffsetCache) (string : Handle) : Bool :=
  c.entries.any (·.string = string)

end OffsetCache

/-- The byte offset of the character `target`, counted forwards or backwards from the character
`start` whose byte offset is known. -/
def scan (cs : List Char) (start startByte target : Nat) : Nat :=
  if start ≤ target then startByte + byteCount ((cs.drop start).take (target - start))
  else startByte - byteCount ((cs.drop target).take (start - target))

end CountedHeap
