import CountedHeap.Mutation.Allocation

/-!
# Interning and offsets

* `Engine.intern`: the string cell of a content, made if there is none.
* `charOffset`: the byte offset of a character.
-/

namespace CountedHeap

namespace Heap

/-- Enters a string cell into the intern table. -/
def enterString (h : Heap) (content : String) (r : Handle) : Heap :=
  { h with strings := h.strings.insert (contentHash content) r }

/-- The character from which the one at `i` is looked for, and its byte offset: the nearest known
one, unless an end of the string is nearer. -/
def scanStart (h : Heap) (r : Handle) (t : Text) (i : Nat) : Nat × Nat :=
  let last : Nat × Nat := if i * 2 > t.charCount then (t.charCount, t.size) else (0, 0)
  match h.offsets.nearest? r i with
  | some known =>
    if distance known.character i ≤ min i (t.charCount - i) then (known.character, known.byte)
    else last
  | none => last

/-- The byte offset of a character, and whether it had to be looked for. In an ASCII string it is
the position itself. -/
def findOffset (h : Heap) (r : Handle) (i : Nat) : Except HeapError (Nat × Bool) := do
  let t ← h.text r
  if i > t.charCount then throw (.misuse .characterIndexOutOfRange)
  if t.isAscii then return (i, false)
  let (start, byte) := h.scanStart r t i
  return (scan t.content.toList start byte i, true)

/-- Remembers the byte offset of a character. -/
def rememberOffset (h : Heap) (r : Handle) (i byte : Nat) : Heap :=
  { h with offsets := h.offsets.record r i byte }

end Heap

variable {σ : Type}

/-- The byte offset of a character; that of the end is the length in bytes. -/
def charOffset (r : Handle) (i : Nat) : Attempt σ Nat := do
  let (byte, found) ← check (·.findOffset r i)
  if found then surely (modifyHeap (·.rememberOffset r i byte))
  return byte

/-- The string cell of a content, with one more count. A new cell is given up again if a finalizer
has interned the content while room was made for it. -/
def Engine.intern (E : Engine σ) (content : String) (isStatic : Bool) : Attempt σ Handle := do
  match ← surely (query (·.interned? content)) with
  | some r =>
    surely (modifyHeap (·.retain r))
    return r
  | none =>
    let made ← E.alloc (.string ⟨content, isStatic⟩)
    match ← surely (query (·.interned? content)) with
    | some r =>
      surely (modifyHeap (·.retain r))
      surely (E.release made)
      return r
    | none =>
      surely (modifyHeap (·.enterString content made))
      return made

end CountedHeap
