import CountedHeap.Text.InternTable

/-!
# Strings

The content of a string cell. Every string is interned, so no two live cells hold the same content.

* `Text.charCount`, `Text.size`: the length in characters and in bytes.
* `byteOffset`: the number of bytes that the first characters take.
-/

namespace CountedHeap

/-- The content of a string cell. A static content lives outside the heap. -/
structure Text where
  content : String
  isStatic : Bool
deriving DecidableEq

namespace Text

/-- The hash a string is interned under. -/
def hash (t : Text) : UInt32 :=
  contentHash t.content

/-- The length in characters. -/
def charCount (t : Text) : Nat :=
  t.content.length

/-- The length in bytes. -/
def size (t : Text) : Nat :=
  t.content.utf8ByteSize

/-- Whether every character takes one byte. -/
def isAscii (t : Text) : Bool :=
  t.charCount == t.size

end Text

/-- The bytes that characters take. -/
def byteCount (cs : List Char) : Nat :=
  cs.foldl (fun n c => n + c.utf8Size) 0

/-- The bytes before the character at position `i`. -/
def byteOffset (cs : List Char) (i : Nat) : Nat :=
  byteCount (cs.take i)

end CountedHeap
