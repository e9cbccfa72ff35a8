/-!
# Buffers

Bytes in a row. A dynamic buffer can be resized, a fixed one keeps its length.

* `Buffer.zeroed`: a buffer of zero bytes.
* `Buffer.resize`: cut off at the end, or lengthened by zero bytes.
-/

namespace CountedHeap

/-- `n` zero bytes, built by doubling. -/
def zeroBytes (n : Nat) : ByteArray :=
  if n = 0 then .empty
  else
    let half := zeroBytes (n / 2)
    if n % 2 = 0 then half ++ half else (half ++ half).push 0
termination_by n
decreasing_by omega

/-- Bytes in a row. -/
structure Buffer where
  bytes : ByteArray
  dynamic : Bool

namespace Buffer

/-- A buffer of zero bytes. -/
def zeroed (length : Nat) (dynamic : Bool) : Buffer :=
  ⟨zeroBytes length, dynamic⟩

def size (b : Buffer) : Nat :=
  b.bytes.size

/-- Writes one byte; positions past the end are left alone. -/
def write (b : Buffer) (i : Nat) (byte : UInt8) : Buffer :=
  { b with bytes := if h : i < b.bytes.size then b.bytes.set i byte h else b.bytes }

/-- Cut off at the end, or lengthened by zero bytes. -/
def resize (b : Buffer) (length : Nat) : Buffer :=
  { b with
    bytes :=
      if length ≤ b.bytes.size then b.bytes.extract 0 length
      else b.bytes ++ zeroBytes (length - b.bytes.size) }

end Buffer

end CountedHeap
