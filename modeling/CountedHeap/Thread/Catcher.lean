import CountedHeap.Handle

/-!
# Catchers

A catcher belongs to an activation and says where control goes when something is thrown or a label
is left. Its kind, its flags and its label share one word of 32 bits: the kind in bits 0 to 3, the
flags in bits 4 to 7, the label in bits 8 to 31. It counts nothing: the name of the caught variable
belongs to the function of the activation.

* `Catcher.kind`, `Catcher.flags`, `Catcher.label`: the parts of the word.
* `Catcher.setFlags`, `Catcher.setLabel`: write one part.
-/

namespace CountedHeap

/-- What a catcher is for. -/
inductive CatchKind where
  | unknown
  | handler
  | label
deriving DecidableEq

namespace CatchKind

/-- The number that stands for a kind in the word. -/
def toBits : CatchKind → UInt32
  | unknown => 0
  | handler => 1
  | label => 2

/-- The kind that a number stands for. -/
def ofBits (bits : UInt32) : CatchKind :=
  if bits = 1 then handler else if bits = 2 then label else unknown

@[simp] theorem ofBits_toBits (k : CatchKind) : ofBits k.toBits = k := by
  cases k <;> rfl

end CatchKind

/-- An entry of a catch stack. -/
structure Catcher where
  name : Option Handle := none
  activation : Nat
  base : Nat
  position : Nat
  word : UInt32
deriving DecidableEq, Inhabited

namespace Catcher

/-- The greatest label. -/
def maxLabel : UInt32 := 0xffffff

/-- A catcher without a name, flags or a label. -/
def ofKind (kind : CatchKind) (activation base position : Nat) : Catcher where
  activation := activation
  base := base
  position := position
  word := kind.toBits

def kind (c : Catcher) : CatchKind :=
  CatchKind.ofBits (c.word &&& 0xf)

/-- The four flags that have a meaning. -/
def flags (c : Catcher) : UInt8 :=
  (c.word >>> 4).toUInt8 &&& 0xf

/-- Writes all eight bits of a byte from bit 4 of the word on, over cleared flags. -/
def setFlags (c : Catcher) (bits : UInt8) : Catcher :=
  { c with word := (c.word &&& (0xffffff0f : UInt32)) ||| (bits.toUInt32 <<< 4) }

def label (c : Catcher) : UInt32 :=
  c.word >>> 8

/-- Writes the low 24 bits of a label. -/
def setLabel (c : Catcher) (label : UInt32) : Catcher :=
  { c with word := (c.word &&& (0xff : UInt32)) ||| ((label &&& maxLabel) <<< 8) }

end Catcher

end CountedHeap
