import CountedHeap.Handle

/-!
# Values

A value is an immediate or a reference to a cell. Storing a reference anywhere stable (a property,
an array element, a stack slot, a root) holds exactly one count on the cell; immediates hold none.

* `Value.handle?`: the cell a value refers to.
* `Value.toInt32?`: an integral number within 32 bits, as an integer.
-/

namespace CountedHeap

/-- The position of a native function in a heap's register. -/
structure NativeId where
  index : Nat
deriving DecidableEq, Inhabited

/-- An immediate, or a reference to a cell. -/
inductive Value where
  | undefined
  | null
  | bool (b : Bool)
  | number (x : Float)
  | native (id : NativeId)
  | ref (r : Handle)
deriving DecidableEq, Inhabited

namespace Value

/-- The cell a value refers to, if it is not an immediate. -/
def handle? : Value → Option Handle
  | ref r => some r
  | _ => none

/-- The references a value holds: one for a reference, none for an immediate. -/
def refs (v : Value) : List Handle :=
  v.handle?.toList

def isUndefined : Value → Bool
  | undefined => true
  | _ => false

def isNull : Value → Bool
  | null => true
  | _ => false

def isRef : Value → Bool
  | ref _ => true
  | _ => false

def bool? : Value → Option Bool
  | bool b => some b
  | _ => none

def number? : Value → Option Float
  | number x => some x
  | _ => none

def native? : Value → Option NativeId
  | native id => some id
  | _ => none

/-- A 32-bit integer as a number. -/
def ofInt32 (n : Int32) : Value :=
  number n.toFloat

/-- The integer that a number equals, if it equals one between `-2 ^ 31` and `2 ^ 31 - 1`. -/
def toInt32? : Value → Option Int32
  | number x =>
    if x == x.floor && decide (-2147483648.0 ≤ x) && decide (x ≤ 2147483647.0) then
      some x.toInt32
    else none
  | _ => none

/-- Equality as programs see it: numbers compare as numbers, so NaN differs from itself and the
two zeros agree; everything else compares by identity. -/
def equals : Value → Value → Bool
  | undefined, undefined => true
  | null, null => true
  | bool a, bool b => a == b
  | number x, number y => x == y
  | native a, native b => a == b
  | ref r, ref s => r == s
  | _, _ => false

end Value

end CountedHeap
