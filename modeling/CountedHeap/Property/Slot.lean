import CountedHeap.Value

/-!
# Contents of a property

A property holds a value, or a pair of functions that read and write it. It owns one count on each
cell that its values refer to.
-/

namespace CountedHeap

/-- What a property holds. -/
inductive Slot where
  | data (v : Value)
  | accessor (getter setter : Value)
deriving DecidableEq, Inhabited

namespace Slot

/-- The references a property holds, a getter before its setter. -/
def refs : Slot → List Handle
  | data v => v.refs
  | accessor getter setter => getter.refs ++ setter.refs

/-- The value of a data property. -/
def data? : Slot → Option Value
  | data v => some v
  | accessor _ _ => none

end Slot

end CountedHeap
