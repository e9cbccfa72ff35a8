/-!
# Kinds of cells

Strings and buffers are leaves: they refer to nothing. Objects and threads are composite: they own
references to other cells and stand on the lists of the heap.
-/

namespace CountedHeap

/-- What a cell holds. -/
inductive CellKind where
  | string
  | object
  | buffer
  | thread
deriving DecidableEq

namespace CellKind

/-- Whether cells of this kind own references. -/
def isComposite : CellKind → Bool
  | object | thread => true
  | string | buffer => false

/-- The name of a kind in messages. -/
def name : CellKind → String
  | string => "String"
  | object => "Object"
  | buffer => "Buffer"
  | thread => "Thread"

end CellKind

end CountedHeap
