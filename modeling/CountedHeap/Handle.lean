/-!
# Handles

A cell is named by the slot that holds it and by the generation of that slot. Freeing a slot moves
its generation on, so a handle that outlived its cell never names a later cell of the same slot.

* `Handle.display`: the text of a handle inside a value.
* `Handle.debug`: the text of a handle with its field names.
-/

namespace CountedHeap

/-- The name of a cell: a slot, and the generation of the slot when the name was given out. -/
structure Handle where
  index : Nat
  generation : UInt32
deriving DecidableEq, Inhabited

namespace Handle

/-- Slot and generation, joined by a colon. -/
def display (r : Handle) : String :=
  toString r.index ++ ":" ++ toString r.generation.toNat

/-- The fields of a handle, each with its name. -/
def debug (r : Handle) : String :=
  "CellRef \x7b index: " ++ toString r.index ++ ", generation: " ++
    toString r.generation.toNat ++ " \x7d"

end Handle

end CountedHeap
