import CountedHeap.Mutation.Allocation

/-!
# Properties, prototypes and elements

A property owns its key and what it holds. What a store displaces is given back after the store, so
an object never refers to a cell that it does not count.

* `Engine.putSlot`, `Engine.deleteProp`, `Engine.setPrototype`: named properties and prototypes.
* `Engine.arrayPush`, `Engine.arraySet`: elements of arrays.
-/

namespace CountedHeap

namespace Heap

/-- Whether a handle names a cell of a kind. -/
def checkKind (h : Heap) (r : Handle) (expected : CellKind) : Except HeapError Unit :=
  match h.kind? r with
  | none => .error .invalidHandle
  | some found => if found = expected then .ok () else .error (.wrongCellKind expected found)

/-- What an object's own property holds. -/
def ownSlot? (h : Heap) (r key : Handle) : Option Slot :=
  match h.object r with
  | .ok o => o.props.get? key
  | .error _ => none

/-- Whether a property can be stored: the key is a string, what it holds is live, and there is an
object. -/
def checkStore (h : Heap) (r key : Handle) (slot : Slot) : Except HeapError Unit := do
  h.checkKind key .string
  if slot.refs.all h.isLive then pure () else throw .invalidHandle
  let _ ← h.object r

/-- Stores a property; the references that it displaces. A new property counts its key. -/
def storeSlot (h : Heap) (r key : Handle) (slot : Slot) : Heap × List Handle :=
  let old := h.ownSlot? r key
  let h := h.modifyObject r fun o => { o with props := (o.props.set key slot).1 }
  let h := h.retainAll slot.refs
  match old with
  | none => (h.retain key, [])
  | some s => (h, s.refs)

/-- Deletes an own property; the references that it held, and its key. -/
def dropSlot (h : Heap) (r key : Handle) : Heap × Option (List Handle) :=
  match h.ownSlot? r key with
  | none => (h, none)
  | some s =>
    (h.modifyObject r fun o => { o with props := (o.props.delete key).1 },
      some (s.refs ++ [key]))

/-- Gives an object another prototype. -/
def linkPrototype (h : Heap) (r : Handle) (proto : Option Handle) : Heap :=
  (h.retainAll proto.toList).modifyObject r ({ · with proto := proto })

/-- Whether a handle names an array; its length. -/
def checkArray (h : Heap) (r : Handle) : Except HeapError Nat := do
  let o ← h.object r
  if o.kind = .array then return o.elements.size else throw (.misuse .notAnArray)

/-- Appends an element. -/
def appendElement (h : Heap) (r : Handle) (v : Value) : Heap :=
  (h.modifyObject r fun o => { o with elements := o.elements.push v }).retainAll v.refs

/-- Overwrites an element; the references that it displaces. Places before it are filled up with
`undefined`. -/
def storeElement (h : Heap) (r : Handle) (i : Nat) (v : Value) : Heap × List Handle :=
  let old : Value :=
    match h.object r with
    | .ok o => (o.elements[i]?).getD .undefined
    | .error _ => .undefined
  let h := h.modifyObject r fun o =>
    { o with
      elements :=
        if i < o.elements.size then o.elements.setIfInBounds i v
        else (o.elements ++ Array.replicate (i - o.elements.size) Value.undefined).push v }
  (h.retainAll v.refs, old.refs)

end Heap

namespace Engine

variable {σ : Type}

/-- Stores a property. -/
def putSlot (E : Engine σ) (r key : Handle) (slot : Slot) : Attempt σ Unit := do
  check (·.checkStore r key slot)
  let displaced ← surely (change (·.storeSlot r key slot))
  surely (E.releaseAll displaced)

/-- Deletes an own property; whether there was one. -/
def deleteProp (E : Engine σ) (r key : Handle) : Attempt σ Bool := do
  let _ ← check (·.object r)
  match ← surely (change (·.dropSlot r key)) with
  | some displaced =>
    surely (E.releaseAll displaced)
    return true
  | none => return false

/-- Gives an object another prototype. A chain never gets back to where it started. -/
def setPrototype (E : Engine σ) (r : Handle) (proto : Option Handle) : Attempt σ Unit := do
  let old ← check (·.checkPrototype r proto)
  surely (modifyHeap (·.linkPrototype r proto))
  surely (E.releaseAll old.toList)

/-- Appends to an array; its new length. -/
def arrayPush (r : Handle) (v : Value) : Attempt σ Nat := do
  check (·.checkValue v)
  let length ← check (·.checkArray r)
  surely (modifyHeap (·.appendElement r v))
  return length + 1

/-- Stores an element of an array. -/
def arraySet (E : Engine σ) (r : Handle) (i : Nat) (v : Value) : Attempt σ Unit := do
  check (·.checkValue v)
  let _ ← check (·.checkArray r)
  let displaced ← surely (change (·.storeElement r i v))
  surely (E.releaseAll displaced)

end Engine

end CountedHeap
