import CountedHeap.Heap.Basic

/-!
# Looking properties up

A property is looked for in an object, then in its prototype, and so on. A chain of more than
`maxPrototypeChain` objects is not followed to its end.

A finalizer is a native function stored under a key of its own, so objects inherit the finalizer of
their prototypes.

* `Heap.findInChain`: the first object of a chain that has a property.
* `Heap.resolveFinalizer`: the finalizer of a cell.
* `Heap.checkPrototype`: whether a prototype link would close a cycle or make a chain too long.
-/

namespace CountedHeap

/-- How many objects a look-up visits. -/
def maxPrototypeChain : Nat := 10000

/-- The key of finalizers. -/
def finalizerKeyText : String := "\u00ffFinalizer"

namespace Heap

/-- The first object of the chain from `r` that has the property, within `n` objects. -/
def findWithin (h : Heap) (key : Handle) : Nat → Handle → Except HeapError (Option (Handle × Slot))
  | 0, _ => .error .prototypeChainTooDeep
  | n + 1, r =>
    match h.object r with
    | .error e => .error e
    | .ok o =>
      match o.props.get? key with
      | some slot => .ok (some (r, slot))
      | none =>
        match o.proto with
        | some p => h.findWithin key n p
        | none => .ok none

/-- The first object of a chain that has a property, with what it holds. -/
def findInChain (h : Heap) (r key : Handle) : Except HeapError (Option (Handle × Slot)) :=
  h.findWithin key maxPrototypeChain r

/-- What a property holds, own or inherited. -/
def getProp (h : Heap) (r key : Handle) : Except HeapError (Option Slot) :=
  (h.findInChain r key).map fun found => found.map (·.2)

/-- The value of a data property; `undefined` for an accessor and where there is none. -/
def getValue (h : Heap) (r key : Handle) : Except HeapError Value :=
  (h.getProp r key).map fun slot => (slot.bind Slot.data?).getD .undefined

/-- Whether there is a property, own or inherited. -/
def hasProp (h : Heap) (r key : Handle) : Except HeapError Bool :=
  (h.findInChain r key).map Option.isSome

/-- Whether `r` may get the prototype `p`: the chain from `p` must not pass `r`, and must end
within `n` objects. -/
def checkChain (h : Heap) (r : Handle) : Nat → Option Handle → Except HeapError Unit
  | _, none => .ok ()
  | n, some p =>
    if p = r then .error (.misuse .prototypeCycle)
    else
      match n with
      | 0 => .error .prototypeChainTooDeep
      | n + 1 =>
        match h.object p with
        | .error e => .error e
        | .ok o => h.checkChain r n o.proto

/-- Whether `r` may get a prototype; the one it has. -/
def checkPrototype (h : Heap) (r : Handle) (proto : Option Handle) :
    Except HeapError (Option Handle) := do
  let o ← h.object r
  h.checkProto proto
  h.checkChain r maxPrototypeChain proto
  return o.proto

/-- A finalizer and the object of the chain that has it. -/
structure Finalizer where
  holder : Handle
  function : Value
deriving DecidableEq

/-- The finalizer of a cell: the value under the key of finalizers, unless it is `undefined`. A
look-up that fails finds none. -/
def resolveFinalizer (h : Heap) (r : Handle) : Option Finalizer :=
  match h.finalizerKey with
  | none => none
  | some key =>
    match h.findInChain r key with
    | .ok (some (holder, .data v)) => if v.isUndefined then none else some ⟨holder, v⟩
    | _ => none

def hasFinalizer (h : Heap) (r : Handle) : Bool :=
  (h.resolveFinalizer r).isSome

/-- The registered function that a value calls: itself, or the one that an object wraps. -/
def nativeOf (h : Heap) (v : Value) : Option NativeId :=
  let id? : Option NativeId :=
    match v with
    | .native id => some id
    | .ref r =>
      match h.object r with
      | .ok o => o.native?
      | .error _ => none
    | _ => none
  id?.filter fun id => id.index < h.natives

/-- Whether a value can be installed as a finalizer: a registered function, or an object that wraps
a function. -/
def isCallable (h : Heap) (v : Value) : Bool :=
  match v with
  | .native id => decide (id.index < h.natives)
  | .ref r =>
    match h.object r with
    | .ok o => o.native?.isSome
    | .error _ => false
  | _ => false

end Heap

end CountedHeap
