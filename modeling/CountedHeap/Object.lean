import CountedHeap.Property.Table

/-!
# Objects

The part that plain objects, arrays, functions, environments and threads share: properties, array
elements, a prototype, and what makes the object a function.

* `Object.refs`: the references an object owns, one count each.
* `Object.payloadBytes`: the storage that is accounted for what an object holds.
-/

namespace CountedHeap

/-- What an object is for. -/
inductive ObjectKind where
  | plain
  | array
  | function
  | nativeFunction
  | environment
  | thread
deriving DecidableEq

/-- Whether objects of this kind can be called. -/
def ObjectKind.isCallable : ObjectKind → Bool
  | function | nativeFunction => true
  | plain | array | environment | thread => false

/-- The parts of a compiled function: constants, templates of inner functions, and a buffer with
its code. -/
structure CompiledFunction where
  constants : List Value
  functions : List Handle
  code : Option Handle
deriving DecidableEq

/-- What makes an object a function. -/
inductive Callable where
  | none
  | compiled (f : CompiledFunction)
  | native (id : NativeId)
deriving DecidableEq

/-- The object part of a cell. -/
structure Object where
  kind : ObjectKind
  proto : Option Handle := none
  props : PropertyTable := .empty
  elements : Array Value := #[]
  callable : Callable := .none
deriving DecidableEq

/-- The references of a compiled function: constants, templates, code. -/
def CompiledFunction.refs (f : CompiledFunction) : List Handle :=
  f.constants.flatMap Value.refs ++ f.functions ++ f.code.toList

/-- The references of a callable part. -/
def Callable.refs : Callable → List Handle
  | .compiled f => f.refs
  | .none | .native _ => []

namespace Object

/-- The references an object owns, one count each: properties, elements, prototype, function. -/
def refs (o : Object) : List Handle :=
  o.props.refs ++ o.elements.toList.flatMap Value.refs ++ o.proto.toList ++ o.callable.refs

/-- The function that an object wraps. -/
def native? (o : Object) : Option NativeId :=
  match o.callable with
  | .native id => some id
  | .none | .compiled _ => none

/-- The bytes of a value and of a reference in an array. -/
def valueBytes : Nat := 16
def refBytes : Nat := 8

/-- The storage that is accounted for what an object holds. -/
def payloadBytes (o : Object) : Nat :=
  o.props.storageBytes + o.elements.size * valueBytes +
    match o.callable with
    | .compiled f => f.constants.length * valueBytes + f.functions.length * refBytes
    | .none | .native _ => 0

end Object

end CountedHeap
