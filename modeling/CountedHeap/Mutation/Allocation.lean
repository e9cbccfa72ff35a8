import CountedHeap.Reclaim.Release

/-!
# Making cells

A new cell has one count, which its creator holds, and takes a count on each cell that it refers
to. When the heap is full an emergency pass runs, and the allocation is refused if that has not
made room enough.

* `Engine.reserve`: makes room.
* `Engine.alloc`: makes a cell.
* `Engine.allocObject`, `allocFunction`, `allocThread`, …: make cells of each kind.
-/

namespace CountedHeap

namespace Heap

/-- Puts a new cell into a slot. -/
def place (h : Heap) (body : Body) : Heap × Handle :=
  let (a, r) := h.arena.place body
  ({ h with arena := a }, r)

/-- Whether a compiled function can refer to its constants and templates. -/
def checkParts (h : Heap) (constants : List Value) (functions : List Handle) :
    Except HeapError Unit := do
  constants.forM h.checkValue
  functions.forM fun r => (h.object r).map fun _ => ()

/-- The built-ins of a thread; of no thread, none. -/
def builtinsOf (h : Heap) (t : Option Handle) : Except HeapError Builtins :=
  match t with
  | some t => (h.thread t).map (·.builtins)
  | none => .ok {}

end Heap

namespace Engine

variable {σ : Type}

/-- Makes room for a cell of a size, by an emergency pass if need be. -/
def reserve (E : Engine σ) (bytes : Nat) : Attempt σ Unit := do
  if !(← surely (query (·.arena.hasRoom bytes))) then
    let _ ← surely (E.collect { emergency := true })
    if !(← surely (query (·.arena.hasRoom bytes))) then refuse .outOfMemory

/-- Makes a cell. -/
def alloc (E : Engine σ) (body : Body) : Attempt σ Handle := do
  E.reserve body.size
  surely (change (·.place body))

/-- Makes an object that counts what it refers to. -/
def allocObjectWith (E : Engine σ) (o : Object) : Attempt σ Handle := do
  check (·.checkProto o.proto)
  let r ← E.alloc (.object o)
  surely (modifyHeap (·.retainAll o.refs))
  return r

/-- Makes an object without properties. -/
def allocObject (E : Engine σ) (kind : ObjectKind) (proto : Option Handle) : Attempt σ Handle :=
  E.allocObjectWith { kind := kind, proto := proto }

/-- Makes a buffer of zero bytes. The bytes are laid out once there is room for them. -/
def allocBuffer (E : Engine σ) (length : Nat) (dynamic : Bool) : Attempt σ Handle := do
  E.reserve (Body.cellBytes + length)
  surely (change fun h => h.place (.buffer (.zeroed length dynamic)))

/-- Makes a fixed buffer that holds the given bytes. -/
def allocBufferFrom (E : Engine σ) (bytes : ByteArray) : Attempt σ Handle :=
  E.alloc (.buffer ⟨bytes, false⟩)

/-- Makes a function. The buffer of its code belongs to the function alone, and goes again if the
function cannot be made. -/
def allocFunction (E : Engine σ) (proto : Option Handle) (constants : List Value)
    (functions : List Handle) (code : ByteArray) : Attempt σ Handle := do
  check (·.checkParts constants functions)
  let buffer ← E.allocBufferFrom code
  let made ← outcome (E.allocObjectWith
    { kind := .function
      proto := proto
      callable := .compiled ⟨constants, functions, some buffer⟩ })
  surely (E.release buffer)
  match made with
  | .ok r => return r
  | .error e => refuse e

/-- Makes an object that wraps a registered native function. -/
def allocNativeFunction (E : Engine σ) (id : NativeId) (proto : Option Handle) :
    Attempt σ Handle := do
  check fun h => if id.index < h.natives then .ok () else .error .notCallable
  E.allocObjectWith { kind := .nativeFunction, proto := proto, callable := .native id }

/-- Makes an inactive thread. Its prototype is the prototype of threads among its built-ins. -/
def allocThread (E : Engine σ) (builtinsFrom : Option Handle) : Attempt σ Handle := do
  let builtins ← check (·.builtinsOf builtinsFrom)
  let config ← surely (query (·.config))
  let t := Thread.create config builtins.threadPrototype builtins
  let r ← E.alloc (.thread t)
  surely (modifyHeap (·.retainAll t.refs))
  return r

end Engine

end CountedHeap
