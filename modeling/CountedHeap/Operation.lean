import CountedHeap.Heap.Lookup

/-!
# Operations

Everything a client can ask of a heap that changes it, as data, with the type of the answer. What
only reads the heap is a function on `Heap`.
-/

namespace CountedHeap

/-- What a tracing pass is asked to do: an emergency pass also drops what can be computed again; a
pass that skips finalizers frees cells that have one like any other. -/
structure PassOptions where
  emergency : Bool := false
  skipFinalizers : Bool := false
deriving DecidableEq, Inhabited

/-- An operation whose answer, if it is not refused, has the given type. -/
inductive Operation : Type → Type where
  /-- Registers a native function under the next number. -/
  | registerNative : Operation NativeId
  /-- Takes a count on the cell that a value refers to. -/
  | retain (v : Value) : Operation Unit
  /-- Gives a count back. -/
  | release (v : Value) : Operation Unit
  /-- Runs a tracing pass; whether it ran. -/
  | collect (options : PassOptions) : Operation Bool
  /-- Holds a value in a new root. -/
  | addRoot (v : Value) : Operation Nat
  | setRoot (n : Nat) (v : Value) : Operation Unit
  /-- Removes a root; the value it held. -/
  | removeRoot (n : Nat) : Operation (Option Value)
  | allocObject (proto : Option Handle) : Operation Handle
  | allocArray (proto : Option Handle) : Operation Handle
  | allocEnvironment (parent : Option Handle) : Operation Handle
  /-- Makes a function, whose code is copied into a buffer of its own. -/
  | allocFunction (proto : Option Handle) (constants : List Value) (functions : List Handle)
      (code : ByteArray) : Operation Handle
  | allocNativeFunction (id : NativeId) (proto : Option Handle) : Operation Handle
  | allocBuffer (length : Nat) (dynamic : Bool) : Operation Handle
  | allocBufferFrom (bytes : ByteArray) : Operation Handle
  /-- Makes a thread that shares the built-ins of another one. -/
  | allocThread (builtinsFrom : Option Handle) : Operation Handle
  /-- The string cell of a content, made if there is none. -/
  | intern (content : String) (isStatic : Bool) : Operation Handle
  /-- The byte offset of a character. -/
  | charOffset (s : Handle) (i : Nat) : Operation Nat
  | bufferWrite (b : Handle) (i : Nat) (byte : UInt8) : Operation Bool
  | bufferResize (b : Handle) (length : Nat) : Operation Unit
  | putProp (r key : Handle) (v : Value) : Operation Unit
  | putAccessor (r key : Handle) (getter setter : Value) : Operation Unit
  /-- Deletes an own property; whether there was one. -/
  | deleteProp (r key : Handle) : Operation Bool
  | setPrototype (r : Handle) (proto : Option Handle) : Operation Unit
  /-- Appends to an array; its new length. -/
  | arrayPush (r : Handle) (v : Value) : Operation Nat
  | arraySet (r : Handle) (i : Nat) (v : Value) : Operation Unit
  | setFinalizer (r : Handle) (function : Value) : Operation Unit
  | push (t : Handle) (v : Value) : Operation Unit
  | pop (t : Handle) : Operation Unit
  | popN (t : Handle) (n : Nat) : Operation Unit
  | replace (t : Handle) (i : Nat) (v : Value) : Operation Unit
  | setBuiltin (t : Handle) (id : BuiltinId) (r : Option Handle) : Operation Unit
  | pushActivation (t : Handle) (a : Activation) : Operation Unit
  | popActivation (t : Handle) : Operation Unit
  /-- Leaves calls until the call stack is no longer than a length. -/
  | unwindCalls (t : Handle) (length : Nat) : Operation Unit
  | pushCatcher (t : Handle) (c : Catcher) : Operation Unit
  | unwindCatchers (t : Handle) (length : Nat) : Operation Unit
  | startThread (t : Handle) : Operation Unit
  | resumeThread (t : Handle) : Operation Unit
  /-- Suspends the running thread and goes back to the one that resumed it. -/
  | yieldThread : Operation Unit
  | terminateThread (t : Handle) : Operation Unit

end CountedHeap
