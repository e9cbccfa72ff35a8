import CountedHeap.Program

/-!
# Contexts

A context is a heap with a main thread that runs and that a root holds. The main thread has a global
object, a prototype of objects and a prototype of threads among its built-ins.

* `Context.create`: prepares an empty heap.
* `Context.newThread`, `Context.newObject`: share what the main thread has.
-/

namespace CountedHeap

/-- The main thread and the root that holds it. -/
structure Context where
  main : Handle
  mainRoot : Nat
deriving DecidableEq

namespace Context

variable {σ : Type}

open Program (attempt)

/-- Prepares an empty heap. The global object and the prototype of threads inherit from the
prototype of objects; in the end the built-ins and the root alone hold everything. -/
def create : ExceptT HeapError (Program σ) Context := do
  let objectProto ← attempt (.allocObject none)
  let global ← attempt (.allocObject (some objectProto))
  let threadProto ← attempt (.allocObject (some objectProto))
  let main ← attempt (.allocThread none)
  attempt (.setBuiltin main .objectPrototype (some objectProto))
  attempt (.setBuiltin main .global (some global))
  attempt (.setBuiltin main .threadPrototype (some threadProto))
  attempt (.setPrototype main (some threadProto))
  attempt (.release (.ref objectProto))
  attempt (.release (.ref global))
  attempt (.release (.ref threadProto))
  let mainRoot ← attempt (.addRoot (.ref main))
  attempt (.release (.ref main))
  attempt (.startThread main)
  return ⟨main, mainRoot⟩

/-- A built-in of the main thread. -/
def builtin (c : Context) (h : Heap) (id : BuiltinId) : Option Handle :=
  match h.builtin c.main id with
  | .ok r => r
  | .error _ => none

/-- Makes a thread with the built-ins of the main thread. -/
def newThread (c : Context) : Operation Handle :=
  .allocThread (some c.main)

/-- Makes an object that inherits from the prototype of objects. -/
def newObject (c : Context) (h : Heap) : Operation Handle :=
  .allocObject (c.builtin h .objectPrototype)

end Context

end CountedHeap
