import CountedHeap.Mutation.Properties
import CountedHeap.Mutation.Strings

/-!
# Installing finalizers

A finalizer is stored as a property under the key of finalizers, which is interned when it is first
needed and which the heap counts from then on.

* `Engine.setFinalizer`: installs a finalizer, or clears it.
-/

namespace CountedHeap

namespace Engine

variable {σ : Type}

/-- The key of finalizers. -/
def finalizerKey (E : Engine σ) : Attempt σ Handle := do
  match ← surely (query (·.finalizerKey)) with
  | some key => return key
  | none =>
    let key ← E.intern finalizerKeyText true
    surely (modifyHeap ({ · with finalizerKey := some key }))
    return key

/-- Installs the finalizer of an object; `undefined` clears it. -/
def setFinalizer (E : Engine σ) (r : Handle) (function : Value) : Attempt σ Unit := do
  check fun h =>
    if function.isUndefined || h.isCallable function then .ok () else .error .notCallable
  let key ← E.finalizerKey
  E.putSlot r key (.data function)

end Engine

end CountedHeap
