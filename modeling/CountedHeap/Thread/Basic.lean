import CountedHeap.Config
import CountedHeap.Object
import CountedHeap.Thread.State
import CountedHeap.Thread.ValueStack
import CountedHeap.Thread.Activation
import CountedHeap.Thread.Catcher

/-!
# Threads

A thread is an object with a value stack, a call stack, a catch stack and a table of built-ins.

* `Thread.refs`: the references a thread owns, one count each.
* `Thread.tracedRefs`: what a tracing pass follows from a thread.
* `Thread.popActivation`: leaves the innermost call and drops its catchers.
-/

namespace CountedHeap

/-- The entries of the table of built-ins. -/
inductive BuiltinId where
  | global
  | objectPrototype
  | functionPrototype
  | arrayPrototype
  | threadPrototype
deriving DecidableEq

/-- A table of built-ins. -/
structure Builtins where
  global : Option Handle := none
  objectPrototype : Option Handle := none
  functionPrototype : Option Handle := none
  arrayPrototype : Option Handle := none
  threadPrototype : Option Handle := none
deriving DecidableEq, Inhabited

namespace Builtins

def get (b : Builtins) : BuiltinId → Option Handle
  | .global => b.global
  | .objectPrototype => b.objectPrototype
  | .functionPrototype => b.functionPrototype
  | .arrayPrototype => b.arrayPrototype
  | .threadPrototype => b.threadPrototype

def set (b : Builtins) (id : BuiltinId) (r : Option Handle) : Builtins :=
  match id with
  | .global => { b with global := r }
  | .objectPrototype => { b with objectPrototype := r }
  | .functionPrototype => { b with functionPrototype := r }
  | .arrayPrototype => { b with arrayPrototype := r }
  | .threadPrototype => { b with threadPrototype := r }

/-- The built-ins that are there, in the order of the table. -/
def refs (b : Builtins) : List Handle :=
  b.global.toList ++ b.objectPrototype.toList ++ b.functionPrototype.toList ++
    b.arrayPrototype.toList ++ b.threadPrototype.toList

end Builtins

/-- The body of a thread cell. The last element of a stack is its top. -/
structure Thread where
  object : Object
  state : ThreadState
  values : ValueStack
  calls : Array Activation
  callLimit : Nat
  /-- How many calls on the stack prevent yielding. -/
  preventing : Nat
  catchers : Array Catcher
  catchLimit : Nat
  builtins : Builtins
  /-- The thread that resumed this one, which it counts. -/
  resumer : Option Handle
deriving DecidableEq

namespace Thread

/-- An inactive thread with empty stacks. -/
def create (config : Config) (proto : Option Handle) (builtins : Builtins) : Thread where
  object := { kind := .thread, proto := proto }
  state := .inactive
  values := .empty config.valueLimit
  calls := #[]
  callLimit := config.callLimit
  preventing := 0
  catchers := #[]
  catchLimit := config.catchLimit
  builtins := builtins
  resumer := none

/-- The references a thread owns: object part, value stack, calls, built-ins, resumer. -/
def refs (t : Thread) : List Handle :=
  t.object.refs ++ t.values.refs ++ t.calls.toList.flatMap Activation.refs ++ t.builtins.refs ++
    t.resumer.toList

/-- The references that a tracing pass follows: the owned ones and the names of caught
variables. -/
def tracedRefs (t : Thread) : List Handle :=
  t.refs ++ t.catchers.toList.flatMap (·.name.toList)

/-- Enters a call. -/
def pushActivation (t : Thread) (a : Activation) : Thread :=
  { t with
    calls := t.calls.push a
    preventing := if a.flags.preventYield then t.preventing + 1 else t.preventing }

/-- The catchers before the first one that belongs to an activation at `depth` or above. -/
def catchersBelow (t : Thread) (depth : Nat) : Array Catcher :=
  match t.catchers.findIdx? (fun c => depth ≤ c.activation) with
  | some i => t.catchers.take i
  | none => t.catchers

/-- Leaves the innermost call. Its catchers, and those pushed after them, are dropped. -/
def popActivation (t : Thread) (a : Activation) : Thread :=
  let t := { t with catchers := t.catchersBelow (t.calls.size - 1) }
  { t with
    calls := t.calls.pop
    preventing := if a.flags.preventYield then t.preventing - 1 else t.preventing }

end Thread

end CountedHeap
