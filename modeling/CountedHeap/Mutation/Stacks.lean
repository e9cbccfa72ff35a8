import CountedHeap.Mutation.Properties

/-!
# Stacks and built-ins of threads

A value on a stack, a cell named by an activation and a built-in are counted once each. Leaving a
call drops its catchers and gives its references back before the next call is left.

* `push`, `Engine.pop`, `Engine.popN`, `Engine.replace`: the value stack.
* `pushActivation`, `Engine.unwindCalls`: the call stack.
* `pushCatcher`, `unwindCatchers`: the catch stack.
* `Engine.setBuiltin`: the table of built-ins.
-/

namespace CountedHeap

namespace Heap

/-- Whether a value can be pushed. -/
def checkPush (h : Heap) (t : Handle) (v : Value) : Except HeapError Unit := do
  h.checkValue v
  let thread ← h.thread t
  if thread.values.hasRoom then pure () else throw (.stackLimit .value)

/-- The value that a pop removes. -/
def checkPop (h : Heap) (t : Handle) : Except HeapError Value := do
  match (← h.thread t).values.poppable? with
  | some v => return v
  | none => throw .stackUnderflow

/-- The values that popping `n` of them removes, and the length that is left. -/
def checkPopN (h : Heap) (t : Handle) (n : Nat) : Except HeapError (List Value × Nat) := do
  let values := (← h.thread t).values
  if values.size - values.bottom < n then throw .stackUnderflow
  let length := values.size - n
  return (values.above length, length)

/-- The value that an overwrite displaces. -/
def checkReplace (h : Heap) (t : Handle) (i : Nat) (v : Value) : Except HeapError Value := do
  h.checkValue v
  match (← h.thread t).values.get? i with
  | some old => return old
  | none => throw (.misuse .stackIndexOutOfRange)

def modifyValues (h : Heap) (t : Handle) (f : ValueStack → ValueStack) : Heap :=
  h.modifyThread t fun thread => { thread with values := f thread.values }

/-- Whether every handle names an object. -/
def checkObjects (h : Heap) (rs : List Handle) : Except HeapError Unit :=
  rs.forM fun r => (h.object r).map fun _ => ()

/-- Whether a built-in can be set; the old one. -/
def checkBuiltin (h : Heap) (t : Handle) (id : BuiltinId) (r : Option Handle) :
    Except HeapError (Option Handle) := do
  h.checkObjects r.toList
  let thread ← h.thread t
  return thread.builtins.get id

def storeBuiltin (h : Heap) (t : Handle) (id : BuiltinId) (r : Option Handle) : Heap :=
  (h.modifyThread t fun thread => { thread with builtins := thread.builtins.set id r }).retainAll
    r.toList

/-- Whether a call can be entered. -/
def checkActivation (h : Heap) (t : Handle) (a : Activation) : Except HeapError Unit := do
  let func ← h.object a.func
  if !func.kind.isCallable then throw .notCallable
  h.checkObjects a.surroundings
  let thread ← h.thread t
  if thread.calls.size < thread.callLimit then pure () else throw (.stackLimit .call)

/-- Enters a call. -/
def enterCall (h : Heap) (t : Handle) (a : Activation) : Heap :=
  (h.modifyThread t (·.pushActivation a)).retainAll a.refs

/-- The innermost call, if the stack is longer than a length. -/
def checkUnwind (h : Heap) (t : Handle) (length : Nat) : Except HeapError (Option Activation) := do
  let thread ← h.thread t
  return if thread.calls.size ≤ length then none else thread.calls.back?

/-- Whether a catcher can be pushed. -/
def checkCatcher (h : Heap) (t : Handle) (c : Catcher) : Except HeapError Unit := do
  c.name.toList.forM (h.checkKind · .string)
  let thread ← h.thread t
  if thread.calls.size ≤ c.activation then throw (.misuse .catcherWithoutActivation)
  if thread.catchers.size < thread.catchLimit then pure () else throw (.stackLimit .catcher)

def modifyCatchers (h : Heap) (t : Handle) (f : Array Catcher → Array Catcher) : Heap :=
  h.modifyThread t fun thread => { thread with catchers := f thread.catchers }

end Heap

variable {σ : Type}

/-- Pushes a value, which the stack counts. -/
def push (t : Handle) (v : Value) : Attempt σ Unit := do
  check (·.checkPush t v)
  surely (modifyHeap fun h => (h.modifyValues t (·.push v)).retainAll v.refs)

/-- Enters a call, which counts the cells it names. -/
def pushActivation (t : Handle) (a : Activation) : Attempt σ Unit := do
  check (·.checkActivation t a)
  surely (modifyHeap (·.enterCall t a))

/-- Pushes a catcher for a call on the stack. -/
def pushCatcher (t : Handle) (c : Catcher) : Attempt σ Unit := do
  check (·.checkCatcher t c)
  surely (modifyHeap (·.modifyCatchers t (·.push c)))

/-- Drops the catchers above a length. -/
def unwindCatchers (t : Handle) (length : Nat) : Attempt σ Unit := do
  let _ ← check (·.thread t)
  surely (modifyHeap (·.modifyCatchers t (·.take length)))

namespace Engine

/-- Pops a value. -/
def pop (E : Engine σ) (t : Handle) : Attempt σ Unit := do
  let v ← check (·.checkPop t)
  surely (modifyHeap (·.modifyValues t .pop))
  surely (E.releaseAll v.refs)

/-- Pops values, top first. -/
def popN (E : Engine σ) (t : Handle) (n : Nat) : Attempt σ Unit := do
  let (popped, length) ← check (·.checkPopN t n)
  surely (modifyHeap (·.modifyValues t (·.truncate length)))
  surely (E.releaseAll (popped.flatMap Value.refs))

/-- Overwrites a value on the stack. -/
def replace (E : Engine σ) (t : Handle) (i : Nat) (v : Value) : Attempt σ Unit := do
  let old ← check (·.checkReplace t i v)
  surely (modifyHeap fun h => (h.modifyValues t (·.set i v)).retainAll v.refs)
  surely (E.releaseAll old.refs)

/-- Sets or clears a built-in. -/
def setBuiltin (E : Engine σ) (t : Handle) (id : BuiltinId) (r : Option Handle) :
    Attempt σ Unit := do
  let old ← check (·.checkBuiltin t id r)
  surely (modifyHeap (·.storeBuiltin t id r))
  surely (E.releaseAll old.toList)

/-- Leaves up to `n` calls, as long as the call stack is longer than a length. The thread is looked
up before each, for giving references back may have freed it. -/
def unwindWithin (E : Engine σ) (t : Handle) (length : Nat) : Nat → Attempt σ Unit
  | 0 => ExceptT.mk fun _ => none
  | n + 1 => do
    match ← check (·.checkUnwind t length) with
    | none => return
    | some a =>
      surely (modifyHeap (·.modifyThread t (·.popActivation a)))
      surely (E.releaseAll a.refs)
      E.unwindWithin t length n

/-- Leaves calls until the call stack is no longer than a length. -/
def unwindCalls (E : Engine σ) (t : Handle) (length : Nat) : Attempt σ Unit := do
  let calls ← check fun h => (h.thread t).map (·.calls.size)
  E.unwindWithin t length (calls + 1 + E.slack)

/-- Leaves the innermost call. -/
def popActivation (E : Engine σ) (t : Handle) : Attempt σ Unit := do
  let calls ← check fun h => (h.thread t).map (·.calls.size)
  if calls = 0 then refuse .stackUnderflow
  else E.unwindCalls t (calls - 1)

end Engine

end CountedHeap
