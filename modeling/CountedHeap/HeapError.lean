import CountedHeap.Cell.Kind
import CountedHeap.Thread.State

/-!
# Refusals

Why an operation on the heap refused to act. Taking and releasing counts never fails.

* `Misuse`: the operation does not apply to the cell it was given.
* `HeapError.message`: the wording of every refusal.
-/

namespace CountedHeap

/-- An operation that does not apply to its argument. -/
inductive Misuse where
  | prototypeCycle
  | notAnArray
  | bufferNotDynamic
  | characterIndexOutOfRange
  | stackIndexOutOfRange
  | catcherWithoutActivation
  | noRunningThread
  | anotherThreadRunning
  | resumesItself
  | noResumer
deriving DecidableEq

/-- The wording of a misuse. -/
def Misuse.message : Misuse → String
  | prototypeCycle => "prototype cycle"
  | notAnArray => "not an array"
  | bufferNotDynamic => "buffer is not dynamic"
  | characterIndexOutOfRange => "character index out of range"
  | stackIndexOutOfRange => "stack index out of range"
  | catcherWithoutActivation => "catcher without activation"
  | noRunningThread => "no running thread"
  | anotherThreadRunning => "another thread is running"
  | resumesItself => "thread cannot resume itself"
  | noResumer => "thread has no resumer"

/-- The stacks of a thread. -/
inductive StackName where
  | value
  | call
  | catcher
deriving DecidableEq

/-- The wording of a stack's name. -/
def StackName.text : StackName → String
  | value => "value stack"
  | call => "call stack"
  | catcher => "catch stack"

/-- Why an operation on the heap refused to act. -/
inductive HeapError where
  | outOfMemory
  | invalidHandle
  | wrongCellKind (expected found : CellKind)
  | misuse (why : Misuse)
  | notCallable
  | prototypeChainTooDeep
  | stackLimit (stack : StackName)
  | stackUnderflow
  | invalidThreadState (expected found : ThreadState)
  | yieldPrevented
deriving DecidableEq

/-- The wording of a refusal. -/
def HeapError.message : HeapError → String
  | outOfMemory => "out of memory"
  | invalidHandle => "invalid handle"
  | wrongCellKind expected found =>
    "expected " ++ expected.name ++ " cell, found " ++ found.name
  | misuse why => "type error: " ++ why.message
  | notCallable => "value is not callable"
  | prototypeChainTooDeep => "prototype chain too deep"
  | stackLimit stack => stack.text ++ " limit reached"
  | stackUnderflow => "stack underflow"
  | invalidThreadState expected found =>
    "invalid thread state: expected " ++ expected.name ++ ", found " ++ found.name
  | yieldPrevented => "yield prevented by an active native call"

end CountedHeap
