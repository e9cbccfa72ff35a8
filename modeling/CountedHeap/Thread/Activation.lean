import CountedHeap.Handle

/-!
# Activations

An activation is one running call: its function, its environments and its caller, each of which it
counts once.
-/

namespace CountedHeap

/-- How a function was called. A call that prevents yielding cannot be suspended. -/
structure ActivationFlags where
  strict : Bool := false
  tailCalled : Bool := false
  construct : Bool := false
  preventYield : Bool := false
  directEval : Bool := false
deriving DecidableEq, Inhabited

namespace ActivationFlags

/-- The flags that the low five bits of a byte stand for; the others mean nothing. -/
def ofBits (bits : UInt8) : ActivationFlags where
  strict := bits &&& 1 != 0
  tailCalled := bits &&& 2 != 0
  construct := bits &&& 4 != 0
  preventYield := bits &&& 8 != 0
  directEval := bits &&& 16 != 0

/-- One bit for each flag, from the lowest. -/
def toBits (f : ActivationFlags) : UInt8 :=
  f.strict.toUInt8 ||| (f.tailCalled.toUInt8 <<< 1) ||| (f.construct.toUInt8 <<< 2) |||
    (f.preventYield.toUInt8 <<< 3) ||| (f.directEval.toUInt8 <<< 4)

@[simp] theorem ofBits_toBits (f : ActivationFlags) : ofBits f.toBits = f := by
  obtain ⟨a, b, c, d, e⟩ := f
  cases a <;> cases b <;> cases c <;> cases d <;> cases e <;> rfl

end ActivationFlags

/-- A running call. Environments may be missing until they are needed. -/
structure Activation where
  func : Handle
  variableScope : Option Handle := none
  lexicalScope : Option Handle := none
  caller : Option Handle := none
  position : Nat := 0
  flags : ActivationFlags := {}
  bottom : Nat := 0
  result : Nat := 0
deriving DecidableEq, Inhabited

/-- The environments and the caller of an activation, as far as there are any. -/
def Activation.surroundings (a : Activation) : List Handle :=
  a.variableScope.toList ++ a.lexicalScope.toList ++ a.caller.toList

/-- The references an activation owns, one count each. -/
def Activation.refs (a : Activation) : List Handle :=
  a.func :: a.surroundings

end CountedHeap
