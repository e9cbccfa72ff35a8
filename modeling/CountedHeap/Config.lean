/-!
# Configuration

Limits of a heap and the pacing of its tracing passes.

* `Config.nextTrigger`: where the trigger counter starts after a pass.
-/

namespace CountedHeap

/-- The limits and the pacing of a heap. Voluntary passes are those that a drain starts once the
trigger counter is used up. -/
structure Config where
  maxBytes : Nat := 64 * 1024 * 1024
  triggerInitial : Int := 10000
  triggerFactor : Int := 2
  triggerOffset : Int := 1024
  offsetCacheSize : Nat := 4
  valueLimit : Nat := 1000000
  callLimit : Nat := 10000
  catchLimit : Nat := 10000
  voluntary : Bool := true
deriving DecidableEq

namespace Config

/-- The nearest integer of 64 bits. -/
def clamp (n : Int) : Int :=
  max (-0x8000000000000000) (min 0x7fffffffffffffff n)

/-- The trigger counter after a pass that left `live` composite cells, a number of 64 bits that is
taken as signed. Product and sum stay within 64 bits. -/
def nextTrigger (c : Config) (live : Nat) : Int :=
  clamp (clamp (Int.bmod live (Nat.pow 2 64) * c.triggerFactor) + c.triggerOffset)

end Config

end CountedHeap
