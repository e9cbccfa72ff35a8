/-!
# States of a thread

A thread starts inactive and runs once it is started or resumed. While a thread it resumed runs, it
is itself in state resumed; it runs again when that thread yields or ends.
-/

namespace CountedHeap

/-- Where a thread stands between its start and its end. -/
inductive ThreadState where
  | inactive
  | running
  | resumed
  | yielded
  | terminated
deriving DecidableEq

namespace ThreadState

/-- The name of a state in messages. -/
def name : ThreadState → String
  | inactive => "Inactive"
  | running => "Running"
  | resumed => "Resumed"
  | yielded => "Yielded"
  | terminated => "Terminated"

/-- A thread that takes part in the chain of resumers which ends at the running thread. -/
def isActive : ThreadState → Bool
  | running | resumed => true
  | inactive | yielded | terminated => false

end ThreadState

end CountedHeap
