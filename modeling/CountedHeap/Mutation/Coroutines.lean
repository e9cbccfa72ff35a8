import CountedHeap.Mutation.Stacks

/-!
# Starting, resuming, yielding and terminating threads

At most one thread runs, and the heap knows which. A thread that resumes another one waits for it in
state resumed, and is counted by it; yielding or terminating goes back to it.

* `startThread`: no other thread may run.
* `Engine.resumeThread`: from the running thread to one that has not run or has yielded.
* `Engine.yieldThread`: back to the resumer, unless a call on the stack prevents it.
* `Engine.terminateThread`: empties the stacks and goes back to the resumer, if there is one.
-/

namespace CountedHeap

namespace Heap

/-- Whether a thread is in a state. -/
def checkState (h : Heap) (t : Handle) (expected : ThreadState) : Except HeapError Unit := do
  let found := (← h.thread t).state
  if found = expected then pure () else throw (.invalidThreadState expected found)

/-- The thread that runs. -/
def runningThread (h : Heap) : Except HeapError Handle := do
  match h.current with
  | none => throw (.misuse .noRunningThread)
  | some t =>
    h.checkState t .running
    return t

def setState (h : Heap) (t : Handle) (state : ThreadState) : Heap :=
  h.modifyThread t ({ · with state := state })

def setCurrent (h : Heap) (t : Option Handle) : Heap :=
  { h with current := t }

/-- Whether a thread can be started. -/
def checkStart (h : Heap) (t : Handle) : Except HeapError Unit := do
  h.checkState t .inactive
  match h.current with
  | none => pure ()
  | some c =>
    if (← h.thread c).state = .running then throw (.misuse .anotherThreadRunning)

/-- Whether a thread can be resumed; the running thread, and the resumer that `target` has. -/
def checkResume (h : Heap) (target : Handle) : Except HeapError (Handle × Option Handle) := do
  let current ← h.runningThread
  if current = target then throw (.misuse .resumesItself)
  let thread ← h.thread target
  match thread.state with
  | .inactive | .yielded => return (current, thread.resumer)
  | found => throw (.invalidThreadState .yielded found)

/-- The running thread waits, and the other one runs and counts it. -/
def switchTo (h : Heap) (current target : Handle) : Heap :=
  ((h.setState current .resumed).modifyThread target
    ({ · with state := .running, resumer := some current })).retain current

/-- Whether the running thread can yield; that thread and its resumer. -/
def checkYield (h : Heap) : Except HeapError (Handle × Handle) := do
  let current ← h.runningThread
  let thread ← h.thread current
  if thread.preventing > 0 then throw .yieldPrevented
  match thread.resumer with
  | none => throw (.misuse .noResumer)
  | some resumer =>
    h.checkState resumer .resumed
    return (current, resumer)

/-- The running thread is suspended, and its resumer runs again. -/
def switchBack (h : Heap) (current resumer : Handle) : Heap :=
  ((h.modifyThread current ({ · with state := .yielded, resumer := none })).setState
    resumer .running).setCurrent (some resumer)

/-- The values of a thread, top first. -/
def stackValues (h : Heap) (t : Handle) : Except HeapError (List Value) :=
  (h.thread t).map (·.values.above 0)

/-- Empties the value stack of a thread. -/
def clearValues (h : Heap) (t : Handle) : Heap :=
  h.modifyValues t fun values => (values.setBottom 0).truncate 0

/-- Lets a thread run again, if it is still there. -/
def wake (h : Heap) (t : Handle) : Heap :=
  match h.thread t with
  | .ok _ => h.setState t .running
  | .error _ => h

/-- Ends a thread: its resumer runs again, and if there is none, no thread runs. -/
def endThread (h : Heap) (t : Handle) (resumer : Option Handle) : Heap :=
  let h := h.modifyThread t ({ · with state := .terminated, resumer := none })
  match resumer with
  | some r => (h.wake r).setCurrent (some r)
  | none => if h.current = some t then h.setCurrent none else h

end Heap

variable {σ : Type}

/-- Starts a thread that has not run. -/
def startThread (t : Handle) : Attempt σ Unit := do
  check (·.checkStart t)
  surely (modifyHeap fun h => (h.setState t .running).setCurrent (some t))

namespace Engine

/-- Resumes a thread from the running one. -/
def resumeThread (E : Engine σ) (target : Handle) : Attempt σ Unit := do
  let (current, old) ← check (·.checkResume target)
  surely (modifyHeap (·.switchTo current target))
  surely (E.releaseAll old.toList)
  surely (modifyHeap (·.setCurrent (some target)))

/-- Suspends the running thread and goes back to its resumer. -/
def yieldThread (E : Engine σ) : Attempt σ Unit := do
  let (current, resumer) ← check (·.checkYield)
  surely (modifyHeap (·.switchBack current resumer))
  surely (E.release resumer)

/-- Terminates the running thread: its stacks are emptied, catchers first, then calls, then values,
and its resumer runs again. The thread is looked up after each of these, for giving references back
may have freed it. -/
def terminateThread (E : Engine σ) (t : Handle) : Attempt σ Unit := do
  check (·.checkState t .running)
  unwindCatchers t 0
  E.unwindCalls t 0
  let values ← check (·.stackValues t)
  surely (modifyHeap (·.clearValues t))
  surely (E.releaseAll (values.flatMap Value.refs))
  let resumer ← check fun h => (h.thread t).map (·.resumer)
  surely (modifyHeap (·.endThread t resumer))
  surely (E.releaseAll resumer.toList)

end Engine

end CountedHeap
