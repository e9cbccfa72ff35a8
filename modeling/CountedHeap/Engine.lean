import CountedHeap.Mutation.Buffers
import CountedHeap.Mutation.Coroutines
import CountedHeap.Mutation.Finalizers
import CountedHeap.Mutation.Roots
import CountedHeap.Reclaim.Drain
import CountedHeap.Reclaim.Pass

/-!
# Engines

Finalizers may perform any operation, also while the queue is worked off or a tracing pass runs, but
neither of the two is begun again inside itself. This leaves three places where an operation runs,
each with an engine of its own, and each engine runs finalizers in the place below it.

* `Engine.perform`: what each operation does, given an engine.
* `Engine.inPass`: within a pass the queue is not worked off and no pass begins.
* `Engine.inDrain`: while the queue is worked off, a pass may run, and the cells it queues are left
  to the loop that is under way.
* `Engine.top`: elsewhere.
* `run`: a program at the top.
-/

namespace CountedHeap

variable {σ α : Type}

namespace Engine

/-- What an operation does. -/
def perform (E : Engine σ) : {β : Type} → Operation β → Attempt σ β
  | _, .registerNative =>
    surely (change fun h => ({ h with natives := h.natives + 1 }, ⟨h.natives⟩))
  | _, .retain v => surely (modifyHeap (·.retainAll v.refs))
  | _, .release v => surely (E.releaseAll v.refs)
  | _, .collect options => surely (E.collect options)
  | _, .addRoot v => addRoot v
  | _, .setRoot n v => E.setRoot n v
  | _, .removeRoot n => E.removeRoot n
  | _, .allocObject proto => E.allocObject .plain proto
  | _, .allocArray proto => E.allocObject .array proto
  | _, .allocEnvironment parent => E.allocObject .environment parent
  | _, .allocFunction proto constants functions code =>
    E.allocFunction proto constants functions code
  | _, .allocNativeFunction id proto => E.allocNativeFunction id proto
  | _, .allocBuffer length dynamic => E.allocBuffer length dynamic
  | _, .allocBufferFrom bytes => E.allocBufferFrom bytes
  | _, .allocThread source => E.allocThread source
  | _, .intern content isStatic => E.intern content isStatic
  | _, .charOffset s i => charOffset s i
  | _, .bufferWrite b i byte => bufferWrite b i byte
  | _, .bufferResize b length => E.bufferResize b length
  | _, .putProp r key v => E.putSlot r key (.data v)
  | _, .putAccessor r key getter setter => E.putSlot r key (.accessor getter setter)
  | _, .deleteProp r key => E.deleteProp r key
  | _, .setPrototype r proto => E.setPrototype r proto
  | _, .arrayPush r v => arrayPush r v
  | _, .arraySet r i v => E.arraySet r i v
  | _, .setFinalizer r function => E.setFinalizer r function
  | _, .push t v => push t v
  | _, .pop t => E.pop t
  | _, .popN t n => E.popN t n
  | _, .replace t i v => E.replace t i v
  | _, .setBuiltin t id r => E.setBuiltin t id r
  | _, .pushActivation t a => pushActivation t a
  | _, .popActivation t => E.popActivation t
  | _, .unwindCalls t length => E.unwindCalls t length
  | _, .pushCatcher t c => pushCatcher t c
  | _, .unwindCatchers t length => unwindCatchers t length
  | _, .startThread t => startThread t
  | _, .resumeThread t => E.resumeThread t
  | _, .yieldThread => E.yieldThread
  | _, .terminateThread t => E.terminateThread t

/-- Calls a native function of a host where an engine is in charge. -/
def caller (E : Engine σ) (host : Host σ) : Caller σ :=
  fun id v => (host id v).run E.perform

/-- Within a tracing pass: the pass queues what is left at zero when it is over. -/
def inPass : Engine σ where
  drain := pure ()
  collect _ := pure false
  slack := 0

/-- While the queue is worked off: new entries are met by the loop that is under way. -/
def inDrain (host : Host σ) : Engine σ where
  drain := pure ()
  collect := pass (inPass.caller host) (pure ())
  slack := 0

/-- Outside of both. No more than `fuel` cells and voluntary passes are dealt with at a time. -/
def top (host : Host σ) (fuel : Nat) : Engine σ :=
  let drain := drainQueue ((inDrain host).caller host) ((inDrain host).collect {}) fuel
  { drain := drain
    collect := pass (inPass.caller host) drain
    slack := fuel }

end Engine

/-- Runs a program at the top. -/
def run (host : Host σ) (fuel : Nat) (p : Program σ α) (w : World σ) : Option (α × World σ) :=
  p.run (Engine.top host fuel).perform w

end CountedHeap
