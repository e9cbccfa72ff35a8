import CountedHeap.Action

/-!
# Releasing counts

A leaf is freed when its last count is given back. A composite cell is not: it goes to the tail of
the queue, and the queue is worked off by a loop of its own, so that a graph of any depth is freed
without recursion. While a tracing pass runs nothing is queued; the pass looks for such cells when
it is over.

* `Heap.release`: gives a count back and says whether the queue has a new entry.
* `Engine`: what working off the queue and a tracing pass amount to where an operation runs.
* `Engine.release`, `Engine.releaseAll`: give counts back and have the queue worked off.
-/

namespace CountedHeap

namespace Heap

/-- Frees a string, which no table may name any longer. -/
def freeString (h : Heap) (r : Handle) (t : Text) : Heap :=
  { h with
    offsets := h.offsets.remove r
    strings := (h.strings.remove t.hash r).1
    arena := h.arena.release r.index
    counters := { h.counters with stringsFreed := h.counters.stringsFreed + 1 } }

def freeBuffer (h : Heap) (r : Handle) : Heap :=
  { h with
    arena := h.arena.release r.index
    counters := { h.counters with buffersFreed := h.counters.buffersFreed + 1 } }

/-- Moves a cell to the tail of the queue. -/
def enqueue (h : Heap) (i : Nat) : Heap :=
  h.modifyArena fun a => (a.unlink i).linkTail .queue i

/-- The thread in slot `i`, if there is one, is not the one that runs. -/
def forgetCurrent (h : Heap) (i : Nat) : Heap :=
  { h with current := if h.current = some (h.arena.handleAt i) then none else h.current }

/-- What happens to a cell whose last count has been given back; whether it was queued. -/
def reachZero (h : Heap) (r : Handle) (body : Body) : Heap × Bool :=
  match body with
  | .string t => (h.freeString r t, false)
  | .buffer _ => (h.freeBuffer r, false)
  | .object _ | .thread _ =>
    if h.sweeping || decide (h.arena.chainOf r.index = some .queue) then (h, false)
    else (h.enqueue r.index, true)

/-- Gives back one count on a cell; whether the queue has a new entry. A stale handle gives nothing
back. -/
def release (h : Heap) (r : Handle) : Heap × Bool :=
  match h.arena.get? r with
  | none => (h, false)
  | some ⟨header, body⟩ =>
    let h := h.modifyAt r.index (·.modifyHeader .release)
    if header.isLast then h.reachZero r body else (h, false)

/-- Gives counts back where the queue is not worked off at once. -/
def releaseQuietly (h : Heap) (rs : List Handle) : Heap :=
  rs.foldl (fun h r => (h.release r).1) h

end Heap

/-- What an operation sets off where it runs. -/
structure Engine (σ : Type) where
  /-- Works the queue off. -/
  drain : Action σ Unit
  /-- Runs a tracing pass; whether it ran. -/
  collect : PassOptions → Action σ Bool
  /-- How many calls that finalizers enter meanwhile an unwinding leaves in addition. -/
  slack : Nat

namespace Engine

variable {σ : Type}

/-- Gives back one count. -/
def release (E : Engine σ) (r : Handle) : Action σ Unit := do
  let queued ← change (·.release r)
  if queued then E.drain

/-- Gives counts back, one after the other. -/
def releaseAll (E : Engine σ) : List Handle → Action σ Unit
  | [] => pure ()
  | r :: rs => do
    E.release r
    E.releaseAll rs

end Engine

end CountedHeap
