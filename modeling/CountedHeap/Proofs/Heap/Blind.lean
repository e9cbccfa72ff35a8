import CountedHeap.Engine
import CountedHeap.Proofs.Reclaim.Begin

/-!
# Nothing looks at the failures of finalizers

How many finalizers have failed is counted and reported, and this is all: no look at a heap that an
operation takes depends on the number, and no change of a heap does anything with it.

* `Heap.withErrors`: a heap in which another number of finalizers has failed.
* `Blind`, `Oblivious`, `Neutral`: looks and changes that have nothing to do with the number.
* `neutral_retainAll`, `oblivious_release`, `oblivious_beginPass`, …: those that take more than a look
  at their definition.
-/

namespace CountedHeap

namespace Heap

/-- A heap in which another number of finalizers has failed. -/
def withErrors (h : Heap) (n : ℕ) : Heap :=
  h.modifyCounters ({ · with finalizerErrors := n })

end Heap

variable {α β : Type}

/-- A look at a heap that is the same whatever number of finalizers has failed. -/
def Blind (f : Heap → α) : Prop :=
  ∀ h n, f (h.withErrors n) = f h

/-- A change that does the same whatever number of finalizers has failed, and leaves the number. -/
def Neutral (f : Heap → Heap) : Prop :=
  ∀ h n, f (h.withErrors n) = (f h).withErrors n

/-- The same for a change with an answer. -/
def Oblivious (f : Heap → Heap × α) : Prop :=
  ∀ h n, f (h.withErrors n) = ((f h).1.withErrors n, (f h).2)

theorem Neutral.oblivious {f : Heap → Heap} (hf : Neutral f) : Oblivious fun h => (f h, ()) :=
  fun h n => congrArg (·, ()) (hf h n)

theorem foldl_withErrors {f : Heap → β → Heap}
    (hf : ∀ b h n, f (h.withErrors n) b = (f h b).withErrors n) (l : List β) (h : Heap) (n : ℕ) :
    l.foldl f (h.withErrors n) = (l.foldl f h).withErrors n := by
  induction l generalizing h with
  | nil => rfl
  | cons b l ih => rw [List.foldl_cons, List.foldl_cons, hf, ih]

namespace Heap

variable {r t key : Handle} {proto : Option Handle} {v : Value} {i m : ℕ}

/-! ## Looking properties up -/

theorem findWithin_withErrors (h : Heap) (n m : ℕ) :
    (h.withErrors n).findWithin key m r = h.findWithin key m r := by
  induction m generalizing r with
  | zero => rfl
  | succ m ih =>
    simp only [findWithin, ih]
    rfl

theorem checkChain_withErrors (h : Heap) (n m : ℕ) :
    (h.withErrors n).checkChain r m proto = h.checkChain r m proto := by
  induction m generalizing proto with
  | zero => cases proto <;> rfl
  | succ m ih =>
    cases proto with
    | none => rfl
    | some p =>
      simp only [checkChain, ih]
      rfl

theorem blind_checkPrototype : Blind (·.checkPrototype r proto) := by
  intro h n
  dsimp only
  unfold checkPrototype
  simp only [checkChain_withErrors]
  rfl

theorem blind_resolveFinalizer : Blind (·.resolveFinalizer r) := by
  intro h n
  unfold resolveFinalizer findInChain
  simp only [findWithin_withErrors]
  rfl

theorem blind_headFinalizer : Blind (·.headFinalizer i) := by
  intro h n
  unfold headFinalizer
  simp only [blind_resolveFinalizer h n]
  rfl

theorem blind_findFinalizable {l : List ℕ} : Blind (·.findFinalizable l) := by
  intro h n
  unfold findFinalizable hasFinalizer
  simp only [blind_resolveFinalizer h n]
  rfl

/-- What a pass asks before it runs a finalizer. -/
theorem blind_pending : Blind fun h =>
    (h.arena.cellAt? i).bind fun _ =>
      let r := h.arena.handleAt i
      (h.resolveFinalizer r).map (r, ·) := by
  intro h n
  simp only [blind_resolveFinalizer h n]
  rfl

/-! ## Counts -/

theorem modifyObject_withErrors (h : Heap) (n : ℕ) (f : Object → Object) :
    (h.withErrors n).modifyObject r f = (h.modifyObject r f).withErrors n :=
  rfl

theorem modifyThread_withErrors (h : Heap) (n : ℕ) (f : Thread → Thread) :
    (h.withErrors n).modifyThread t f = (h.modifyThread t f).withErrors n :=
  rfl

theorem retain_withErrors (h : Heap) (n : ℕ) :
    (h.withErrors n).retain r = (h.retain r).withErrors n := by
  unfold retain
  rw [show (h.withErrors n).isLive r = h.isLive r from rfl]
  split <;> rfl

theorem retainAll_withErrors (h : Heap) (n : ℕ) {rs : List Handle} :
    (h.withErrors n).retainAll rs = (h.retainAll rs).withErrors n :=
  foldl_withErrors (fun _ => retain_withErrors) rs h n

theorem reachZero_withErrors (h : Heap) (n : ℕ) {body : Body} : (h.withErrors n).reachZero r body =
    ((h.reachZero r body).1.withErrors n, (h.reachZero r body).2) := by
  unfold reachZero
  rw [show (h.withErrors n).sweeping = h.sweeping from rfl,
    show (h.withErrors n).arena = h.arena from rfl]
  cases body with
  | string t => rfl
  | buffer b => rfl
  | object o =>
    dsimp only
    split <;> rfl
  | thread t =>
    dsimp only
    split <;> rfl

theorem release_withErrors (h : Heap) (n : ℕ) :
    (h.withErrors n).release r = ((h.release r).1.withErrors n, (h.release r).2) := by
  unfold release
  rw [show (h.withErrors n).arena = h.arena from rfl]
  split
  · rfl
  · dsimp only
    split
    · exact reachZero_withErrors (h.modifyAt r.index (·.modifyHeader .release)) n
    · rfl

theorem releaseQuietly_withErrors (h : Heap) (n : ℕ) {rs : List Handle} :
    (h.withErrors n).releaseQuietly rs = (h.releaseQuietly rs).withErrors n :=
  foldl_withErrors (f := fun h r => (h.release r).1)
    (fun _ h n => congrArg Prod.fst (release_withErrors h n)) rs h n

/-! ## Strokes -/

theorem neutral_retain : Neutral (·.retain r) :=
  retain_withErrors

theorem neutral_retainAll {rs : List Handle} : Neutral (·.retainAll rs) :=
  fun h n => retainAll_withErrors h n

theorem oblivious_release : Oblivious (·.release r) :=
  release_withErrors

theorem oblivious_storeSlot {slot : Slot} : Oblivious (·.storeSlot r key slot) := by
  intro h n
  simp only [storeSlot, modifyObject_withErrors, retainAll_withErrors]
  rw [show (h.withErrors n).ownSlot? r key = h.ownSlot? r key from rfl]
  split
  · exact congrArg (·, []) (retain_withErrors _ n)
  · rfl

theorem oblivious_dropSlot : Oblivious (·.dropSlot r key) := by
  intro h n
  simp only [dropSlot, modifyObject_withErrors]
  rw [show (h.withErrors n).ownSlot? r key = h.ownSlot? r key from rfl]
  split <;> rfl

theorem neutral_linkPrototype : Neutral (·.linkPrototype r proto) := by
  intro h n
  simp only [linkPrototype, retainAll_withErrors, modifyObject_withErrors]

theorem neutral_appendElement : Neutral (·.appendElement r v) := by
  intro h n
  simp only [appendElement, retainAll_withErrors, modifyObject_withErrors]

theorem oblivious_storeElement : Oblivious (·.storeElement r i v) := by
  intro h n
  simp only [storeElement, retainAll_withErrors, modifyObject_withErrors]
  rfl

theorem oblivious_holdRoot : Oblivious (·.holdRoot v) := by
  intro h n
  simp only [holdRoot, retainAll_withErrors]
  rw [show ((h.retainAll v.refs).withErrors n).freeRoots = (h.retainAll v.refs).freeRoots from rfl]
  split <;> rfl

theorem neutral_storeRoot : Neutral (·.storeRoot i v) :=
  fun h n => retainAll_withErrors { h with roots := h.roots.setIfInBounds i (some v) } n

theorem oblivious_dropRoot : Oblivious (·.dropRoot i) := by
  intro h n
  simp only [dropRoot]
  rw [show (h.withErrors n).root? i = h.root? i from rfl]
  split <;> rfl

/-- A thread changes, and counts what has come onto its stacks. -/
theorem neutral_storeThread {f : Thread → Thread} {rs : List Handle} :
    Neutral fun h => (h.modifyThread t f).retainAll rs :=
  fun h n => retainAll_withErrors (h.modifyThread t f) n

theorem neutral_storeBuiltin {id : BuiltinId} : Neutral (·.storeBuiltin t id proto) := by
  intro h n
  simp only [storeBuiltin, retainAll_withErrors, modifyThread_withErrors]

theorem neutral_switchTo : Neutral (·.switchTo r t) := by
  intro h n
  simp only [switchTo, setState, retain_withErrors, modifyThread_withErrors]

theorem neutral_switchAway : Neutral fun h => if r.index = t.index then h else h.switchTo r t := by
  intro h n
  dsimp only
  split
  · rfl
  · exact neutral_switchTo h n

theorem wake_withErrors (h : Heap) (n : ℕ) : (h.withErrors n).wake t = (h.wake t).withErrors n := by
  unfold wake
  rw [show (h.withErrors n).thread t = h.thread t from rfl]
  split <;> rfl

theorem neutral_endThread {resumer : Option Handle} : Neutral (·.endThread t resumer) := by
  intro h n
  simp only [endThread, modifyThread_withErrors, wake_withErrors]
  cases resumer with
  | some r => rfl
  | none =>
    simp only [show ∀ h : Heap, (h.withErrors n).current = h.current from fun _ => rfl]
    split <;> rfl

/-! ## Passes and drains -/

theorem oblivious_endHeadFinalizer : Oblivious (·.endHeadFinalizer i) := by
  intro h n
  simp only [endHeadFinalizer]
  rw [show (h.withErrors n).arena = h.arena from rfl]
  split <;> rfl

theorem freeComposite_withErrors (h : Heap) (n : ℕ) :
    (h.withErrors n).freeComposite i = (h.freeComposite i).withErrors n := by
  unfold freeComposite
  rw [show (h.withErrors n).arena = h.arena from rfl]
  split
  · rfl
  · exact releaseQuietly_withErrors (((h.forgetCurrent i).modifyArena (·.release i)).modifyCounters
      fun c => { c with queueFrees := c.queueFrees + 1 }) n

theorem oblivious_leaveQueue {keep : Bool} : Oblivious (·.leaveQueue i keep) := by
  intro h n
  cases keep with
  | true => rfl
  | false =>
    exact congrArg (·, Departure.freed) (freeComposite_withErrors (h.modifyArena (·.unlink i)) n)

theorem sweep_withErrors (h : Heap) (n : ℕ) {l : List ℕ} :
    (h.withErrors n).sweep l = (h.sweep l).withErrors n := by
  unfold sweep
  rw [foldl_withErrors (f := releaseChildren) fun i h n => ?_]
  · exact foldl_withErrors (f := freeSwept) (fun _ _ _ => rfl) l _ n
  · unfold releaseChildren
    rw [show (h.withErrors n).arena = h.arena from rfl]
    split
    · exact releaseQuietly_withErrors h n
    · rfl

theorem traced_withErrors (h : Heap) (n : ℕ) :
    (h.withErrors n).traced = h.traced.withErrors n := by
  unfold traced
  rw [← foldl_withErrors (f := clearFinalized) fun _ _ _ => rfl]
  rfl

theorem pendingCells_withErrors (h : Heap) (n : ℕ) {o : PassOptions} :
    (h.withErrors n).pendingCells o = h.pendingCells o := by
  unfold pendingCells
  rw [traced_withErrors]
  split
  · rfl
  · exact blind_findFinalizable h.traced n

theorem toSweep_withErrors (h : Heap) (n : ℕ) {o : PassOptions} :
    (h.withErrors n).toSweep o = (h.toSweep o).withErrors n := by
  unfold toSweep
  rw [traced_withErrors, pendingCells_withErrors]
  rfl

theorem oblivious_beginPass {o : PassOptions} : Oblivious (·.beginPass o) := by
  intro h n
  have hgarbage : (h.withErrors n).garbage o = h.garbage o := by
    unfold garbage
    rw [toSweep_withErrors]
    rfl
  simp only [beginPass_eq, hgarbage, toSweep_withErrors, sweep_withErrors, pendingCells_withErrors]
  split <;> rfl

theorem neutral_settle {l : List ℕ} : Neutral (·.settle l) := by
  intro h n
  refine foldl_withErrors (f := settleRescued) (fun i h n => ?_) l h.markHeld n
  unfold settleRescued
  rw [show (h.withErrors n).arena = h.arena from rfl]
  split
  · split <;> rfl
  · rfl

theorem oblivious_finishPass {o : PassOptions} {p : PassStart} :
    Oblivious (·.finishPass o p m) := by
  intro h n
  simp only [finishPass]
  rw [show ({ h.withErrors n with sweeping := false } : Heap) =
      ({ h with sweeping := false } : Heap).withErrors n from rfl,
    show (({ h with sweeping := false } : Heap).withErrors n).zeroCounts =
      ({ h with sweeping := false } : Heap).zeroCounts from rfl,
    foldl_withErrors (f := enqueue) fun _ _ _ => rfl]
  rfl

end Heap

end CountedHeap
