import Mathlib.Data.Nat.Notation
import Mathlib.Logic.Relation
import CountedHeap.Engine
import CountedHeap.Proofs.Cell.Akin
import CountedHeap.Proofs.Heap.Edits

/-!
# The strokes of an operation

What an operation does to a heap by itself, apart from the counts that it gives back and the passes
that it asks for, is a sequence of strokes. None of them frees or queues a cell or sets a flag, makes a
thread run or wait, or brings finalizers into play, unless the operation is there to do so. All of them
leave threads in order.

* `Heap.Touch`, `Heap.Touches`: a stroke that decides nothing about any cell, and a sequence of them.
* `Heap.Stroke`, `Heap.Strokes`: one stroke, and a sequence of them.
* `Operation.reroots`, `Operation.switches`: the operations that change roots, and those that switch
  threads.
* `Heap.Shift`, `Heap.Turn`: what such operations do besides, and all of it together.
-/

namespace CountedHeap

/-- The operations that change roots. -/
def Operation.reroots {β : Type} : Operation β → Prop
  | .addRoot _ => True
  | .setRoot _ _ => True
  | .removeRoot _ => True
  | _ => False

/-- The operations that switch threads. -/
def Operation.switches {β : Type} : Operation β → Prop
  | .startThread _ => True
  | .resumeThread _ => True
  | .yieldThread => True
  | .terminateThread _ => True
  | _ => False

namespace Heap

/-- A stroke that decides nothing about any cell. -/
inductive Touch : Heap → Heap → Prop where
  /-- A count is taken. -/
  | retain (h : Heap) (r : Handle) : Touch h (h.retain r)
  /-- The contents of a cell change. A caught variable is named by a string. -/
  | body (h : Heap) (i : ℕ) {f : Body → Body} (hf : ∀ b, Body.Akin b (f b))
      (hnames : ∀ b, ∀ q ∈ (f b).caughtNames, q ∈ b.caughtNames ∨ ∃ t, h.text q = .ok t) :
      Touch h (h.modifyAt i (·.modifyBody f))
  /-- Tables change. -/
  | aside {h h' : Heap} (harena : h'.arena = h.arena) (hroots : h'.roots = h.roots)
      (hcurrent : h'.current = h.current) (hdraining : h'.draining = h.draining)
      (hsweeping : h'.sweeping = h.sweeping) (hkey : h'.finalizerKey = h.finalizerKey)
      (hconfig : h'.config = h.config) : Touch h h'

/-- A sequence of touches. -/
abbrev Touches : Heap → Heap → Prop :=
  Relation.ReflTransGen Touch

/-- A touch, or a change of roots. -/
inductive Reroot : Heap → Heap → Prop where
  | touch {h h' : Heap} (ht : Touch h h') : Reroot h h'
  | roots (h : Heap) (values : Array (Option Value)) (free : List ℕ) :
      Reroot h { h with roots := values, freeRoots := free }

/-- A sequence of these. -/
abbrev Reroots : Heap → Heap → Prop :=
  Relation.ReflTransGen Reroot

/-- One stroke. -/
inductive Stroke : Heap → Heap → Prop where
  | touch {h h' : Heap} (ht : Touch h h') : Stroke h h'
  /-- A cell is made. A thread has not run. -/
  | place (h : Heap) {b : Body} (hb : b.post = none ∨ b.post = some (.inactive, none))
      (hproper : b.Proper) : Stroke h (h.place b).1
  /-- An object gets another prototype. -/
  | link (h : Heap) (r : Handle) (proto : Option Handle) :
      Stroke h (h.modifyObject r ({ · with proto := proto }))
  /-- A thread gets another built-in. -/
  | builtin (h : Heap) (t : Handle) (id : BuiltinId) (r : Option Handle) :
      Stroke h (h.modifyThread t fun x => { x with builtins := x.builtins.set id r })
  /-- There are other roots. -/
  | roots (h : Heap) (values : Array (Option Value)) (free : List ℕ) :
      Stroke h { h with roots := values, freeRoots := free }
  /-- A buffer gets another length. -/
  | resize (h : Heap) (r : Handle) (length : ℕ) : Stroke h (h.resizeBuffer r length)

/-- A sequence of strokes. -/
abbrev Strokes : Heap → Heap → Prop :=
  Relation.ReflTransGen Stroke

namespace Touches

variable {h h' h'' : Heap} {r t : Handle} {i : ℕ}

theorem retain : Touches h (h.retain r) :=
  .single (.retain h r)

theorem retainAll {rs : List Handle} : Touches h (h.retainAll rs) := by
  induction rs generalizing h with
  | nil => exact .refl
  | cons r rs ih => exact retain.trans (ih (h := h.retain r))

theorem modifyObject {f : Object → Object} (hf : ∀ o, (f o).proto = o.proto) :
    Touches h (h.modifyObject r f) :=
  .single (.body h r.index (fun _ => .modifyObject hf) fun _ _ hq =>
    .inl (Body.caughtNames_modifyObject ▸ hq))

theorem modifyBuffer {f : Buffer → Buffer} (hf : ∀ c, (f c).size = c.size) :
    Touches h (h.modifyBuffer r f) :=
  .single (.body h r.index (fun _ => .modifyBuffer hf) fun _ _ hq =>
    .inl (Body.caughtNames_modifyBuffer ▸ hq))

theorem modifyThread {f : Thread → Thread}
    (hf : ∀ t, (f t).state = t.state ∧ (f t).resumer = t.resumer)
    (hframe : ∀ t, (f t).object = t.object ∧ (f t).builtins = t.builtins ∧ (f t).limits = t.limits)
    (hproper : ∀ t : Thread, t.Proper → (f t).Proper)
    (hnames : ∀ x, ∀ q ∈ (f x).caughtNames, q ∈ x.caughtNames ∨ ∃ t, h.text q = .ok t) :
    Touches h (h.modifyThread t f) :=
  .single (.body h t.index (fun _ => .modifyThread hf hframe hproper) fun _ _ =>
    Body.mem_caughtNames_modifyThread hnames)

/-- A change that leaves every thread in order, whatever it is. -/
theorem orderly {f : Thread → Thread} (hf : ∀ t, (f t).state = t.state ∧ (f t).resumer = t.resumer)
    (hframe : ∀ t, (f t).object = t.object ∧ (f t).builtins = t.builtins ∧ (f t).limits = t.limits)
    (hnames : ∀ x, ∀ q ∈ (f x).caughtNames, q ∈ x.caughtNames ∨ ∃ t, h.text q = .ok t) :
    Touches h (h.modifyThread t (Thread.orderly f)) := by
  refine modifyThread (fun x => ⟨Thread.same_orderly (hf x).1, Thread.same_orderly (hf x).2⟩)
    (fun x => ⟨Thread.same_orderly (hframe x).1, Thread.same_orderly (hframe x).2.1,
      Thread.same_orderly (hframe x).2.2⟩) (fun _ => .orderly) fun x q hq => ?_
  unfold Thread.orderly at hq
  split at hq
  · exact hnames x q hq
  · exact .inl hq

theorem orderlyRetain {f : Thread → Thread} {rs : List Handle}
    (hf : ∀ t, (f t).state = t.state ∧ (f t).resumer = t.resumer)
    (hframe : ∀ t, (f t).object = t.object ∧ (f t).builtins = t.builtins ∧ (f t).limits = t.limits)
    (hcatchers : ∀ x, (f x).catchers = x.catchers) :
    Touches h ((h.modifyThread t (Thread.orderly f)).retainAll rs) :=
  (orderly hf hframe fun x _ => .inl ∘ Thread.mem_caughtNames_of_subset fun _ => (hcatchers x ▸ ·)).trans
    retainAll

theorem modifyValues {f : ValueStack → ValueStack} (hf : ∀ s : ValueStack, s.Proper → (f s).Proper)
    (hlimit : ∀ s, (f s).limit = s.limit) : Touches h (h.modifyValues t f) :=
  modifyThread (fun _ => ⟨rfl, rfl⟩)
    (fun x => ⟨rfl, rfl, congrArg (·, x.callLimit, x.catchLimit) (hlimit x.values)⟩)
    (fun _ hx => hx.withValues (hf _ hx.values)) fun _ _ => .inl

theorem truncateValues {n : ℕ} : Touches h (h.modifyValues t (·.truncate n)) :=
  modifyValues (fun _ => .truncate) fun _ => ValueStack.limit_truncate

theorem clearValues : Touches h (h.clearValues t) :=
  modifyValues (fun _ hs => hs.setBottom.truncate) fun _ => ValueStack.limit_truncate

/-- A value is replaced by one that the stack counts. -/
theorem storeValue {v : Value} {rs : List Handle} :
    Touches h ((h.modifyValues t (·.set i v)).retainAll rs) :=
  .trans (modifyValues (fun _ => .set) fun _ => rfl) retainAll

theorem takeCatchers {n : ℕ} : Touches h (h.modifyCatchers t (·.take n)) :=
  modifyThread (fun _ => ⟨rfl, rfl⟩) (fun _ => ⟨rfl, rfl, rfl⟩) (fun _ => .takeCatchers)
    fun _ _ => .inl ∘ Thread.mem_caughtNames_of_subset fun _ => Thread.mem_takeCatchers

theorem aside (harena : h'.arena = h.arena) (hroots : h'.roots = h.roots)
    (hcurrent : h'.current = h.current) (hdraining : h'.draining = h.draining)
    (hsweeping : h'.sweeping = h.sweeping) (hkey : h'.finalizerKey = h.finalizerKey)
    (hconfig : h'.config = h.config) : Touches h h' :=
  .single (.aside harena hroots hcurrent hdraining hsweeping hkey hconfig)

theorem storeSlot {key : Handle} {slot : Slot} : Touches h (h.storeSlot r key slot).1 := by
  have hset : Touches h (h.modifyObject r fun o => { o with props := (o.props.set key slot).1 }) :=
    modifyObject fun _ => rfl
  unfold Heap.storeSlot
  dsimp only
  split
  · exact (hset.trans retainAll).trans retain
  · exact hset.trans retainAll

theorem dropSlot {key : Handle} : Touches h (h.dropSlot r key).1 := by
  unfold Heap.dropSlot
  split
  · exact .refl
  · exact modifyObject (f := fun o => { o with props := (o.props.delete key).1 }) fun _ => rfl

theorem appendElement {v : Value} : Touches h (h.appendElement r v) :=
  (modifyObject (f := fun o => { o with elements := o.elements.push v }) fun _ => rfl).trans retainAll

theorem storeElement {v : Value} : Touches h (h.storeElement r i v).1 := by
  unfold Heap.storeElement
  refine Relation.ReflTransGen.trans ?_ retainAll
  exact modifyObject fun _ => rfl

end Touches

namespace Reroots

variable {h : Heap} {i : ℕ} {v : Value}

theorem of_touches {h h' : Heap} (ht : Touches h h') : Reroots h h' :=
  Relation.ReflTransGen.mono (fun _ _ => Reroot.touch) h h' ht

theorem roots {values : Array (Option Value)} {free : List ℕ} :
    Reroots h { h with roots := values, freeRoots := free } :=
  .single (.roots h values free)

theorem holdRoot : Reroots h (h.holdRoot v).1 := by
  have hretain : Reroots h (h.retainAll v.refs) := of_touches .retainAll
  refine hretain.trans ?_
  unfold Heap.holdRoot
  dsimp only
  split
  · exact roots
  · exact roots

theorem storeRoot : Reroots h (h.storeRoot i v) :=
  have hroots : Reroots h { h with roots := h.roots.setIfInBounds i (some v) } :=
    .single (.roots h _ h.freeRoots)
  hroots.trans (of_touches .retainAll)

theorem dropRoot : Reroots h (h.dropRoot i).1 := by
  unfold Heap.dropRoot
  split
  · exact roots
  · exact .refl

end Reroots

namespace Strokes

variable {h h' : Heap} {r t : Handle}

theorem of_touches (ht : Touches h h') : Strokes h h' :=
  Relation.ReflTransGen.mono (fun _ _ => Stroke.touch) h h' ht

theorem place {b : Body} (hb : b.post = none ∨ b.post = some (.inactive, none))
    (hproper : b.Proper) : Strokes h (h.place b).1 :=
  .single (.place h hb hproper)

theorem of_reroots (hr : Reroots h h') : Strokes h h' := by
  refine Relation.ReflTransGen.mono (fun h h' hr => ?_) h h' hr
  cases hr with
  | touch ht => exact .touch ht
  | roots values free => exact .roots _ values free

theorem resizeBuffer {length : ℕ} : Strokes h (h.resizeBuffer r length) :=
  .single (.resize h r length)

theorem linkPrototype {proto : Option Handle} : Strokes h (h.linkPrototype r proto) :=
  (of_touches .retainAll).tail (.link _ r proto)

theorem storeBuiltin {id : BuiltinId} {o : Option Handle} : Strokes h (h.storeBuiltin t id o) :=
  (of_touches .retainAll).head (.builtin h t id o)

end Strokes

/-! ## Where threads are switched, or finalizers installed -/

/-- A touch, or a change of what is said about which threads run. No thread becomes its own resumer. -/
inductive Shift : Heap → Heap → Prop where
  | touch {h h' : Heap} (ht : Touch h h') : Shift h h'
  | thread (h : Heap) (t : Handle) {f : Thread → Thread}
      (hframe : ∀ t, (f t).object = t.object ∧ (f t).builtins = t.builtins ∧ (f t).limits = t.limits)
      (hproper : ∀ t : Thread, t.Proper → (f t).Proper)
      (hresumer : ∀ x r, r.index = t.index → (f x).resumer = some r → x.resumer = some r) :
      Shift h (h.modifyThread t f)
  | current (h : Heap) (c : Option Handle) : Shift h (h.setCurrent c)

/-- A sequence of these. -/
abbrev Shifts : Heap → Heap → Prop :=
  Relation.ReflTransGen Shift

namespace Shifts

variable {h : Heap} {t c r : Handle}

theorem setState {s : ThreadState} (hs : s.isActive = true) : Shifts h (h.setState t s) :=
  .single (.thread h t (fun _ => ⟨rfl, rfl, rfl⟩) (fun _ hx => hx.repost fun _ => hs) fun _ _ _ => id)

theorem start : Shifts h ((h.setState t .running).setCurrent (some t)) :=
  .tail (setState rfl) (.current _ _)

theorem switchTo (hne : c.index ≠ t.index) : Shifts h (h.switchTo c t) := by
  have hself : ∀ r : Handle, r.index = t.index → some c ≠ some r := by
    rintro r hr he
    cases he
    exact hne hr
  have hwait : Shifts h (h.setState c .resumed) := setState rfl
  have hrun : Shift (h.setState c .resumed) ((h.setState c .resumed).modifyThread t
      ({ · with state := .running, resumer := some c })) :=
    .thread _ t (fun _ => ⟨rfl, rfl, rfl⟩) (fun _ hx => hx.repost fun _ => rfl) fun _ r hr he =>
      absurd he (hself r hr)
  exact (hwait.tail hrun).tail (.touch (.retain _ c))

theorem switchAway : Shifts h (if c.index = t.index then h else h.switchTo c t) := by
  split
  · exact .refl
  · exact switchTo ‹_›

theorem switchBack : Shifts h (h.switchBack c r) := by
  have hyield : Shift h (h.modifyThread c ({ · with state := .yielded, resumer := none })) :=
    .thread h c (fun _ => ⟨rfl, rfl, rfl⟩) (fun _ hx => hx.repost fun hr => absurd rfl hr)
      fun _ _ _ he => by cases he
  have hrun : Shifts (h.modifyThread c ({ · with state := .yielded, resumer := none }))
      ((h.modifyThread c ({ · with state := .yielded, resumer := none })).setState r .running) :=
    setState rfl
  exact (hrun.head hyield).tail (.current _ _)

theorem setCurrent {o : Option Handle} : Shifts h (h.setCurrent o) :=
  .single (.current h o)

theorem endThread {resumer : Option Handle} : Shifts h (h.endThread t resumer) := by
  have hended : Shifts h (h.modifyThread t ({ · with state := .terminated, resumer := none })) :=
    .single (.thread h t (fun _ => ⟨rfl, rfl, rfl⟩) (fun _ hx => hx.repost fun hr => absurd rfl hr)
      fun _ _ _ he => by cases he)
  exact endThread_induction (P := Shifts h) hended (fun _ _ _ _ _ hs => hs.trans (setState rfl))
    fun _ _ _ hs => hs.trans setCurrent

end Shifts

/-- One stroke, or a change of what is said about which threads run or of the key of finalizers. -/
inductive Turn : Heap → Heap → Prop where
  | stroke {h h' : Heap} (hs : Stroke h h') : Turn h h'
  | shift {h h' : Heap} (hs : Shift h h') : Turn h h'
  | key (h : Heap) (k : Option Handle) : Turn h { h with finalizerKey := k }

/-- A sequence of these. -/
abbrev Turns : Heap → Heap → Prop :=
  Relation.ReflTransGen Turn

end Heap

end CountedHeap
