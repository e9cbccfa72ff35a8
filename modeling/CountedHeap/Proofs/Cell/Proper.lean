import Mathlib.Data.Nat.Notation
import CountedHeap.Cell.Basic
import CountedHeap.Proofs.Bags

/-!
# Threads that are in order

The stacks of a thread depend on each other: it keeps count of the calls that prevent yielding, each of
its catchers belongs to a call that is on the stack, and the bottom of a frame lies within the value
stack. No stack is longer than its limit. A thread has a resumer only while it runs or waits for another
thread.

* `Thread.Proper`, `Body.Proper`: what holds of every thread.
* `Thread.catchersBelow_eq_takeWhile`: a call takes its catchers with it, and those above them.
* `Proper.pushActivation`, `Proper.popActivation`, `Proper.pushCatcher`, …: what keeps a thread in order.
* `Thread.limits`: how long its stacks may become.
* `Thread.orderly`: a change that leaves threads in order, whatever it is.
-/

namespace CountedHeap

/-! ## Value stacks -/

namespace ValueStack

variable {s : ValueStack} {v : Value} {n : ℕ}

/-- The frame lies within the stack, and the stack within its limit. -/
structure Proper (s : ValueStack) : Prop where
  framed : s.bottom ≤ s.size
  bounded : s.size ≤ s.limit

theorem proper_empty {limit : ℕ} : (empty limit).Proper :=
  ⟨Nat.le_refl 0, Nat.zero_le limit⟩

theorem Proper.push (hs : s.Proper) (hroom : s.hasRoom = true) : (s.push v).Proper := by
  have hlt : s.size < s.limit := of_decide_eq_true hroom
  have hframed := hs.framed
  refine ⟨?_, ?_⟩
  · show s.bottom ≤ (s.push v).size
    rw [size_push]
    omega
  · show (s.push v).size ≤ s.limit
    rw [size_push]
    omega

/-- A value that may be popped lies above the bottom. -/
theorem bottom_lt_of_poppable (hv : s.poppable? = some v) : s.bottom < s.size := by
  unfold poppable? at hv
  split at hv
  · cases hv
  · exact Nat.lt_of_not_le ‹_›

theorem Proper.pop (hs : s.Proper) (hv : s.poppable? = some v) : s.pop.Proper := by
  have hlt := bottom_lt_of_poppable hv
  have hsize : s.pop.size = s.size - 1 := Array.size_pop
  have hbounded := hs.bounded
  refine ⟨?_, ?_⟩
  · show s.bottom ≤ s.pop.size
    omega
  · show s.pop.size ≤ s.limit
    omega

theorem Proper.set {i : ℕ} (hs : s.Proper) : (s.set i v).Proper := by
  have hsize : (s.set i v).size = s.size := Array.size_setIfInBounds
  refine ⟨?_, ?_⟩
  · show s.bottom ≤ (s.set i v).size
    rw [hsize]
    exact hs.framed
  · show (s.set i v).size ≤ s.limit
    rw [hsize]
    exact hs.bounded

theorem Proper.setBottom (hs : s.Proper) : (s.setBottom n).Proper :=
  ⟨Nat.min_le_right n s.size, hs.bounded⟩

theorem Proper.truncate (hs : s.Proper) : (s.truncate n).Proper := by
  unfold ValueStack.truncate
  split
  · exact hs
  · have hsize : (s.values.take n).size = min n s.size := Array.size_extract
    have hframed := hs.framed
    have hbounded := hs.bounded
    refine ⟨?_, ?_⟩
    · show min s.bottom n ≤ (s.values.take n).size
      omega
    · show (s.values.take n).size ≤ s.limit
      omega

@[simp] theorem limit_truncate : (s.truncate n).limit = s.limit := by
  unfold truncate
  split <;> rfl

end ValueStack

/-! ## Threads -/

namespace Thread

variable {t t' : Thread} {f : Thread → Thread} {a : Activation} {c : Catcher} {n : ℕ}

/-- The calls that prevent yielding are counted, a thread with a resumer runs or waits, catchers belong to
calls on the stack, and every stack is within its limit. -/
structure Proper (t : Thread) : Prop where
  preventing : t.preventing = t.calls.toList.countP (·.flags.preventYield)
  active : t.resumer ≠ none → t.state.isActive = true
  caught : ∀ c ∈ t.catchers, c.activation < t.calls.size
  values : t.values.Proper
  calls : t.calls.size ≤ t.callLimit
  catchers : t.catchers.size ≤ t.catchLimit

/-- How long the stacks of a thread may become. -/
def limits (t : Thread) : ℕ × ℕ × ℕ :=
  (t.values.limit, t.callLimit, t.catchLimit)

/-- The names of caught variables, which a tracing pass follows, but which the thread does not own. -/
def caughtNames (t : Thread) : List Handle :=
  t.catchers.toList.flatMap (·.name.toList)

theorem proper_create {config : Config} {proto : Option Handle} {builtins : Builtins} :
    (create config proto builtins).Proper :=
  ⟨rfl, fun h => absurd rfl h, fun _ hc => absurd hc (Array.not_mem_empty _), ValueStack.proper_empty,
    Nat.zero_le _, Nat.zero_le _⟩

/-- The stacks stay as they are, whatever becomes of state and resumer. -/
theorem Proper.repost {s : ThreadState} {r : Option Handle} (h : t.Proper)
    (hr : r ≠ none → s.isActive = true) : Proper { t with state := s, resumer := r } :=
  ⟨h.preventing, hr, h.caught, h.values, h.calls, h.catchers⟩

theorem Proper.rewire {builtins : Builtins} (h : t.Proper) : Proper { t with builtins := builtins } :=
  ⟨h.preventing, h.active, h.caught, h.values, h.calls, h.catchers⟩

theorem Proper.withValues {s : ValueStack} (h : t.Proper) (hs : s.Proper) :
    Proper { t with values := s } :=
  ⟨h.preventing, h.active, h.caught, hs, h.calls, h.catchers⟩

/-! ### Catchers -/

theorem Proper.pushCatcher (h : t.Proper) (hc : c.activation < t.calls.size)
    (hroom : t.catchers.size < t.catchLimit) : Proper { t with catchers := t.catchers.push c } := by
  refine ⟨h.preventing, h.active, fun c' hc' => ?_, h.values, h.calls, ?_⟩
  · rcases Array.mem_push.mp hc' with hold | rfl
    · exact h.caught c' hold
    · exact hc
  · show (t.catchers.push c).size ≤ t.catchLimit
    rw [Array.size_push]
    omega

theorem mem_takeCatchers (hc : c ∈ t.catchers.take n) : c ∈ t.catchers := by
  have hmem : c ∈ t.catchers.toList.take n := by
    have hmem := Array.mem_toList_iff.mpr hc
    simpa only [Array.take_eq_extract, Array.toList_extract, List.extract_eq_take_drop, List.drop_zero,
      Nat.sub_zero] using hmem
  exact Array.mem_toList_iff.mp (List.mem_of_mem_take hmem)

theorem Proper.takeCatchers (h : t.Proper) : Proper { t with catchers := t.catchers.take n } := by
  refine ⟨h.preventing, h.active, fun c hc => h.caught c (mem_takeCatchers hc), h.values, h.calls, ?_⟩
  · have hsize : (t.catchers.take n).size = min n t.catchers.size := Array.size_extract
    have hbound := h.catchers
    show (t.catchers.take n).size ≤ t.catchLimit
    omega

/-- A cut at the first catcher that is too high leaves those below it. -/
theorem catchersBelow_eq_takeWhile (t : Thread) (n : ℕ) :
    (t.catchersBelow n).toList = t.catchers.toList.takeWhile (·.activation < n) := by
  have hnot : (fun c : Catcher => !decide (c.activation < n)) = fun c => decide (n ≤ c.activation) := by
    funext c
    rw [← decide_not]
    exact decide_eq_decide.mpr Nat.not_lt
  rw [List.takeWhile_eq_take_findIdx_not, hnot]
  unfold catchersBelow
  generalize t.catchers = catchers
  obtain ⟨l⟩ := catchers
  rw [List.findIdx?_toArray]
  cases hcut : l.findIdx? (fun c => decide (n ≤ c.activation)) with
  | none =>
    have hlen : l.length ≤ l.findIdx fun c => decide (n ≤ c.activation) := by
      have hnone := List.findIdx?_eq_none_iff_findIdx_eq.mp hcut
      omega
    exact (List.take_of_length_le hlen).symm
  | some i =>
    obtain ⟨-, hi⟩ := List.findIdx?_eq_some_iff_findIdx_eq.mp hcut
    simp [hi]

theorem mem_catchersBelow (hc : c ∈ t.catchersBelow n) : c ∈ t.catchers := by
  have hmem := Array.mem_toList_iff.mpr hc
  rw [catchersBelow_eq_takeWhile] at hmem
  exact Array.mem_toList_iff.mp ((List.takeWhile_sublist _).subset hmem)

/-- Where catchers are dropped, no name turns up. -/
theorem mem_caughtNames_of_subset {q : Handle} (h : ∀ c ∈ t'.catchers, c ∈ t.catchers)
    (hq : q ∈ t'.caughtNames) : q ∈ t.caughtNames := by
  obtain ⟨c, hc, hname⟩ := List.mem_flatMap.mp hq
  exact List.mem_flatMap.mpr ⟨c, Array.mem_toList_iff.mpr (h c (Array.mem_toList_iff.mp hc)), hname⟩

/-! ### Calls -/

theorem Proper.pushActivation (h : t.Proper) (hroom : t.calls.size < t.callLimit) :
    (t.pushActivation a).Proper := by
  have hsize : (t.pushActivation a).calls.size = t.calls.size + 1 := Array.size_push a
  refine ⟨?_, h.active, fun c hc => ?_, h.values, ?_, h.catchers⟩
  · unfold Thread.pushActivation
    dsimp only
    rw [Array.toList_push, List.countP_append, ← h.preventing, List.countP_singleton]
    split <;> rfl
  · have hbelow := h.caught c hc
    omega
  · show (t.pushActivation a).calls.size ≤ t.callLimit
    omega

theorem Proper.popActivation (h : t.Proper) (ha : t.calls.back? = some a) :
    (t.popActivation a).Proper := by
  have hsize : (t.popActivation a).calls.size = t.calls.size - 1 := Array.size_pop
  have hcut := t.catchersBelow_eq_takeWhile (t.calls.size - 1)
  refine ⟨?_, h.active, fun c hc => ?_, h.values, ?_, ?_⟩
  · have hcount := h.preventing
    rw [toList_eq_pop_concat ha, List.countP_append, List.countP_singleton] at hcount
    unfold Thread.popActivation
    dsimp only
    rw [hcount]
    split <;> rfl
  · have hmem : c ∈ (t.catchersBelow (t.calls.size - 1)).toList := Array.mem_toList_iff.mpr hc
    rw [hcut] at hmem
    rw [hsize]
    exact of_decide_eq_true (List.all_eq_true.mp List.all_takeWhile c hmem)
  · have hbound := h.calls
    show (t.popActivation a).calls.size ≤ t.callLimit
    omega
  · have hlength : (t.catchersBelow (t.calls.size - 1)).size ≤ t.catchers.size := by
      rw [← Array.length_toList, hcut]
      exact (List.takeWhile_sublist _).length_le
    exact Nat.le_trans hlength h.catchers

/-! ### Changes that leave threads in order -/

open Classical in
/-- Changes a thread, unless this puts it out of order. -/
noncomputable def orderly (f : Thread → Thread) (t : Thread) : Thread :=
  if t.Proper → (f t).Proper then f t else t

theorem orderly_eq (hf : t.Proper → (f t).Proper) : orderly f t = f t :=
  if_pos hf

theorem Proper.orderly (h : t.Proper) : (orderly f t).Proper := by
  unfold Thread.orderly
  split
  · next hf => exact hf h
  · exact h

/-- What the change leaves alone, it leaves alone. -/
theorem same_orderly {β : Type} {g : Thread → β} (hg : g (f t) = g t) : g (orderly f t) = g t := by
  unfold Thread.orderly
  split
  · exact hg
  · rfl

end Thread

/-- A cell that is a thread is in order. -/
def Body.Proper : Body → Prop
  | .thread t => t.Proper
  | .object _ | .string _ | .buffer _ => True

namespace Body

variable {b : Body}

theorem Proper.modifyObject {f : Object → Object} (h : b.Proper) : (b.modifyObject f).Proper := by
  cases b with
  | thread t => exact ⟨h.preventing, h.active, h.caught, h.values, h.calls, h.catchers⟩
  | object _ => trivial
  | string _ => trivial
  | buffer _ => trivial

theorem Proper.modifyBuffer {f : Buffer → Buffer} (h : b.Proper) : (b.modifyBuffer f).Proper := by
  cases b with
  | thread t => exact h
  | object _ => trivial
  | string _ => trivial
  | buffer _ => trivial

theorem Proper.modifyThread {f : Thread → Thread} (hf : ∀ t : Thread, t.Proper → (f t).Proper)
    (h : b.Proper) : (b.modifyThread f).Proper := by
  cases b with
  | thread t => exact hf t h
  | object _ => trivial
  | string _ => trivial
  | buffer _ => trivial

end Body

end CountedHeap
