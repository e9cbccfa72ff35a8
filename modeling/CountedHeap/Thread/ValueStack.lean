import CountedHeap.Value

/-!
# Value stacks

A bounded stack of values. The values below `bottom` belong to outer frames and cannot be popped.
The stack holds values only; whoever pushes one takes its count.

* `ValueStack.hasRoom`, `ValueStack.poppable?`: a push is refused past the limit, a pop below the
  bottom.
* `ValueStack.truncate`: cuts the stack; `ValueStack.above` is what it removes.
* `ValueStack.above_append_truncate`: nothing is lost by a cut.
-/

namespace CountedHeap

/-- Values from the lowest to the top. -/
structure ValueStack where
  values : Array Value
  bottom : Nat
  limit : Nat
deriving DecidableEq

namespace ValueStack

def empty (limit : Nat) : ValueStack :=
  ⟨#[], 0, limit⟩

def size (s : ValueStack) : Nat :=
  s.values.size

def isEmpty (s : ValueStack) : Bool :=
  s.values.isEmpty

/-- Whether one more value can be pushed. -/
def hasRoom (s : ValueStack) : Bool :=
  decide (s.values.size < s.limit)

/-- Puts a value on top. -/
def push (s : ValueStack) (v : Value) : ValueStack :=
  { s with values := s.values.push v }

/-- The value that a pop removes: the top one, unless it lies below the bottom. -/
def poppable? (s : ValueStack) : Option Value :=
  if s.values.size ≤ s.bottom then none else s.values.back?

/-- Removes the top value. -/
def pop (s : ValueStack) : ValueStack :=
  { s with values := s.values.pop }

/-- The top value. -/
def peek? (s : ValueStack) : Option Value :=
  s.values.back?

/-- The value that lies `offset` below the top. -/
def peekAt? (s : ValueStack) (offset : Nat) : Option Value :=
  if offset < s.values.size then s.values[s.values.size - 1 - offset]? else none

/-- The value at an index, counted from the lowest. -/
def get? (s : ValueStack) (i : Nat) : Option Value :=
  s.values[i]?

/-- Overwrites a value. -/
def set (s : ValueStack) (i : Nat) (v : Value) : ValueStack :=
  { s with values := s.values.setIfInBounds i v }

/-- Moves the bottom of the frame, at most to the top of the stack. -/
def setBottom (s : ValueStack) (bottom : Nat) : ValueStack :=
  { s with bottom := min bottom s.values.size }

/-- The values above a length, top first. -/
def above (s : ValueStack) (length : Nat) : List Value :=
  (s.values.toList.drop length).reverse

/-- Cuts the stack down to a length. -/
def truncate (s : ValueStack) (length : Nat) : ValueStack :=
  if s.values.size ≤ length then s
  else { s with values := s.values.take length, bottom := min s.bottom length }

/-- The references on the stack, lowest first. -/
def refs (s : ValueStack) : List Handle :=
  s.values.toList.flatMap Value.refs

/-! ## Laws -/

@[simp] theorem size_push (s : ValueStack) (v : Value) : (s.push v).size = s.size + 1 := by
  simp [size, push]

@[simp] theorem peek?_push (s : ValueStack) (v : Value) : (s.push v).peek? = some v := by
  simp [peek?, push]

@[simp] theorem pop_push (s : ValueStack) (v : Value) : (s.push v).pop = s := by
  simp [pop, push]

/-- What a cut removes and what it leaves make up the stack. -/
theorem above_append_truncate (s : ValueStack) (n : Nat) :
    (s.truncate n).values.toList ++ (s.above n).reverse = s.values.toList := by
  unfold truncate above
  rw [List.reverse_reverse]
  split
  · rw [List.drop_eq_nil_of_le (by simpa only [Array.length_toList]), List.append_nil]
  · simp [Array.take]

end ValueStack

end CountedHeap
