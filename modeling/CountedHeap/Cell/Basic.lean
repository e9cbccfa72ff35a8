import CountedHeap.Buffer
import CountedHeap.Cell.Kind
import CountedHeap.Text.Basic
import CountedHeap.Thread.Basic

/-!
# Cells

A cell is a header and a body. The header counts the references to the cell and carries the marks
of the collector; the body is a string, an object, a buffer or a thread.

* `Header.release`, `Header.isLast`: take one count back, and see whether it is the last.
* `Body.refs`, `Body.tracedRefs`: the references that a cell owns, and those a pass follows.
* `Body.size`: the bytes that are accounted for a cell.
-/

namespace CountedHeap

/-- The marks of the collector. -/
structure Marks where
  /-- Reached in the current pass. -/
  reachable : Bool := false
  /-- Unreachable; its finalizer runs at the end of the current pass. -/
  finalizable : Bool := false
  /-- The finalizer has run; cleared when the cell is rescued. -/
  finalized : Bool := false
deriving DecidableEq, Inhabited

namespace Marks

/-- The marks that the low three bits of a byte stand for; the others mean nothing. -/
def ofBits (bits : UInt8) : Marks where
  reachable := bits &&& 1 != 0
  finalizable := bits &&& 2 != 0
  finalized := bits &&& 4 != 0

/-- One bit for each mark, from the lowest. -/
def toBits (m : Marks) : UInt8 :=
  m.reachable.toUInt8 ||| (m.finalizable.toUInt8 <<< 1) ||| (m.finalized.toUInt8 <<< 2)

/-- The marks of both. -/
def union (m n : Marks) : Marks where
  reachable := m.reachable || n.reachable
  finalizable := m.finalizable || n.finalizable
  finalized := m.finalized || n.finalized

/-- The marks of the first that the second does not have. -/
def diff (m n : Marks) : Marks where
  reachable := m.reachable && !n.reachable
  finalizable := m.finalizable && !n.finalizable
  finalized := m.finalized && !n.finalized

/-- Whether the first has every mark of the second. -/
def includes (m n : Marks) : Bool :=
  (m.reachable || !n.reachable) && (m.finalizable || !n.finalizable) &&
    (m.finalized || !n.finalized)

@[simp] theorem ofBits_toBits (m : Marks) : ofBits m.toBits = m := by
  obtain ⟨r, f, d⟩ := m
  cases r <;> cases f <;> cases d <;> rfl

/-- One set of marks has all of another exactly if joining them changes nothing. -/
theorem includes_iff (m n : Marks) : m.includes n = true ↔ m.union n = m := by
  obtain ⟨a, b, c⟩ := m
  obtain ⟨d, e, f⟩ := n
  cases a <;> cases b <;> cases c <;> cases d <;> cases e <;> cases f <;> decide

end Marks

/-- The count of references to a cell, and its marks. -/
structure Header where
  count : Nat
  marks : Marks
deriving DecidableEq, Inhabited

namespace Header

/-- The header of a new cell: one reference, which its creator holds. -/
def new : Header :=
  ⟨1, {}⟩

/-- Counts one more reference. -/
def acquire (h : Header) : Header :=
  { h with count := h.count + 1 }

/-- Counts one reference less, if any is counted. -/
def release (h : Header) : Header :=
  { h with count := h.count - 1 }

/-- Whether a release is that of the last reference. -/
def isLast (h : Header) : Bool :=
  h.count == 1

@[simp] theorem release_acquire (h : Header) : h.acquire.release = h := rfl

/-- A count that is not zero has been taken before. -/
theorem acquire_release {h : Header} (pos : 0 < h.count) : h.release.acquire = h := by
  obtain ⟨count, marks⟩ := h
  simp only [release, acquire, mk.injEq, and_true]
  exact Nat.sub_add_cancel pos

end Header

/-- What a cell holds. -/
inductive Body where
  | string (t : Text)
  | object (o : Object)
  | buffer (b : Buffer)
  | thread (t : Thread)

namespace Body

def kind : Body → CellKind
  | string _ => .string
  | object _ => .object
  | buffer _ => .buffer
  | thread _ => .thread

def isComposite (b : Body) : Bool :=
  b.kind.isComposite

/-- The object part of an object or a thread. -/
def object? : Body → Option Object
  | object o => some o
  | thread t => some t.object
  | string _ | buffer _ => none

/-- The references a cell owns, one count each. -/
def refs : Body → List Handle
  | string _ | buffer _ => []
  | object o => o.refs
  | thread t => t.refs

/-- The references that a tracing pass follows. -/
def tracedRefs : Body → List Handle
  | thread t => t.tracedRefs
  | b => b.refs

/-- Whether this is a thread that runs or waits for one that it resumed. -/
def isActiveThread : Body → Bool
  | thread t => t.state.isActive
  | string _ | object _ | buffer _ => false

/-- The bytes of a cell, and those a thread has in addition. -/
def cellBytes : Nat := 176
def threadBytes : Nat := 360

/-- The bytes that are accounted for a cell. -/
def size : Body → Nat
  | string t => cellBytes + t.size
  | buffer b => cellBytes + b.size
  | object o => cellBytes + o.payloadBytes
  | thread t => cellBytes + threadBytes + t.object.payloadBytes

/-- Changes the object part, if there is one. -/
def modifyObject (b : Body) (f : Object → Object) : Body :=
  match b with
  | object o => object (f o)
  | thread t => thread { t with object := f t.object }
  | string t => string t
  | buffer c => buffer c

/-- Changes a thread. -/
def modifyThread (b : Body) (f : Thread → Thread) : Body :=
  match b with
  | thread t => thread (f t)
  | b => b

/-- Changes a buffer. -/
def modifyBuffer (b : Body) (f : Buffer → Buffer) : Body :=
  match b with
  | buffer c => buffer (f c)
  | b => b

end Body

/-- A header and a body. -/
structure Cell where
  header : Header
  body : Body

namespace Cell

/-- A cell with one reference. -/
def new (body : Body) : Cell :=
  ⟨.new, body⟩

def kind (c : Cell) : CellKind :=
  c.body.kind

def isComposite (c : Cell) : Bool :=
  c.body.isComposite

def modifyHeader (c : Cell) (f : Header → Header) : Cell :=
  { c with header := f c.header }

def modifyMarks (c : Cell) (f : Marks → Marks) : Cell :=
  { c with header := { c.header with marks := f c.header.marks } }

def modifyBody (c : Cell) (f : Body → Body) : Cell :=
  { c with body := f c.body }

end Cell

end CountedHeap
