import CountedHeap.Arena.Basic
import CountedHeap.HeapError
import CountedHeap.Text.OffsetCache

/-!
# Heaps

A heap is its cells and everything that is kept about them: the interned strings, the known offsets
into strings, the roots, the counters of the collector and the thread that runs.

* `Heap.cell`, `Heap.object`, `Heap.thread`, …: the cell a handle names, or why there is none.
* `Heap.stats`: what a report shows.
-/

namespace CountedHeap

/-- How often things have happened in a heap. -/
structure Counters where
  /-- Composite cells freed from the queue. -/
  queueFrees : Nat := 0
  stringsFreed : Nat := 0
  buffersFreed : Nat := 0
  rescues : Nat := 0
  finalizerRuns : Nat := 0
  finalizerErrors : Nat := 0
  passes : Nat := 0
  emergencyPasses : Nat := 0
deriving DecidableEq, Inhabited

/-- What a tracing pass did. -/
structure PassReport where
  objectsBefore : Nat := 0
  objectsAfter : Nat := 0
  bytesFreed : Nat := 0
  finalized : Nat := 0
  requeued : Nat := 0
  emergency : Bool := false
deriving DecidableEq, Inhabited

/-- All state of a heap. -/
structure Heap where
  config : Config
  arena : Arena
  strings : InternTable
  offsets : OffsetCache
  /-- How many native functions are registered. -/
  natives : Nat
  roots : Array (Option Value)
  freeRoots : List Nat
  /-- The queue is being worked off. -/
  draining : Bool
  /-- A tracing pass is under way. -/
  sweeping : Bool
  /-- Frees left before a drain starts a pass. -/
  trigger : Int
  counters : Counters
  /-- The thread that runs. The heap holds no count on it. -/
  current : Option Handle
  /-- The key of finalizers, once there is one. The heap holds one count on it. -/
  finalizerKey : Option Handle
  lastPass : PassReport

namespace Heap

/-- A heap of no cells. -/
def empty (config : Config) : Heap where
  config := config
  arena := .empty config.maxBytes
  strings := .empty
  offsets := .empty config.offsetCacheSize
  natives := 0
  roots := #[]
  freeRoots := []
  draining := false
  sweeping := false
  trigger := config.triggerInitial
  counters := {}
  current := none
  finalizerKey := none
  lastPass := {}

/-! ## Cells by handle -/

def isLive (h : Heap) (r : Handle) : Bool :=
  h.arena.isLive r

def kind? (h : Heap) (r : Handle) : Option CellKind :=
  (h.arena.get? r).map Cell.kind

/-- The count of a live cell. -/
def count? (h : Heap) (r : Handle) : Option Nat :=
  (h.arena.get? r).map (·.header.count)

/-- The cell that a handle names. -/
def cell (h : Heap) (r : Handle) : Except HeapError Cell :=
  match h.arena.get? r with
  | some c => .ok c
  | none => .error .invalidHandle

/-- The object part of a cell. -/
def object (h : Heap) (r : Handle) : Except HeapError Object :=
  match h.arena.get? r with
  | none => .error .invalidHandle
  | some c =>
    match c.body.object? with
    | some o => .ok o
    | none => .error (.wrongCellKind .object c.kind)

/-- The text of a string. -/
def text (h : Heap) (r : Handle) : Except HeapError Text :=
  match h.arena.get? r with
  | none => .error .invalidHandle
  | some ⟨_, .string t⟩ => .ok t
  | some c => .error (.wrongCellKind .string c.kind)

def buffer (h : Heap) (r : Handle) : Except HeapError Buffer :=
  match h.arena.get? r with
  | none => .error .invalidHandle
  | some ⟨_, .buffer b⟩ => .ok b
  | some c => .error (.wrongCellKind .buffer c.kind)

def thread (h : Heap) (r : Handle) : Except HeapError Thread :=
  match h.arena.get? r with
  | none => .error .invalidHandle
  | some ⟨_, .thread t⟩ => .ok t
  | some c => .error (.wrongCellKind .thread c.kind)

/-- Whether a value can be stored: a reference must name a live cell. -/
def checkValue (h : Heap) (v : Value) : Except HeapError Unit :=
  match v.handle? with
  | some r => if h.isLive r then .ok () else .error .invalidHandle
  | none => .ok ()

/-- Whether a handle can be the prototype of an object. -/
def checkProto (h : Heap) (proto : Option Handle) : Except HeapError Unit :=
  match proto with
  | some p => (h.object p).map fun _ => ()
  | none => .ok ()

/-! ## Changing parts -/

def modifyArena (h : Heap) (f : Arena → Arena) : Heap :=
  { h with arena := f h.arena }

/-- Changes the cell in a slot. -/
def modifyAt (h : Heap) (i : Nat) (f : Cell → Cell) : Heap :=
  h.modifyArena (·.modifyAt i f)

/-- Changes the object part of a live cell. -/
def modifyObject (h : Heap) (r : Handle) (f : Object → Object) : Heap :=
  h.modifyAt r.index (·.modifyBody (·.modifyObject f))

/-- Changes a live thread. -/
def modifyThread (h : Heap) (r : Handle) (f : Thread → Thread) : Heap :=
  h.modifyAt r.index (·.modifyBody (·.modifyThread f))

/-- Changes a live buffer. -/
def modifyBuffer (h : Heap) (r : Handle) (f : Buffer → Buffer) : Heap :=
  h.modifyAt r.index (·.modifyBody (·.modifyBuffer f))

def modifyCounters (h : Heap) (f : Counters → Counters) : Heap :=
  { h with counters := f h.counters }

/-- Counts one more reference to a cell. A stale handle counts nothing. -/
def retain (h : Heap) (r : Handle) : Heap :=
  if h.isLive r then h.modifyAt r.index (·.modifyHeader .acquire) else h

/-- Counts one more reference to each cell. -/
def retainAll (h : Heap) (rs : List Handle) : Heap :=
  rs.foldl retain h

/-! ## Queries -/

/-- The number of cells in the queue. -/
def queueLength (h : Heap) : Nat :=
  h.arena.queue.length

/-- The value of a root. -/
def root? (h : Heap) (n : Nat) : Option Value :=
  (h.roots[n]?).join

/-- The values of all roots. -/
def rootValues (h : Heap) : List Value :=
  h.roots.toList.filterMap id

/-- The interned string of a content. -/
def interned? (h : Heap) (content : String) : Option Handle :=
  h.strings.find? (contentHash content) fun r =>
    match h.arena.get? r with
    | some ⟨_, .string t⟩ => t.content == content
    | _ => false

/-- An array element; past the end there is `undefined`. -/
def arrayGet (h : Heap) (r : Handle) (i : Nat) : Except HeapError Value :=
  (h.object r).map fun o => (o.elements[i]?).getD .undefined

/-- The number of elements of an array. -/
def arrayLength (h : Heap) (r : Handle) : Except HeapError Nat :=
  (h.object r).map (·.elements.size)

/-- The value on top of a thread's stack. -/
def peek (h : Heap) (t : Handle) : Except HeapError Value := do
  match (← h.thread t).values.peek? with
  | some v => .ok v
  | none => .error .stackUnderflow

/-- A value of a thread's stack, counted from the lowest. -/
def stackGet (h : Heap) (t : Handle) (i : Nat) : Except HeapError Value := do
  match (← h.thread t).values.get? i with
  | some v => .ok v
  | none => .error (.misuse .stackIndexOutOfRange)

/-- An entry of a thread's table of built-ins. -/
def builtin (h : Heap) (t : Handle) (id : BuiltinId) : Except HeapError (Option Handle) :=
  (h.thread t).map (·.builtins.get id)

/-- What a report of a heap shows. -/
structure Stats where
  liveStrings : Nat
  liveObjects : Nat
  liveBuffers : Nat
  liveThreads : Nat
  internedStrings : Nat
  usedBytes : Nat
  maxBytes : Nat
  counters : Counters
  trigger : Int
deriving DecidableEq

def stats (h : Heap) : Stats where
  liveStrings := h.arena.countOf .string
  liveObjects := h.arena.countOf .object
  liveBuffers := h.arena.countOf .buffer
  liveThreads := h.arena.countOf .thread
  internedStrings := h.strings.count
  usedBytes := h.arena.usedBytes
  maxBytes := h.arena.maxBytes
  counters := h.counters
  trigger := h.trigger

end Heap

end CountedHeap
