import CountedHeap.Cell.Basic

/-!
# The arena

Cells stand in slots. A freed slot is given out again, latest first, under its next generation.
Composite cells are on one of two lists, threaded through links in their slots: the allocated cells,
and the queue of cells whose count has gone to zero. Moving a cell between them allocates nothing.

* `Arena.get?`: the cell a handle names.
* `Arena.place`, `Arena.release`: fill and empty a slot.
* `Arena.linkHead`, `linkTail`, `unlink`: change the lists.
* `Arena.members`: a list from head to tail.
-/

namespace CountedHeap

/-- The lists of composite cells. -/
inductive Chain where
  | allocated
  | queue
deriving DecidableEq

/-- The neighbours of a slot on its list, and which list that is. -/
structure Links where
  prev : Option Nat := none
  next : Option Nat := none
  chain : Option Chain := none
deriving DecidableEq, Inhabited

/-- A slot: how often it has been freed, its links, the bytes accounted for it, and its cell, if any. -/
structure ArenaSlot where
  freed : Nat
  links : Links
  bytes : Nat
  cell : Option Cell

namespace ArenaSlot

/-- The generation of a slot has 32 bits: it comes round when the slot has been freed often enough. -/
def generation (s : ArenaSlot) : UInt32 :=
  .ofNat s.freed

/-- Nothing else in the slot matters for it. -/
@[simp] theorem generation_mk (s : ArenaSlot) (l : Links) (b : Nat) (c : Option Cell) :
    (mk s.freed l b c).generation = s.generation := rfl

/-- A slot that has never held a cell. -/
def fresh : ArenaSlot :=
  ⟨0, {}, 0, none⟩

instance : Inhabited ArenaSlot := ⟨fresh⟩

end ArenaSlot

/-- The ends of a list and its length. -/
structure Ends where
  head : Option Nat := none
  tail : Option Nat := none
  length : Nat := 0
deriving DecidableEq, Inhabited

/-- All slots, the free ones, and the two lists. -/
structure Arena where
  slots : Array ArenaSlot
  free : List Nat
  usedBytes : Nat
  maxBytes : Nat
  allocated : Ends
  queue : Ends

namespace Arena

def empty (maxBytes : Nat) : Arena :=
  ⟨#[], [], 0, maxBytes, {}, {}⟩

/-! ## Cells -/

/-- The cell in a slot. -/
def cellAt? (a : Arena) (i : Nat) : Option Cell :=
  (a.slots[i]?).bind (·.cell)

/-- The cell that a handle names, if it has not been freed. -/
def get? (a : Arena) (r : Handle) : Option Cell :=
  match a.slots[r.index]? with
  | some s => if s.generation = r.generation then s.cell else none
  | none => none

/-- Whether a handle names a cell. -/
def isLive (a : Arena) (r : Handle) : Bool :=
  (a.get? r).isSome

/-- The handle of the cell in a slot. -/
def handleAt (a : Arena) (i : Nat) : Handle :=
  ⟨i, ((a.slots[i]?).map (·.generation)).getD 0⟩

/-- Changes the cell in a slot. -/
def modifyAt (a : Arena) (i : Nat) (f : Cell → Cell) : Arena :=
  { a with slots := a.slots.modify i fun ⟨n, l, b, c⟩ => ⟨n, l, b, c.map f⟩ }

/-- Changes every cell. -/
def modifyAll (a : Arena) (f : Cell → Cell) : Arena :=
  { a with slots := a.slots.map fun ⟨n, l, b, c⟩ => ⟨n, l, b, c.map f⟩ }

/-- The occupied slots and their cells, by slot. -/
def cells (a : Arena) : List (Nat × Cell) :=
  a.slots.toList.zipIdx.filterMap fun (s, i) => s.cell.map (i, ·)

/-- The number of occupied slots. -/
def liveCount (a : Arena) : Nat :=
  a.slots.size - a.free.length

/-- The number of cells of a kind. -/
def countOf (a : Arena) (kind : CellKind) : Nat :=
  a.slots.foldl (fun n s =>
    match s.cell with
    | some c => if c.kind = kind then n + 1 else n
    | none => n) 0

/-! ## Lists -/

def ends (a : Arena) : Chain → Ends
  | .allocated => a.allocated
  | .queue => a.queue

def setEnds (a : Arena) (chain : Chain) (e : Ends) : Arena :=
  match chain with
  | .allocated => { a with allocated := e }
  | .queue => { a with queue := e }

/-- The list that a slot is on. -/
def chainOf (a : Arena) (i : Nat) : Option Chain :=
  (a.slots[i]?).bind (·.links.chain)

/-- The links of a slot. -/
def linksAt (a : Arena) (i : Nat) : Links :=
  ((a.slots[i]?).map (·.links)).getD {}

def modifyLinks (a : Arena) (i : Nat) (f : Links → Links) : Arena :=
  { a with slots := a.slots.modify i fun ⟨n, l, b, c⟩ => ⟨n, f l, b, c⟩ }

/-- Puts a slot at the head of a list. -/
def linkHead (a : Arena) (chain : Chain) (i : Nat) : Arena :=
  let e := a.ends chain
  let a := a.modifyLinks i fun _ => ⟨none, e.head, some chain⟩
  match e.head with
  | some h =>
    (a.modifyLinks h ({ · with prev := some i })).setEnds chain ⟨some i, e.tail, e.length + 1⟩
  | none => a.setEnds chain ⟨some i, some i, e.length + 1⟩

/-- Puts a slot at the tail of a list, which leaves the head where it is. -/
def linkTail (a : Arena) (chain : Chain) (i : Nat) : Arena :=
  let e := a.ends chain
  let a := a.modifyLinks i fun _ => ⟨e.tail, none, some chain⟩
  match e.tail with
  | some t =>
    (a.modifyLinks t ({ · with next := some i })).setEnds chain ⟨e.head, some i, e.length + 1⟩
  | none => a.setEnds chain ⟨some i, some i, e.length + 1⟩

/-- Takes a slot off the list that it is on, if any. -/
def unlink (a : Arena) (i : Nat) : Arena :=
  let l := a.linksAt i
  match l.chain with
  | none => a
  | some chain =>
    let e := a.ends chain
    let a := match l.prev with
      | some p => a.modifyLinks p ({ · with next := l.next })
      | none => a
    let a := match l.next with
      | some n => a.modifyLinks n ({ · with prev := l.prev })
      | none => a
    let head := if l.prev.isSome then e.head else l.next
    let tail := if l.next.isSome then e.tail else l.prev
    (a.setEnds chain ⟨head, tail, e.length - 1⟩).modifyLinks i fun _ => {}

/-- The slots of a list from a slot on, at most as many as the first argument says. -/
def walk (a : Arena) : Nat → Option Nat → List Nat
  | n + 1, some i => i :: walk a n (a.linksAt i).next
  | _, _ => []

/-- The slots of a list, from head to tail. -/
def members (a : Arena) (chain : Chain) : List Nat :=
  let e := a.ends chain
  a.walk e.length e.head

/-- The number of composite cells on the two lists. -/
def compositeCount (a : Arena) : Nat :=
  a.allocated.length + a.queue.length

/-! ## Slots -/

/-- Whether a cell of a size can be placed within the limit. -/
def hasRoom (a : Arena) (bytes : Nat) : Bool :=
  decide (a.usedBytes + bytes ≤ a.maxBytes)

/-- Puts a new cell into the slot that was freed last, or into a new one. A composite cell goes to
the head of the allocated list. -/
def place (a : Arena) (body : Body) : Arena × Handle :=
  let bytes := body.size
  let composite := body.isComposite
  let fill (freed : Nat) (l : Links) : ArenaSlot := ⟨freed, l, bytes, some (.new body)⟩
  let (a, i) : Arena × Nat :=
    match a.free with
    | i :: rest =>
      ({ a with
          slots := a.slots.modify i fun s => fill s.freed s.links
          free := rest
          usedBytes := a.usedBytes + bytes }, i)
    | [] =>
      let i := a.slots.size
      ({ a with slots := a.slots.push (fill 0 {}), usedBytes := a.usedBytes + bytes }, i)
  let r := a.handleAt i
  if composite then (a.linkHead .allocated i, r) else (a, r)

/-- Empties a slot, which must be on no list, and moves its generation on. -/
def release (a : Arena) (i : Nat) : Arena :=
  match a.slots[i]? with
  | some ⟨n, l, b, some _⟩ =>
    { a with
      slots := a.slots.setIfInBounds i ⟨n + 1, l, 0, none⟩
      free := i :: a.free
      usedBytes := a.usedBytes - b }
  | _ => a

/-- The bytes that are accounted for a slot. -/
def bytesAt (a : Arena) (i : Nat) : Nat :=
  ((a.slots[i]?).map (·.bytes)).getD 0

/-- Whether the cell in a slot may have another size: it may shrink, or grow within the limit. -/
def canResize (a : Arena) (i : Nat) (bytes : Nat) : Bool :=
  (a.cellAt? i).isSome &&
    (decide (bytes ≤ a.bytesAt i) || decide (a.usedBytes - a.bytesAt i + bytes ≤ a.maxBytes))

/-- Accounts another size for a slot. -/
def account (a : Arena) (i : Nat) (bytes : Nat) : Arena :=
  let old := a.bytesAt i
  { a with
    slots := a.slots.modify i fun ⟨n, l, _, c⟩ => ⟨n, l, bytes, c⟩
    usedBytes := a.usedBytes - old + bytes }

end Arena

end CountedHeap
