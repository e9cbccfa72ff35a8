import CountedHeap.Context
import CountedHeap.Decimal.Reading
import CountedHeap.Engine
import CountedHeap.Shell.Command
import CountedHeap.Shell.Line
import CountedHeap.Shell.Report

/-!
# Sessions of the shell

The shell binds names to values and holds one count on each value that it has bound. A name may also
have a root. Finalizers that the shell installs write a line.

* `Shell.execute`: what a command does.
* `Shell.readLine`: what the shell does with a line.
* `Shell.transcript`: how a session ends, and everything that it writes.
-/

namespace CountedHeap

namespace Shell

/-- Names and what they are bound to. -/
abbrev Bindings (α : Type) : Type :=
  List (String × α)

/-- What a name is bound to. -/
def Bindings.find? {α : Type} (b : Bindings α) (name : String) : Option α :=
  b.lookup name

/-- The bindings without a name. -/
def Bindings.erase {α : Type} (b : Bindings α) (name : String) : Bindings α :=
  b.filter (·.1 ≠ name)

/-- Binds a name, which is then bound to nothing else. -/
def Bindings.insert {α : Type} (b : Bindings α) (name : String) (a : α) : Bindings α :=
  (name, a) :: b.erase name

namespace Bindings

variable {α : Type}

theorem find?_erase_self (b : Bindings α) (name : String) : (b.erase name).find? name = none := by
  unfold find? erase
  rw [List.lookup_eq_none_iff]
  intro p hp
  have h : p.1 ≠ name := of_decide_eq_true (List.mem_filter.1 hp).2
  simpa using h.symm

@[simp] theorem find?_insert_self (b : Bindings α) (name : String) (a : α) :
    (b.insert name a).find? name = some a := by
  simp [find?, insert]

end Bindings

/-- Why a command had no effect. -/
inductive Refusal where
  | heap (e : HeapError)
  | unknownName (name : String)
  | notACell (name : String)
  | unrecognized
deriving DecidableEq

/-- The wording of a refusal. -/
def Refusal.message : Refusal → String
  | heap e => e.message
  | unknownName name => "unknown name `" ++ name ++ "`"
  | notACell name => "`" ++ name ++ "` is not a heap cell"
  | unrecognized => "unrecognized command, try `help`"

/-- The state of the shell. -/
structure State where
  context : Context
  names : Bindings Value
  roots : Bindings Nat
  /-- The finalizer that the shell installs. -/
  finalizer : NativeId

/-- The host of the shell: what has been written. -/
abbrev Screen : Type := String

/-- A step of the shell, which keeps its effects when it is refused. -/
abbrev Step : Type → Type 1 :=
  ExceptT Refusal (StateT State (Program Screen))

/-- The programs of the shell's native functions: one, which writes a line about its argument. -/
def host : Host Screen := fun _ v => do
  Program.modifyState (· ++ "finalizing " ++ v.display ++ "\n")
  return .returned

/-! ## Steps -/

/-- Writes a line. -/
def write (line : String) : Step Unit :=
  ExceptT.lift (StateT.lift (Program.modifyState (· ++ line ++ "\n")))

/-- Performs an operation, and goes on whether or not it is refused. -/
def tryOperation {β : Type} (op : Operation β) : Step (Except HeapError β) :=
  ExceptT.lift (StateT.lift (Program.ofOperation op))

/-- Goes on unless there was a refusal. -/
def orRefuse {β : Type} : Except HeapError β → Step β
  | .ok b => pure b
  | .error e => throw (.heap e)

/-- Performs an operation. -/
def perform {β : Type} (op : Operation β) : Step β := do
  orRefuse (← tryOperation op)

/-- Reads something off the heap. -/
def inspect {α : Type} (f : Heap → α) : Step α :=
  ExceptT.lift (StateT.lift (Program.ofQuery f))

/-- The value of a name. -/
def lookup (name : String) : Step Value := do
  match (← get).names.find? name with
  | some v => return v
  | none => throw (.unknownName name)

/-- The cell of a name. -/
def lookupCell (name : String) : Step Handle := do
  match (← lookup name).handle? with
  | some r => return r
  | none => throw (.notACell name)

/-- The value that a word stands for: a constant, a number, or what it is bound to. -/
def operand (word : String) : Step Value :=
  match word with
  | "null" => pure .null
  | "undefined" => pure .undefined
  | "true" => pure (.bool true)
  | "false" => pure (.bool false)
  | _ =>
    match Decimal.read? word with
    | some x => pure (.number x)
    | none => lookup word

/-- Binds a name to a value that comes with a count, and gives the old value back. -/
def bindName (name : String) (v : Value) : Step Unit := do
  write (name ++ " = " ++ v.display)
  let s ← get
  set { s with names := s.names.insert name v }
  match s.names.find? name with
  | some old => perform (.release old)
  | none => pure ()

/-- Does something with the string cell of a key, which is given back afterwards in any case. -/
def withKey {β : Type} (key : String) (f : Handle → Step (Except HeapError β)) : Step β := do
  let k ← perform (.intern key false)
  let result ← f k
  perform (.release (.ref k))
  orRefuse result

/-- What a command does; whether the session goes on. -/
def execute (command : Command) : Step Bool := do
  match command with
  | .obj name proto =>
    let proto ← match proto with
      | some p => some <$> lookupCell p
      | none => do
        let context := (← get).context
        inspect (context.builtin · .objectPrototype)
    let r ← perform (.allocObject proto)
    bindName name (.ref r)
  | .str name text =>
    let r ← perform (.intern text false)
    bindName name (.ref r)
  | .buf name length dynamic =>
    let r ← perform (.allocBuffer length dynamic)
    bindName name (.ref r)
  | .set obj key value =>
    let r ← lookupCell obj
    let v ← operand value
    withKey key fun k => tryOperation (.putProp r k v)
  | .get obj key =>
    let r ← lookupCell obj
    match ← withKey key fun k => inspect (·.getProp r k) with
    | some slot => write slot.debug
    | none => write "undefined"
  | .drop name =>
    let v ← lookup name
    modify fun s => { s with names := s.names.erase name }
    perform (.release v)
  | .root name =>
    let v ← lookup name
    let n ← perform (.addRoot v)
    let s ← get
    set { s with roots := s.roots.insert name n }
    match s.roots.find? name with
    | some old =>
      let _ ← perform (.removeRoot old)
    | none => pure ()
  | .unroot name =>
    let s ← get
    match s.roots.find? name with
    | some n =>
      set { s with roots := s.roots.erase name }
      let _ ← perform (.removeRoot n)
    | none => throw (.unknownName name)
  | .fin name =>
    let r ← lookupCell name
    let finalizer := (← get).finalizer
    perform (.setFinalizer r (.native finalizer))
  | .gc options =>
    let ran ← perform (.collect options)
    let report ← inspect (·.lastPass)
    write ("ran: " ++ boolText ran ++ ", " ++ report.debug)
  | .stats => write (← inspect (·.stats)).debug
  | .help => write helpText
  | .quit => return false
  return true

/-- How a session ends. -/
inductive Ending where
  /-- There are no more lines, or one of them says so. -/
  | regular
  /-- There is a line that cannot be read. -/
  | unreadable
deriving DecidableEq

/-- The code with which the program exits. -/
def Ending.exitCode : Ending → UInt8
  | regular => 0
  | unreadable => 101

/-- What the shell does with a line without blank characters at its ends; whether the session goes
on. A refusal is written and does not end the session, and an empty line does nothing. -/
def evaluate (cs : List Char) (s : State) : Program Screen (Bool × State) :=
  if cs.isEmpty then return (true, s)
  else do
    let step : Step Bool :=
      match Command.parse? cs with
      | some command => execute command
      | none => throw .unrecognized
    match ← (step.run).run s with
    | (.ok more, s) => return (more, s)
    | (.error e, s) =>
      Program.modifyState (· ++ "Error: " ++ e.message ++ "\n")
      return (true, s)

/-- What the shell does with a line as it was typed, and how the session ends if it does. -/
def readLine (line : String) (s : State) : Program Screen (Option Ending × State) :=
  match typedLine? line.toList with
  | none => return (some .unreadable, s)
  | some cs => do
    let (more, s) ← evaluate (trimBlank cs) s
    return (if more then none else some .regular, s)

/-- The shell before the first line: a new context and the finalizer of the shell. -/
def start : ExceptT HeapError (Program Screen) State := do
  let context ← Context.create
  let finalizer ← Program.attempt .registerNative
  ExceptT.lift (Program.modifyState (· ++ greeting ++ "\n"))
  return ⟨context, [], [], finalizer⟩

/-- Reads lines until one ends the session or there are no more. -/
def readLines : List String → State → Program Screen (Ending × State)
  | [], s => do
    Program.modifyState (· ++ prompt)
    return (.regular, s)
  | line :: rest, s => do
    Program.modifyState (· ++ prompt)
    match ← readLine line s with
    | (some ending, s) => return (ending, s)
    | (none, s) => readLines rest s

/-- A session over the given lines. -/
def session (lines : List String) : ExceptT HeapError (Program Screen) (Ending × State) := do
  let s ← start
  ExceptT.lift (readLines lines s)

/-- How a session over the given lines ends and everything that it writes, if no more than `fuel`
cells and passes are dealt with at a time. -/
def transcript (fuel : Nat) (lines : List String) : Option (Except HeapError (Ending × String)) :=
  match run host fuel (session lines).run ⟨.empty {}, ""⟩ with
  | none => none
  | some (.ok (ending, _), w) => some (.ok (ending, w.host))
  | some (.error e, _) => some (.error e)

end Shell

end CountedHeap
