import CountedHeap.Operation
import CountedHeap.Text.Blank
import CountedHeap.Text.Word

/-!
# Commands of the shell

A command is a line of words. Names consist of word characters; keys and values are any words; the
text of a string is all that follows its name.

* `Command.parse?`: the command that a line without blank characters at its ends spells.
-/

namespace CountedHeap.Shell

/-- What the shell can be told to do. -/
inductive Command where
  | obj (name : String) (proto : Option String)
  | str (name text : String)
  | buf (name : String) (length : Nat) (dynamic : Bool)
  | set (obj key value : String)
  | get (obj key : String)
  | drop (name : String)
  | root (name : String)
  | unroot (name : String)
  | fin (name : String)
  | gc (options : PassOptions)
  | stats
  | help
  | quit
deriving DecidableEq

namespace Command

/-- A word as a name. -/
def name? (cs : List Char) : Option String :=
  if !cs.isEmpty && cs.all isWord then some (String.ofList cs) else none

/-- A length in ASCII digits, below `2 ^ 64`. -/
def length? (cs : List Char) : Option Nat :=
  if cs.isEmpty || !cs.all Char.isDigit then none
  else
    let n := cs.foldl (fun n c => 10 * n + (c.toNat - '0'.toNat)) 0
    if n < Nat.pow 2 64 then some n else none

/-- The command that the words after `obj` complete. -/
def obj? : List (List Char) → Option Command
  | [name] => do return obj (← name? name) none
  | [name, proto] => do return obj (← name? name) (some (← name? proto))
  | _ => none

/-- The command that a name and a text complete. -/
def str? (rest : List Char) : Option Command :=
  let (name, text) := cutWord rest
  if text.isEmpty then none else do return str (← name? name) (String.ofList text)

/-- The command that the words after `buf` complete. -/
def buf? : List (List Char) → Option Command
  | [name, length] => do return buf (← name? name) (← length? length) false
  | [name, length, word] =>
    if word = "dynamic".toList then do return buf (← name? name) (← length? length) true else none
  | _ => none

/-- The command that the words after `set` complete. -/
def set? : List (List Char) → Option Command
  | [name, key, value] => do
    return set (← name? name) (String.ofList key) (String.ofList value)
  | _ => none

/-- The command that the words after `get` complete. -/
def get? : List (List Char) → Option Command
  | [name, key] => do return get (← name? name) (String.ofList key)
  | _ => none

/-- The command that one name completes. -/
def named? (make : String → Command) : List (List Char) → Option Command
  | [name] => do return make (← name? name)
  | _ => none

/-- The command that the words after `gc` complete. -/
def gc? : List (List Char) → Option Command
  | [] => some (gc {})
  | [word] =>
    if word = "emergency".toList then some (gc { emergency := true })
    else if word = "nofin".toList then some (gc { skipFinalizers := true })
    else none
  | _ => none

/-- A command that is a word on its own. -/
def alone? (command : Command) (rest : List Char) : Option Command :=
  if rest.isEmpty then some command else none

/-- The command that a line without blank characters at its ends spells. -/
def parse? (line : List Char) : Option Command :=
  let (head, rest) := cutWord line
  match String.ofList head with
  | "stats" => alone? stats rest
  | "help" => alone? help rest
  | "quit" => alone? quit rest
  | "exit" => alone? quit rest
  | "obj" => obj? (words rest)
  | "str" => str? rest
  | "buf" => buf? (words rest)
  | "set" => set? (words rest)
  | "get" => get? (words rest)
  | "drop" => named? drop (words rest)
  | "root" => named? root (words rest)
  | "unroot" => named? unroot (words rest)
  | "fin" => named? fin (words rest)
  | "gc" => gc? (words rest)
  | _ => none

end Command

end CountedHeap.Shell
