import CountedHeap.Heap.Basic
import CountedHeap.Value.Text

/-!
# Reports of the shell

* `Slot.debug`, `PassReport.debug`, `Heap.Stats.debug`: how the shell shows a property, a pass and
  the statistics.
* `Shell.helpText`: the list of commands.
-/

namespace CountedHeap

/-- The contents of a property with the name of their kind. -/
def Slot.debug : Slot → String
  | data v => "Data(" ++ v.debug ++ ")"
  | accessor getter setter =>
    "Accessor \x7b getter: " ++ getter.debug ++ ", setter: " ++ setter.debug ++ " \x7d"

/-- The text of a truth value. -/
def boolText (b : Bool) : String :=
  if b then "true" else "false"

/-- The report of a pass on one line. -/
def PassReport.debug (p : PassReport) : String :=
  "GcStats \x7b objects_before: " ++ toString p.objectsBefore ++
    ", objects_after: " ++ toString p.objectsAfter ++
    ", bytes_freed: " ++ toString p.bytesFreed ++
    ", finalized: " ++ toString p.finalized ++
    ", requeued: " ++ toString p.requeued ++
    ", emergency: " ++ boolText p.emergency ++ " \x7d"

/-- The statistics with their names, in the order in which they are shown. -/
def Heap.Stats.fields (s : Heap.Stats) : List (String × Int) :=
  [("live_strings", s.liveStrings),
    ("live_objects", s.liveObjects),
    ("live_buffers", s.liveBuffers),
    ("live_threads", s.liveThreads),
    ("interned_strings", s.internedStrings),
    ("used_bytes", s.usedBytes),
    ("max_bytes", s.maxBytes),
    ("refzero_frees", s.counters.queueFrees),
    ("strings_freed", s.counters.stringsFreed),
    ("buffers_freed", s.counters.buffersFreed),
    ("rescues", s.counters.rescues),
    ("finalizer_runs", s.counters.finalizerRuns),
    ("finalizer_errors", s.counters.finalizerErrors),
    ("gc_passes", s.counters.passes),
    ("emergency_passes", s.counters.emergencyPasses),
    ("trigger_counter", s.trigger)]

/-- The statistics, one on a line. -/
def Heap.Stats.debug (s : Heap.Stats) : String :=
  "HeapStats \x7b\n" ++
    String.join (s.fields.map fun (name, n) => "    " ++ name ++ ": " ++ toString n ++ ",\n") ++
    "\x7d"

namespace Shell

/-- The line that greets. -/
def greeting : String :=
  "refzero heap shell, `help` for commands"

/-- What the shell writes before it reads a line. -/
def prompt : String :=
  "heap> "

/-- The list of commands. -/
def helpText : String :=
  String.intercalate "\n"
    ["commands:",
      "  obj NAME [PROTO]        allocate an object",
      "  str NAME TEXT           intern a string",
      "  buf NAME LEN [dynamic]  allocate a buffer",
      "  set OBJ KEY VALUE       store a property (VALUE: name, number, null, undefined)",
      "  get OBJ KEY             read a property",
      "  drop NAME               release the shell's reference",
      "  root NAME               register NAME as a global root",
      "  unroot NAME             remove NAME's global root",
      "  fin OBJ                 install a logging finalizer",
      "  gc [emergency|nofin]    run mark-and-sweep",
      "  stats                   show heap statistics",
      "  help                    show this text",
      "  quit                    exit"]

end Shell

end CountedHeap
