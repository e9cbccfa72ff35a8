import CountedHeap.Shell.Session

/-!
# The shell as a program

Reads commands from standard input, line by line, and writes what they show to standard output.
-/

open CountedHeap

/-- More cells and passes than a session can have to deal with at a time. -/
def enoughFuel : Nat :=
  Nat.pow 2 60

/-- Writes what is on the screen and clears it. -/
def flushScreen (w : World Shell.Screen) : IO (World Shell.Screen) := do
  let stdout ← IO.getStdout
  stdout.putStr w.host
  stdout.flush
  return { w with host := "" }

/-- Reads and runs lines until the session is over, and says how it ended. -/
partial def readEvaluate (s : Shell.State) (w : World Shell.Screen) : IO Shell.Ending := do
  let w ← flushScreen { w with host := w.host ++ Shell.prompt }
  let line ← (← IO.getStdin).getLine
  if line.isEmpty then return .regular
  match run Shell.host enoughFuel (Shell.readLine line s) w with
  | none => return .regular
  | some ((ending, s), w) =>
    let w ← flushScreen w
    match ending with
    | some ending => return ending
    | none => readEvaluate s w

/-- Starts the shell. It exits with 1 if its heap cannot be made. -/
def main : IO UInt32 := do
  match run Shell.host enoughFuel Shell.start.run ⟨.empty {}, ""⟩ with
  | some (.ok s, w) => return (← readEvaluate s w).exitCode.toUInt32
  | some (.error e, _) =>
    (← IO.getStderr).putStrLn ("Error creating heap: " ++ e.message)
    return 1
  | none => return 1
