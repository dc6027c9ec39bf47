/-
The program: runs a command line on the files of the machine.
-/
import SSALint.CommandLine.Run

open SSALint SSALint.CommandLine

/-- An answer, or the reason why an action failed. -/
def tryAction {α : Type} (act : IO α) : IO (Except String α) := do
  try
    return .ok (← act)
  catch
    | .noFileOrDirectory .. => return .error "No such file or directory (os error 2)"
    | e => return .error (toString e)

/-- The files of the machine. -/
def machineFiles : FileAccess IO where
  read path := tryAction (IO.FS.readFile path)
  write path text := tryAction (IO.FS.writeFile path text)

/-- Whether a line of the log is shown under a filter. -/
def LogLine.shown (filter : LogFilter) (l : LogLine) : Bool :=
  let order : List LogLevel := Spelled.all
  filter.any fun level => order.idxOf l.level ≤ order.idxOf level

/-- Runs the command line that is given to the program and answers its exit code. -/
def main (words : List String) : IO UInt32 := do
  match CommandLine.parse words with
  | .error e =>
    IO.eprintln ("error: " ++ e.message)
    return 2
  | .ok parsed =>
    let filter : LogFilter := match parsed with
      | .run r => r.log
      | .help => none
    let outcome ← CommandLine.run words machineFiles
    for l in outcome.log do
      if LogLine.shown filter l then
        IO.eprintln ("[" ++ Spelled.spelling l.level ++ "] " ++ l.message)
    IO.print outcome.stdout
    if let some e := outcome.error then IO.eprintln ("Error: " ++ e)
    return outcome.exitCode.toUInt32
