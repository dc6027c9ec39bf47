/-
Running commands. A run reads one file, works on its text, and may write one file; how files are
accessed is left open.
-/
import SSALint.CommandLine.Arguments

namespace SSALint.CommandLine

/-- Access to files in a monad. Both operations answer the reason for a failure. -/
structure FileAccess (m : Type → Type) where
  read : (path : String) → m (Except String String)
  write : (path text : String) → m (Except String Unit)

/-- What a run leaves behind. -/
structure Outcome where
  exitCode : Nat
  stdout : String
  /-- The error that ended the run. -/
  error : Option String
  log : List LogLine
deriving DecidableEq, Repr

/-- The work on a text before anything is written. -/
structure Work where
  stdout : String
  log : List LogLine
  /-- The text for the output file, if there is one to write. -/
  output : Option (String × String)
  error : Option Error

/-- Work that ended in an error and has nothing to write. -/
def Work.failed (stdout : String) (log : List LogLine) (e : Error) : Work :=
  ⟨stdout, log, none, some e⟩

/-- The choices of a request. -/
def Request.config (r : Request) : Config :=
  { Config.ofFlags (r.given.has .fixpoint) (r.given.has .transitive) with
    entry := (r.given.value? .entry).getD "main" }

/-- Checks a module and prints the reports, and the module with its slots named if asked to. -/
def checkWork (r : Request) (m : Module) : CheckedModule × Except Error String :=
  let c := m.check r.config.traversal
  let reports := printUninitReports c.reports
  (c, if r.given.has .emitIr then c.module.text.map (reports ++ ·) else .ok reports)

/-- Removes the dead functions of a module, prints the names of the others, and writes the module if
asked to. That the entry is missing is told, and is no error. -/
def pruneWork (r : Request) (m : Module) (stdout : String) (log : List LogLine) : Work :=
  let log := log ++ m.eliminateLog r.config
  match m.eliminateVerified r.config with
  | (_, .error (.missingEntry name)) =>
    ⟨stdout ++ "error: " ++ name ++ " function not found\n", log, none, none⟩
  | (_, .error e) => .failed stdout log e
  | (pruned, .ok p) =>
    let stdout := stdout ++ p.report.printRemaining
    match r.given.value? .output with
    | none => ⟨stdout, log, none, none⟩
    | some path =>
      match pruned.text with
      | .ok text => ⟨stdout, log, some (path, text), none⟩
      | .error e => .failed stdout log e

/-- Works on the text of the file of a request. -/
def Request.work (r : Request) (text : String) : Work :=
  match loadModule text with
  | .error e => .failed "" (fullRun text r.config).1 e
  | .ok m =>
    if r.command.checks then
      let (c, printed) := checkWork r m
      let log := m.parseLog ++ c.log
      match printed with
      | .error e => .failed "" log e
      | .ok stdout =>
        if r.command.prunes then pruneWork r c.module stdout log
        else ⟨stdout, log, none, none⟩
    else pruneWork r m "" m.parseLog

variable {m : Type → Type} [Monad m]

/-- Runs a request. -/
def Request.run (r : Request) (files : FileAccess m) : m Outcome := do
  match ← files.read r.file with
  | .error reason => return ⟨1, "", some reason, []⟩
  | .ok text =>
    let w := r.work text
    match w.error, w.output with
    | some e, _ => return ⟨1, w.stdout, some e.print, w.log⟩
    | none, none => return ⟨0, w.stdout, none, w.log⟩
    | none, some (path, text) =>
      match ← files.write path text with
      | .ok () => return ⟨0, w.stdout, none, w.log⟩
      | .error reason => return ⟨1, w.stdout, some reason, w.log⟩

/-- How to call the program. -/
def usage : String :=
  "Usage: [--log-level LEVEL] COMMAND FILE [OPTIONS]\n" ++
  "  uninit FILE [--fixpoint] [--emit-ir]\n" ++
  "  dead-func FILE [--transitive] [--entry NAME] [-o OUT]\n" ++
  "  all FILE, with the options of both\n"

/-- Runs a command line. One that is refused has the exit code 2 and prints nothing to the standard
output. -/
def run (words : List String) (files : FileAccess m) : m Outcome :=
  match parse words with
  | .error _ => return ⟨2, "", none, []⟩
  | .ok .help => return ⟨0, usage, none, []⟩
  | .ok (.run r) => r.run files

end SSALint.CommandLine
