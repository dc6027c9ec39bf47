/-
The log of a run: what the analyses report about their own work, in the order in which they do it.
-/
import SSALint.Analyzer

namespace SSALint

/-- How much a line of the log matters, the gravest level first. -/
inductive LogLevel where
  | error
  | warn
  | info
  | debug
  | trace
deriving DecidableEq, Repr

/-- How much of a log is shown: nothing, or all lines up to a level. -/
abbrev LogFilter := Option LogLevel

instance : Spelled LogLevel where
  all := [.error, .warn, .info, .debug, .trace]
  spelling
    | .error => "ERROR"
    | .warn => "WARN"
    | .info => "INFO"
    | .debug => "DEBUG"
    | .trace => "TRACE"

/-- A message and the level that it is logged at. -/
structure LogLine where
  level : LogLevel
  message : String
deriving DecidableEq, Repr

/-- A line as it is shown, its level in front. -/
def LogLine.print (l : LogLine) : String := Spelled.spelling l.level ++ " " ++ l.message

/-- The line on a module that was parsed. -/
def Module.parseLog (m : Module) : List LogLine :=
  [⟨.debug, s!"parsed {m.funcs.size} functions and {m.globals.size} globals"⟩]

/-! ## Uninitialized reads -/

/-- The line on a visit that changed a block of a function. -/
def Change.log (func : String) (c : Change) : LogLine :=
  ⟨.debug, func ++ s!": bb{c.block} tracks {c.tracked} slots"⟩

/-- The lines on the sweeps of a function until nothing changed. -/
def Solution.log (func : String) (s : Solution) : List LogLine :=
  s.changes.map (Change.log func) ++
    [⟨.debug, func ++ s!": lattices converged after {s.rounds} iterations"⟩]

/-- The lines on the analysis of a function: those of the solver if there was one, then those of the last sweep. -/
def InitAnalysis.log (func : String) (a : InitAnalysis) : List LogLine :=
  (a.solution?.map (Solution.log func)).getD [] ++ a.recording.changes.map (Change.log func)

/-- The lines on the check of a function. -/
def CheckedFunc.log (c : CheckedFunc) : List LogLine :=
  let named : List LogLine :=
    if c.named = 0 then []
    else [⟨.debug, c.func.name ++ s!": named {c.named} anonymous allocas"⟩]
  named ++ c.analysis.log c.func.name

/-- The lines on the check of a module. -/
def CheckedModule.log (c : CheckedModule) : List LogLine :=
  let bad := c.reports.countP fun r => !r.vars.isEmpty
  c.funcs.flatMap (·.log) ++
    [⟨.info, s!"uninit: {c.funcs.length} functions analyzed, {bad} with uninitialized reads"⟩]

/-! ## Dead functions -/

/-- The lines on the call graph of a module. -/
def Module.callLog (m : Module) : List LogLine :=
  m.funcs.values.map fun f => ⟨.debug, f.name ++ s!" calls {f.calls.length} functions"⟩

/-- The line on a function that was removed. -/
def RemovedFunc.log (r : RemovedFunc) : LogLine :=
  ⟨.debug, "removed " ++ r.name ++ s!" ({r.uses} uses replaced)"⟩

/-- The lines on the removal of dead functions from a module. -/
def Module.eliminateLog (m : Module) (config : Config) : List LogLine :=
  match m.eliminate config with
  | .error (.missingEntry name) => [⟨.error, (Error.missingEntry name).print⟩]
  | .error _ => m.callLog
  | .ok p =>
    let removed := p.removed.length
    let remaining := p.module.funcs.size
    m.callLog ++ p.removed.map (·.log) ++
      [⟨.info, s!"dead-func: removed {removed} functions, {remaining} remaining"⟩]

/-! ## Runs -/

/-- A run of both analyses on the module of a text: the log, and the error that ended it early. -/
def fullRun (text : String) (config : Config) : List LogLine × Except Error Unit :=
  match parseModule text with
  | .error e => ([], .error e)
  | .ok m =>
    match m.verified with
    | .error e => (m.parseLog, .error e)
    | .ok m =>
      let c := m.check config.traversal
      let log := m.parseLog ++ c.log ++ c.module.eliminateLog config
      (log, (c.module.eliminateVerified config).2.map fun _ => ())

end SSALint
