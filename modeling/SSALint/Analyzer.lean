/-
The analyzer: loading modules, checking them for uninitialized reads, removing dead functions.
-/
import SSALint.Error
import SSALint.Init.Check
import SSALint.Calls.Dead
import SSALint.IR.Printer

namespace SSALint

/-- The module that a text writes. -/
def parseModule (text : String) : Except Error Module :=
  match Source.read text.toList with
  | .ok m => .ok m
  | .error cause => .error (.read text.toList cause)

namespace Module

/-- Answers a module that keeps the rules for modules. -/
def verified (m : Module) : Except Error Module :=
  match m.verify with
  | .ok () => .ok m
  | .error cause => .error (.invalid cause)

/-- The text of a module. -/
def text (m : Module) : Except Error String :=
  match m.print with
  | .ok s => .ok s
  | .error cause => .error (.fault cause)

/-- Removes the dead functions of a module. Nothing is removed if the entry does not exist. -/
def eliminate (m : Module) (config : Config) : Except Error Pruned :=
  match m.findDeadFuncs? config with
  | none => .error (.missingEntry config.entry)
  | some d =>
    match m.prune d with
    | .ok p => .ok p
    | .error cause => .error (.fault cause)

/-- Removes the dead functions of a module and verifies what is left. The module is answered as it
is afterwards, whether it was removed from, found invalid, or left alone. -/
def eliminateVerified (m : Module) (config : Config) : Module × Except Error Pruned :=
  match m.eliminate config with
  | .error e => (m, .error e)
  | .ok p =>
    match p.module.verified with
    | .error e => (p.module, .error e)
    | .ok _ => (p.module, .ok p)

end Module

/-- The module that a text writes, verified. -/
def loadModule (text : String) : Except Error Module := do
  (← parseModule text).verified

end SSALint
