/-
What the analyses tell their user, and its text.
-/
import SSALint.IR.Operand

namespace SSALint

/-- The slots of a function that are read before they are assigned on some path, by name. -/
structure UninitReport where
  func : FuncId
  funcName : String
  vars : List String
deriving DecidableEq, Repr

/-- The functions that were removed and those that remain, by name. -/
structure DeadFuncReport where
  entry : String
  removed : List String
  remaining : List String
deriving DecidableEq, Repr

/-- The text of a report: the function, its slots if there are any, and a rule. -/
def UninitReport.print (r : UninitReport) : String :=
  let vars := String.join (r.vars.map fun v => "\t" ++ v ++ "\n")
  "Function: " ++ r.funcName ++ "\n" ++
    (if r.vars.isEmpty then "" else "Referenced uninitialized values:\n" ++ vars ++ "\n") ++
    "---------------------\n"

/-- The text of several reports in a row. -/
def printUninitReports (rs : List UninitReport) : String := String.join (rs.map (·.print))

/-- The names of the functions that remain, a line each. -/
def DeadFuncReport.printRemaining (r : DeadFuncReport) : String :=
  String.join (r.remaining.map (· ++ "\n"))

end SSALint
