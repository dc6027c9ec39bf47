/-
Uninitialized reads in functions and modules. Slots without a name are named first, which is all
that a check changes.
-/
import SSALint.Init.Solver
import SSALint.Init.Naming
import SSALint.Report

namespace SSALint

/-- The outcome of checking a function. -/
structure CheckedFunc where
  /-- The function with its slots named. -/
  func : Func
  /-- The number of slots that were named. -/
  named : Nat
  analysis : InitAnalysis
deriving DecidableEq, Repr

/-- The outcome of checking a module. -/
structure CheckedModule where
  module : Module
  funcs : List CheckedFunc
deriving DecidableEq, Repr

/-- Names the slots of a function and analyses it. -/
def Func.check (f : Func) (mode : Traversal) : CheckedFunc :=
  let (f, named) := f.nameAnonymousSlots
  ⟨f, named, f.initAnalysis mode⟩

/-- Checks the functions of a module in the order of their ids. -/
def Module.check (m : Module) (mode : Traversal) : CheckedModule where
  module := { m with funcs := m.funcs.map fun f => f.nameAnonymousSlots.1 }
  funcs := m.funcs.values.map fun f => f.check mode

/-- The report on a function: the names of the slots that are read before they are assigned. -/
def CheckedFunc.report (c : CheckedFunc) : UninitReport where
  func := c.func.id
  funcName := c.func.name
  vars := c.analysis.pendingNames c.func

/-- The reports on the functions of a module in the order of their ids. -/
def CheckedModule.reports (c : CheckedModule) : List UninitReport := c.funcs.map (·.report)

end SSALint
