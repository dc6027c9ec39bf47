/-
The initialization analysis of a function. For each visited block it keeps what is known at its end;
what is known at the head of a block is the join over its predecessors, those not visited saying
nothing. A sweep visits blocks in order, each from what the visits before it left behind. Solving
repeats a sweep until one changes nothing, and a last sweep in stored order records the reads.
-/
import SSALint.Init.Transfer
import SSALint.Config

namespace SSALint

/-- That a visit changed what is known at the end of a block, and how many slots it tracks. -/
structure Change where
  block : BlockId
  tracked : Nat
deriving DecidableEq, Repr

/-- What a sweep leaves behind. -/
structure Sweep where
  /-- What is known at the end of each block visited so far. -/
  known : Table Slots
  /-- The changes that the sweep made, in order. -/
  changes : List Change
  /-- The uninitialized reads that the sweep met, in order. -/
  reads : List LocalId
deriving DecidableEq, Repr

/-- What repeated sweeps leave behind. -/
structure Solution where
  known : Table Slots
  changes : List Change
  /-- The number of sweeps, counting the last one, which changed nothing. -/
  rounds : Nat
deriving DecidableEq, Repr

/-- The outcome of the analysis of a function. -/
structure InitAnalysis where
  /-- The solution that the recording started from; a single pass starts from nothing. -/
  solution? : Option Solution
  recording : Sweep
deriving DecidableEq, Repr

namespace Func

variable (f : Func)

/-- What is known at the head of a block. -/
def slotsAtHead (known : Table Slots) (b : BlockId) : Slots :=
  .joinAll ((f.flow.predecessors b).filterMap known.get?)

/-- What a visit finds at the end of a block, if the block is there. -/
def slotsAtEnd? (known : Table Slots) (b : BlockId) : Option Slots :=
  (f.blocks.get? b).map fun block => (f.slotsAtHead known b).transfer f block.instrs

/-- The uninitialized reads that a visit finds in a block. -/
def badReadsIn (known : Table Slots) (b : BlockId) : List LocalId :=
  match f.blocks.get? b with
  | some block => (f.slotsAtHead known b).badReads f block.instrs
  | none => []

/-- Visits blocks in order. -/
def sweep (known : Table Slots) : List BlockId → Sweep
  | [] => ⟨known, [], []⟩
  | b :: bs =>
    let reads := f.badReadsIn known b
    match f.slotsAtEnd? known b with
    | some slots =>
      if known.get? b = some slots then
        let rest := sweep known bs
        { rest with reads := reads ++ rest.reads }
      else
        let rest := sweep (known.insert b slots) bs
        { rest with changes := ⟨b, slots.size⟩ :: rest.changes, reads := reads ++ rest.reads }
    | none => sweep known bs

/-! ## Solving -/

/-- The order of the visits of a sweep that solves: reachable blocks in flow order, then the others
in stored order. -/
def solvingOrder : List BlockId :=
  f.flowOrder ++ f.blocks.keys.filter fun b => !f.flowOrder.contains b

/-- The slots that the function makes, each once. -/
def madeSlots : List LocalId := (f.instrs.filterMap Instr.slot?).eraseDups

/-- A number of sweeps that is enough: every sweep but the last one changes a block, and a block
changes at most once to become known and twice for each slot. -/
def roundBound : Nat := 1 + f.blocks.size * (1 + 2 * f.madeSlots.length)

/-- Sweeps until one changes nothing, `bound` times at most. -/
def solveWithin : (bound : Nat) → (known : Table Slots) → Solution
  | 0, known => ⟨known, [], 0⟩
  | bound + 1, known =>
    let s := f.sweep known f.solvingOrder
    if s.changes.isEmpty then ⟨s.known, [], 1⟩
    else
      let rest := solveWithin bound s.known
      ⟨rest.known, s.changes ++ rest.changes, rest.rounds + 1⟩

/-- Sweeps until one changes nothing. -/
def solve : Solution := f.solveWithin f.roundBound .empty

/-- Runs the analysis. -/
def initAnalysis (mode : Traversal) : InitAnalysis :=
  match mode with
  | .singlePass => ⟨none, f.sweep .empty f.blocks.keys⟩
  | .fixpoint =>
    let solution := f.solve
    ⟨some solution, f.sweep solution.known f.blocks.keys⟩

end Func

namespace InitAnalysis

/-- What is known at the end of each block. -/
def known (a : InitAnalysis) : Table Slots := a.recording.known

/-- The slots that are read uninitialized, ascending and each once. -/
def pending (a : InitAnalysis) : List LocalId :=
  a.recording.reads.eraseDups.mergeSort (· ≤ ·)

/-- The names of those slots in alphabetical order; one without a name goes by its id. -/
def pendingNames (a : InitAnalysis) (f : Func) : List String :=
  (a.pending.map fun x => (f.localName? x).getD (toString x)).mergeSort (· ≤ ·)

end InitAnalysis
end SSALint
