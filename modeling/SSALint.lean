import SSALint.Table
import SSALint.Table.Request
import SSALint.IR.Printer
import SSALint.IR.Verify
import SSALint.IR.Marks
import SSALint.Source.Type
import SSALint.Source.Program
import SSALint.Source.Read
import SSALint.Flow.Func
import SSALint.Main
import SSALint.IR.Edit
import SSALint.Proofs.Init.Order
import SSALint.Proofs.Init.Transfer
import SSALint.Proofs.Table
import SSALint.Proofs.Table.Reference
import SSALint.Proofs.Flow.Graph
import SSALint.Proofs.Flow.Postorder
import SSALint.Proofs.Init.Solver
import SSALint.Proofs.Init.Walk
import SSALint.Proofs.Init.Least
import SSALint.Proofs.Init.Ascent
import SSALint.Proofs.Init.Forward
import SSALint.Proofs.Init.Meeting
import SSALint.Proofs.Calls.Chain
import SSALint.Proofs.IR.Operands
import SSALint.Proofs.Outcome
import SSALint.Proofs.IR.Verify
import SSALint.Proofs.IR.Marks
import SSALint.Proofs.IR.Replace
import SSALint.Proofs.Calls.Prune
import SSALint.Proofs.Source.NameTable
import SSALint.Proofs.Source.Scope
import SSALint.Proofs.Source.Resolve
import SSALint.Proofs.Source.WellFormed
import SSALint.Proofs.Source.Parser
import SSALint.Proofs.Source.Steady
import SSALint.Proofs.Source.Places
import SSALint.Proofs.Source.Accepted
import SSALint.Proofs.Calls.Repeat
import SSALint.Proofs.Independence
import SSALint.Proofs.Double.Rounding
import SSALint.Proofs.Source.Reads
import SSALint.Proofs.Source.ReadsToken
import SSALint.Proofs.Source.ReadsDouble
import SSALint.Proofs.IR.Typed
import SSALint.Proofs.Source.ReadsType
import SSALint.Proofs.Source.TypeText
import SSALint.Proofs.Source.Unresolved
import SSALint.Proofs.Source.ReadsValue
import SSALint.Proofs.Source.ReadsInstruction
import SSALint.Proofs.Source.ReadsLine
import SSALint.Proofs.Source.ReadsBody
import SSALint.Proofs.Source.ReadsProgram
import SSALint.Proofs.Source.Legible
import SSALint.Proofs.Source.Closed
import SSALint.Proofs.Source.Bare
import SSALint.Proofs.Source.Canonical
import SSALint.Proofs.Source.RoundTrip
import SSALint.Proofs.Init.Naming
import SSALint.Proofs.Init.SlotNames
import SSALint.Proofs.IR.Renamed
import SSALint.Proofs.Source.Regular
import SSALint.Proofs.IR.WellSpelled
import SSALint.Proofs.Source.Spelling
import SSALint.Proofs.Source.WellSpelled
import SSALint.Proofs.Init.Reported
import SSALint.Proofs.Source.Compact
import SSALint.Proofs.Source.Reload
import SSALint.Proofs.Calls.Sites
import SSALint.Proofs.Source.Sense
import SSALint.Proofs.Source.Binding
import SSALint.Proofs.Source.Literals
import SSALint.Proofs.Source.Consumes
import SSALint.Proofs.Source.Progress
import SSALint.Proofs.Source.Simulation
import SSALint.Proofs.Source.Alike
import SSALint.Proofs.Source.AlikeValues
import SSALint.Proofs.Source.AlikeItems
import SSALint.Proofs.Source.Relocation
import SSALint.Proofs.Source.UnnamedParams
import SSALint.Proofs.Source.Comments
import SSALint.Proofs.Source.Concatenation
import SSALint.Proofs.Source.References
import SSALint.Proofs.Source.Undefined
import SSALint.Proofs.Source.NameCalls
import SSALint.Proofs.Source.Culprit
