/-
Resolving names: from a program to a module. Values and labels have a scope per body, globals and
functions share one scope; in each a name may be used before it is defined. Names are checked in the
order of the text, bodies before the names of their functions, and the symbols of the whole program
last. Then every name becomes its place in the order of definition: ids are dense and ascend through
the text.
-/
import SSALint.Source.Tree
import SSALint.Source.NameTable
import SSALint.IR.Module

namespace SSALint.Source

/-! ## Scopes -/

/-- The names of a body. -/
structure Scope where
  values : NameTable := {}
  labels : NameTable := {}

/-- The parameters of a body with their names. One without a name is called by its place among all
parameters and counts as written where the name of the function stands. -/
def Head.named (h : Head) : List NamedResult :=
  h.params.mapIdx fun i p => ⟨p.name.getD ⟨toString i, h.name.rest⟩, p.type⟩

/-- The name of a block; without a label it is empty, which no label is. -/
def NamedBlock.name (b : NamedBlock) : Mention := b.label.getD ⟨"", []⟩

namespace Scope

/-- Mentions the values and the targets of an operation or a terminator. -/
def mention (s : Scope) (operands : List NamedValue) (targets : List Mention) : Scope :=
  { values := (operands.filterMap Operand.var?).foldl (fun t m => (t.mention m).1) s.values
    labels := targets.foldl (fun t m => (t.mention m).1) s.labels }

/-- Defines a local value. -/
def defineValue (s : Scope) (m : Mention) : Except NameError Scope := do
  let (values, _) ← s.values.define .value m
  return { s with values }

/-- Defines a block. -/
def defineLabel (s : Scope) (m : Mention) : Except NameError Scope := do
  let (labels, _) ← s.labels.define .label m
  return { s with labels }

/-- Adds an instruction: what it uses, then its result. -/
def addInstr (s : Scope) (i : NamedInstr) : Except NameError Scope :=
  let s := s.mention i.operation.operands i.operation.targets
  match i.result with
  | some r => s.defineValue r.name
  | none => .ok s

/-- Adds a block: its label, its instructions, its terminator. -/
def addBlock (s : Scope) (b : NamedBlock) : Except NameError Scope := do
  let s ← s.defineLabel b.name
  let s ← b.instrs.foldlM addInstr s
  return s.mention b.terminator.operands b.terminator.targets

/-- The scope of a body, in which every name that is used is defined and none is twice. -/
def ofBody (h : Head) (blocks : List NamedBlock) : Except NameError Scope := do
  let s ← (h.named.map (·.name)).foldlM defineValue {}
  let s ← blocks.foldlM addBlock s
  let _ ← s.values.finish .value
  let _ ← s.labels.finish .label
  return s

end Scope

namespace Item

/-- The scope of an item; only definitions have names of their own. -/
def scope : Item → Except NameError Scope
  | .definition h blocks => Scope.ofBody h blocks
  | _ => .ok {}

/-- The operands of an item in the order of the text. -/
def operands : Item → List NamedValue
  | .global g => g.init.toList
  | .declaration _ => []
  | .definition _ blocks => blocks.flatMap fun b =>
      b.instrs.flatMap (·.operation.operands) ++ b.terminator.operands

end Item

/-- Adds the symbols of items to a table and makes the scope of each. -/
def scopes : (symbols : NameTable) → List Item → Except NameError (NameTable × List Scope)
  | symbols, [] => .ok (symbols, [])
  | symbols, item :: items => do
    let scope ← item.scope
    let symbols :=
      (item.operands.filterMap Operand.symbol?).foldl (fun t m => (t.mention m).1) symbols
    let (symbols, _) ← symbols.define .symbol item.name
    let (symbols, others) ← scopes symbols items
    return (symbols, scope :: others)

/-! ## Renaming -/

/-- What the names of items stand for, given the ids that come next. -/
def symbolsFrom (nextGlobal : GlobalId) (nextFunc : FuncId) : List Item → List Symbol
  | [] => []
  | .global _ :: items => .global nextGlobal :: symbolsFrom (nextGlobal + 1) nextFunc items
  | _ :: items => .func nextFunc :: symbolsFrom nextGlobal (nextFunc + 1) items

/-- The meaning of all names inside a body. -/
structure Meaning where
  scope : Scope
  symbols : NameTable
  /-- What the symbols stand for, in the order of their definitions. -/
  order : List Symbol

namespace Meaning

variable (g : Meaning)

/-- The local value of a name: its place among the definitions of the body. -/
def value (m : Mention) : LocalId := g.scope.values.rank m.name

/-- The block of a label: its place among the blocks of the body. -/
def label (m : Mention) : BlockId := g.scope.labels.rank m.name

/-- The global or the function of a name. -/
def symbol (m : Mention) : Symbol := g.order.getD (g.symbols.rank m.name) default

/-- An operand with ids in the place of names. -/
def operand (v : NamedValue) : Value := v.map g.value g.symbol

/-- An instruction with ids in the place of names. -/
def instr (i : NamedInstr) : Instr where
  result := i.result.map fun r => g.value r.name
  operation := (i.operation.mapOperands fun _ => g.operand).mapTargets fun _ => g.label

/-- A block with ids in the place of names; only its label stays. -/
def block (b : NamedBlock) : Block where
  id := g.label b.name
  label := b.label.map (·.name)
  instrs := b.instrs.map g.instr
  terminator := (b.terminator.mapOperands fun _ => g.operand).mapTargets fun _ => g.label

end Meaning

/-- Whether a name is a number, which a value without a name is called by. -/
def isNumber (name : String) : Bool := name.toList.all Char.isDigit

/-- The values that a body defines, in the order of the text. -/
def definedValues (h : Head) (blocks : List NamedBlock) : List NamedResult :=
  h.named ++ blocks.flatMap fun b => b.instrs.filterMap (·.result)

/-- The local values of a body. Names that are numbers are not kept. -/
def bodyLocals (h : Head) (blocks : List NamedBlock) : Table Local :=
  .ofValues <| (definedValues h blocks).mapIdx fun id d =>
    { id, type := d.type, name := if isNumber d.name.name then none else some d.name.name }

/-- The function of a definition. -/
def definedFunc (g : Meaning) (id : FuncId) (h : Head) (blocks : List NamedBlock) : Func where
  id := id
  name := h.name.name
  ret := h.ret
  params := h.named.map fun p => g.value p.name
  variadic := h.variadic
  locals := bodyLocals h blocks
  blocks := .ofValues (blocks.map g.block)

/-- The function of a declaration: its parameters are local values without names. -/
def declaredFunc (id : FuncId) (h : Head) : Func where
  id := id
  name := h.name.name
  ret := h.ret
  params := List.range h.params.length
  variadic := h.variadic
  locals := .ofValues <| h.params.mapIdx fun id p => { id, type := p.type, name := none }
  blocks := .empty

/-- Adds an item to a module under the next id of its kind. -/
def addItem (symbols : NameTable) (order : List Symbol) (m : Module) : Item × Scope → Module
  | (.global v, scope) =>
    { m with globals := m.globals.pushWith fun id =>
        { id
          name := v.name.name
          type := v.type
          init := v.init.map (Meaning.operand ⟨scope, symbols, order⟩)
          external := v.init.isNone } }
  | (.declaration h, _) => { m with funcs := m.funcs.pushWith (declaredFunc · h) }
  | (.definition h blocks, scope) =>
    { m with funcs := m.funcs.pushWith (definedFunc ⟨scope, symbols, order⟩ · h blocks) }

/-- The module of a program, or the first name that is defined twice or not at all. -/
def resolve (items : List Item) : Except NameError Module := do
  let (symbols, scopes) ← scopes {} items
  let _ ← symbols.finish .symbol
  return (items.zip scopes).foldl (addItem symbols (symbolsFrom 0 0 items)) .empty

end SSALint.Source
