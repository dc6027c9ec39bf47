/-
The program of a module: the tree of names that its text writes (`Module.items`). A program that was read has
places besides; without them it is `bare`.
-/
import SSALint.Source.Tree
import SSALint.IR.Printer
import SSALint.Proofs.Source.ReadsToken

namespace SSALint

namespace Source

/-! ## Programs without places -/

/-- A name that stands nowhere. -/
def Mention.of (name : String) : Mention := ⟨name, []⟩

/-- The name alone. -/
def Mention.bare (m : Mention) : Mention := .of m.name

/-- A value whose names stand nowhere. -/
def bareValue (v : NamedValue) : NamedValue := v.map .bare .bare

/-- An operation whose names stand nowhere. -/
def bareOperation (o : Operation Mention Mention Mention) : Operation Mention Mention Mention :=
  (o.mapOperands fun _ => bareValue).mapTargets fun _ => .bare

/-- A terminator whose names stand nowhere. -/
def bareTerminator (t : Terminator Mention Mention Mention) : Terminator Mention Mention Mention :=
  (t.mapOperands fun _ => bareValue).mapTargets fun _ => .bare

/-- An instruction whose names stand nowhere. -/
def NamedInstr.bare (i : NamedInstr) : NamedInstr where
  result := i.result.map fun r => ⟨r.name.bare, r.type⟩
  operation := bareOperation i.operation

/-- A block whose names stand nowhere. -/
def NamedBlock.bare (b : NamedBlock) : NamedBlock where
  label := b.label.map .bare
  instrs := b.instrs.map .bare
  terminator := bareTerminator b.terminator

/-- A parameter whose name stands nowhere. -/
def NamedParam.bare (p : NamedParam) : NamedParam := ⟨p.type, p.name.map .bare⟩

/-- The head of a function whose names stand nowhere. -/
def Head.bare (h : Head) : Head := ⟨h.ret, h.name.bare, h.params.map .bare, h.variadic⟩

/-- A global whose names stand nowhere. -/
def NamedGlobal.bare (v : NamedGlobal) : NamedGlobal := ⟨v.name.bare, v.type, v.init.map bareValue⟩

/-- An item whose names stand nowhere: what it says, but not where. -/
def Item.bare : Item → Item
  | .global v => .global v.bare
  | .declaration h => .declaration h.bare
  | .definition h blocks => .definition h.bare (blocks.map .bare)

end Source

open Source

/-! ## Names of a module -/

namespace Names

variable (n : Names)

/-- The name of a local value without its sigil. -/
def localText (x : LocalId) : String := (n.func?.bind fun f => f.localName? x).getD (toString x)

/-- The name of a symbol without its sigil. -/
def symbolText : Symbol → String
  | .global g => ((n.module.globals.get? g).map (·.name)).getD ("g" ++ toString g)
  | .func f => ((n.module.funcs.get? f).map (·.name)).getD ("f" ++ toString f)

theorem label_eq_getD (b : BlockId) :
    n.label b = (n.func?.bind fun f => (f.blocks.get? b).bind (·.label)).getD ("bb" ++ toString b) := by
  unfold label
  split <;> simp [*]

theorem toList_localName (x : LocalId) : (n.localName x).toList = '%' :: (n.localText x).toList := by
  unfold localName localText
  split <;> simp [*]

theorem toList_symbol (s : Symbol) : (n.symbol s).toList = '@' :: (n.symbolText s).toList := by
  unfold symbol symbolText
  cases s with
  | global g => cases h : n.module.globals.get? g <;> simp [h]
  | func f => cases h : n.module.funcs.get? f <;> simp [h]

/-- Every name can be written. -/
structure Spelled (n : Names) : Prop where
  localText : ∀ x, IsWord (n.localText x)
  symbolText : ∀ s, IsWord (n.symbolText s)
  label : ∀ b, IsWord (n.label b)

/-! ## The program of a module -/

/-- What the text of a value writes. -/
def namedValue (v : Value) : NamedValue := v.map (fun x => .of (n.localText x)) fun s => .of (n.symbolText s)

/-- What the text of a block as a target writes. -/
def namedLabel (b : BlockId) : Mention := .of (n.label b)

/-- What the text of an operation writes. -/
def namedOperation (o : Operation LocalId Symbol BlockId) : Operation Mention Mention Mention :=
  (o.mapOperands fun _ => n.namedValue).mapTargets fun _ => n.namedLabel

/-- What the text of a terminator writes. -/
def namedTerminator (t : Terminator LocalId Symbol BlockId) : Terminator Mention Mention Mention :=
  (t.mapOperands fun _ => n.namedValue).mapTargets fun _ => n.namedLabel

/-- What the text of an instruction writes; the type of the result is that of its local value. -/
def namedInstr (i : Instr) : NamedInstr where
  result := i.result.map fun x => ⟨.of (n.localText x), n.typeOf (.var x)⟩
  operation := n.namedOperation i.operation

/-- What the text of a block writes; it always has a label. -/
def namedBlock (b : Block) : NamedBlock where
  label := some (n.namedLabel b.id)
  instrs := b.instrs.map n.namedInstr
  terminator := n.namedTerminator b.terminator

/-- What the text of a global writes. -/
def namedGlobal (v : Global) : NamedGlobal := ⟨.of v.name, v.type, v.init.map n.namedValue⟩

end Names

/-- The head of a function; a declaration has no names for its parameters. -/
def Func.head (m : Module) (f : Func) : Head where
  ret := f.ret
  name := .of f.name
  params := f.params.map fun x =>
    ⟨f.typeOf (.var x), if f.isDeclaration then none else some (.of (Names.localText ⟨m, f⟩ x))⟩
  variadic := f.variadic

/-- What the text of a function writes: a declaration, or a definition with its blocks. -/
def Func.item (m : Module) (f : Func) : Item :=
  if f.isDeclaration then .declaration (f.head m)
  else .definition (f.head m) (f.blocks.values.map (Names.namedBlock ⟨m, f⟩))

/-- The program of a module: its globals, then its functions. -/
def Module.items (m : Module) : List Item :=
  m.globals.values.map (fun v => .global (Names.namedGlobal ⟨m, none⟩ v)) ++ m.funcs.values.map (Func.item m)

end SSALint
