/-
Programs and modules in one order. The globals and the functions of a resolved program are those that its
items define, and each function has the parameters, blocks, instructions and local values of its item, all
in the order of the text (`Resolved.follows`).
-/
import SSALint.Source.Read
import SSALint.Proofs.Source.WellFormed

namespace SSALint

/-- Whether an instruction has a result, and its opcode. -/
def Instr.shape (i : Instr) : Bool × String := (i.result.isSome, i.operation.opcode)

namespace Source

/-- Whether an instruction has a result, and its opcode. -/
def NamedInstr.shape (i : NamedInstr) : Bool × String := (i.result.isSome, i.operation.opcode)

/-- The name of the global that an item defines. -/
def Item.globalName? : Item → Option String
  | .global v => some v.name.name
  | _ => none

/-- A function has the parameters, the blocks, the instructions and the local values that an item
defines, in its order. -/
def Item.Yields : Item → Func → Prop
  | .global _, _ => False
  | .declaration h, f =>
    f.name = h.name.name ∧ f.params.length = h.params.length ∧ f.isDeclaration = true ∧
      f.locals.values.map (·.name) = h.params.map fun _ => none
  | .definition h blocks, f =>
    f.name = h.name.name ∧ f.params.length = h.params.length ∧
      f.blocks.values.map (·.label) = blocks.map (fun b => b.label.map (·.name)) ∧
      f.blocks.values.map (·.instrs.map Instr.shape) = blocks.map (·.instrs.map NamedInstr.shape) ∧
      f.locals.values.map (·.name) = (definedValues h blocks).map (·.localName?)

theorem yields_declaredFunc (id : FuncId) (h : Head) : (Item.declaration h).Yields (declaredFunc id h) := by
  refine ⟨rfl, List.length_range, rfl, ?_⟩
  apply List.ext_getElem <;> simp [declaredFunc]

theorem shape_instr (g : Meaning) (i : NamedInstr) : (g.instr i).shape = i.shape := by
  have hopcode : ∀ o : Operation Mention Mention Mention,
      ((o.mapOperands fun _ => g.operand).mapTargets fun _ => g.label).opcode = o.opcode := by
    intro o
    cases o <;> rfl
  show (Option.isSome (i.result.map _), _) = (_, _)
  rw [Option.isSome_map, ← hopcode]
  rfl

theorem yields_definedFunc (g : Meaning) (id : FuncId) (h : Head) (blocks : List NamedBlock) :
    (Item.definition h blocks).Yields (definedFunc g id h blocks) := by
  refine ⟨rfl, ?_, labels_map_block g blocks, ?_, names_bodyLocals h blocks⟩
  · simp [definedFunc, Head.named]
  · show (Table.ofValues (blocks.map g.block)).values.map _ = _
    rw [Table.values_ofValues, List.map_map]
    refine List.map_congr_left fun b _ => ?_
    show (b.instrs.map g.instr).map Instr.shape = _
    rw [List.map_map]
    exact List.map_congr_left fun i _ => shape_instr g i

section

variable (symbols : NameTable) (order : List Symbol)

theorem names_globalsFrom (items : List (Item × Scope)) (n : GlobalId) :
    (globalsFrom symbols order n items).map (·.name) = (items.map (·.1)).filterMap Item.globalName? := by
  induction items generalizing n with
  | nil => rfl
  | cons item items ih =>
    obtain ⟨item, s⟩ := item
    cases item with
    | global v => exact congrArg (v.name.name :: ·) (ih (n + 1))
    | declaration h => exact ih n
    | definition h blocks => exact ih n

/-- What holds of the function of each item holds of the functions in their order. -/
theorem forall₂_funcsFrom {R : Item → Func → Prop} (items : List (Item × Scope)) (k : FuncId)
    (hdeclared : ∀ id h, R (.declaration h) (declaredFunc id h))
    (hdefined : ∀ id h blocks s, (.definition h blocks, s) ∈ items →
      R (.definition h blocks) (definedFunc ⟨s, symbols, order⟩ id h blocks)) :
    List.Forall₂ R ((items.map (·.1)).filter fun item => item.globalName?.isNone)
      (funcsFrom symbols order k items) := by
  induction items generalizing k with
  | nil => exact .nil
  | cons item items ih =>
    have htail := fun k => ih k fun id h blocks s hmem => hdefined id h blocks s (List.mem_cons_of_mem _ hmem)
    obtain ⟨item, s⟩ := item
    cases item with
    | global v => exact htail k
    | declaration h => exact .cons (hdeclared k h) (htail (k + 1))
    | definition h blocks => exact .cons (hdefined k h blocks s List.mem_cons_self) (htail (k + 1))

end

/-- The globals and the functions of a module are those that items define, in their order. -/
structure Follows (items : List Item) (m : Module) : Prop where
  globals : m.globals.values.map (·.name) = items.filterMap Item.globalName?
  funcs : List.Forall₂ Item.Yields (items.filter fun item => item.globalName?.isNone) m.funcs.values

theorem Resolved.follows {items : List Item} {symbols : NameTable} {ss : List Scope} {m : Module}
    (hr : Resolved items symbols ss m) : Follows items m where
  globals := by
    have hnames := names_globalsFrom symbols (symbolsFrom 0 0 items) (items.zip ss) 0
    rw [hr.map_fst_zip] at hnames
    rw [hr.globals, Table.values_ofValues, hnames]
  funcs := by
    have hyields := forall₂_funcsFrom symbols (symbolsFrom 0 0 items) (items.zip ss) 0 yields_declaredFunc
      fun id h blocks s _ => yields_definedFunc ⟨s, symbols, symbolsFrom 0 0 items⟩ id h blocks
    rw [hr.map_fst_zip] at hyields
    rw [hr.funcs, Table.values_ofValues]
    exact hyields

/-- A text is read if it is a program to its end and the names of the program resolve. -/
theorem read_eq_ok_iff {text : List Char} {m : Module} :
    read text = .ok m ↔ ∃ items r, program text = .ok (items, r) ∧ resolve items = .ok m := by
  unfold read
  cases program text with
  | error f => simp
  | ok x =>
    obtain ⟨items, r⟩ := x
    cases hm : resolve items with
    | error e => simp [hm]
    | ok m' => simp [hm]

end Source
end SSALint
