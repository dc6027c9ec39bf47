/-
Relocated programs. Behind other definitions a program has the same globals and functions, with ids that are greater
by the number of those before (`globalsFrom_shift`, `funcsFrom_shift`). With nothing before it this says that a program
resolves alike wherever its names stand (`resolve_of_bare`).
-/
import SSALint.Proofs.Source.Sense

namespace SSALint

/-! ## Shifted ids -/

/-- A symbol behind further globals and functions. -/
def Symbol.shift (globals funcs : Nat) : Symbol → Symbol
  | .global id => .global (globals + id)
  | .func id => .func (funcs + id)

/-- A value behind further globals and functions; only symbols change. -/
def Operand.shift (globals funcs : Nat) (v : Value) : Value := v.map id (Symbol.shift globals funcs)

/-- A global behind further ones, its initial value shifted with it. -/
def Global.shift (globals funcs : Nat) (v : Global) : Global :=
  { v with id := globals + v.id, init := v.init.map (Operand.shift globals funcs) }

/-- A function behind further ones, its operands shifted with it. -/
def Func.shift (globals funcs : Nat) (f : Func) : Func :=
  { f.mapOperands (Operand.shift globals funcs) with id := funcs + f.id }

theorem Symbol.shift_zero (s : Symbol) : s.shift 0 0 = s := by
  cases s <;> simp [Symbol.shift]

theorem Operand.shift_zero (v : Value) : v.shift 0 0 = v := by
  cases v with
  | symbol s => exact congrArg Operand.symbol s.shift_zero
  | _ => rfl

theorem Global.shift_zero (v : Global) : v.shift 0 0 = v := by
  have hself : (Operand.shift 0 0 : Value → Value) = fun w => w := funext Operand.shift_zero
  unfold Global.shift
  rw [hself, Option.map_id_fun', Nat.zero_add]
  rfl

theorem Func.shift_zero (f : Func) : f.shift 0 0 = f := by
  have hself : (Operand.shift 0 0 : Value → Value) = fun v => v := funext Operand.shift_zero
  unfold Func.shift
  rw [hself, Func.mapOperands_self, Nat.zero_add]

section

variable {L S B L' S' B' : Type}

theorem Operation.mapTargets_self (o : Operation L S B) : (o.mapTargets fun _ b => b) = o := by
  cases o <;> simp [mapTargets, mapIdx_const]

theorem Terminator.mapTargets_self (t : Terminator L S B) : (t.mapTargets fun _ b => b) = t := by
  cases t <;> simp [mapTargets, mapIdx_const]

/-- Only the operands and the targets that are there matter to a renaming. -/
theorem Operation.rename_congr [Inhabited B'] {f f' : Operand L S → Operand L' S'} {g g' : B → B'}
    {o : Operation L S B} (hf : ∀ v ∈ o.operands, f v = f' v) (hg : ∀ b ∈ o.targets, g b = g' b) :
    ((o.mapOperands fun _ => f).mapTargets fun _ => g) = (o.mapOperands fun _ => f').mapTargets fun _ => g' := by
  refine Operation.eq_of_skeleton_eq ?_ ?_ ?_
  · rw [Operation.skeleton_rename, Operation.skeleton_rename]
  · simp only [Operation.operands_mapTargets, Operation.operands_mapOperands, mapIdx_const]
    exact List.map_congr_left hf
  · simp only [Operation.targets_mapTargets, Operation.targets_mapOperands, mapIdx_const]
    exact List.map_congr_left hg

theorem Terminator.rename_congr [Inhabited B'] {f f' : Operand L S → Operand L' S'} {g g' : B → B'}
    {t : Terminator L S B} (hf : ∀ v ∈ t.operands, f v = f' v) (hg : ∀ b ∈ t.targets, g b = g' b) :
    ((t.mapOperands fun _ => f).mapTargets fun _ => g) = (t.mapOperands fun _ => f').mapTargets fun _ => g' := by
  refine Terminator.eq_of_skeleton_eq ?_ ?_ ?_
  · rw [Terminator.skeleton_rename, Terminator.skeleton_rename]
  · simp only [Terminator.operands_mapTargets, Terminator.operands_mapOperands, mapIdx_const]
    exact List.map_congr_left hf
  · simp only [Terminator.targets_mapTargets, Terminator.targets_mapOperands, mapIdx_const]
    exact List.map_congr_left hg

end

namespace Source

/-! ## Shifted meanings -/

/-- What the names in a row of operands mean behind further globals and functions. -/
structure Meaning.Shifts (globals funcs : Nat) (g g' : Meaning) (operands : List NamedValue) : Prop where
  value : g'.value = g.value
  label : g'.label = g.label
  symbol : ∀ m, .symbol m ∈ operands → g'.symbol m = (g.symbol m).shift globals funcs

namespace Meaning.Shifts

variable {globals funcs : Nat} {g g' : Meaning} {operands : List NamedValue}
  (h : g.Shifts globals funcs g' operands)

include h

theorem operand {v : NamedValue} (hv : v ∈ operands) : g'.operand v = (g.operand v).shift globals funcs := by
  cases v with
  | var m => exact congrArg Operand.var (congrFun h.value m)
  | symbol m => exact congrArg Operand.symbol (h.symbol m hv)
  | const c => rfl

theorem instr {i : NamedInstr} (hi : ∀ v ∈ i.operation.operands, v ∈ operands) :
    g'.instr i = Block.substInstr (Operand.shift globals funcs) (g.instr i) := by
  have hrename := i.operation.rename_rename g.operand (Operand.shift globals funcs) g.label fun b => b
  rw [Operation.mapTargets_self] at hrename
  unfold Meaning.instr Block.substInstr
  rw [hrename, h.value]
  congr 1
  exact Operation.rename_congr (fun v hv => h.operand (hi v hv)) fun b _ => congrFun h.label b

theorem block {b : NamedBlock} (hb : ∀ v ∈ b.operands, v ∈ operands) :
    g'.block b = (g.block b).mapOperands fun _ => Operand.shift globals funcs := by
  have hrename := b.terminator.rename_rename g.operand (Operand.shift globals funcs) g.label fun b => b
  rw [Terminator.mapTargets_self] at hrename
  have hterminator : ∀ v ∈ b.terminator.operands, v ∈ operands := fun v hv => hb v (List.mem_append_right _ hv)
  have hinstrs : b.instrs.map g'.instr =
      (b.instrs.map g.instr).map (Block.substInstr (Operand.shift globals funcs)) := by
    rw [List.map_map]
    refine List.map_congr_left fun i hi => h.instr fun v hv => hb v (List.mem_append_left _ ?_)
    exact List.mem_flatMap.2 ⟨i, hi, hv⟩
  rw [Block.mapOperands_const]
  unfold Meaning.block
  rw [hrename, hinstrs, h.label]
  congr 1
  exact Terminator.rename_congr (fun v hv => h.operand (hterminator v hv)) fun b _ => rfl

theorem definedFunc {head : Head} {blocks : List NamedBlock} (hblocks : ∀ b ∈ blocks, ∀ v ∈ b.operands, v ∈ operands)
    (id : FuncId) :
    Source.definedFunc g' (funcs + id) head blocks = (Source.definedFunc g id head blocks).shift globals funcs := by
  have hmap : blocks.map g'.block =
      (blocks.map g.block).map (Block.mapOperands fun _ => Operand.shift globals funcs) := by
    rw [List.map_map]
    exact List.map_congr_left fun b hb => h.block (hblocks b hb)
  unfold Source.definedFunc Func.shift Func.mapOperands
  rw [hmap, h.value]
  simp only [Table.ofValues, Table.map, List.map_map]
  rfl

theorem resolvedGlobal {v : NamedGlobal} (hv : ∀ w ∈ v.init, w ∈ operands) (id : GlobalId) :
    Source.resolvedGlobal g' (globals + id) v = (Source.resolvedGlobal g id v).shift globals funcs := by
  have hinit : v.init.map g'.operand = (v.init.map g.operand).map (Operand.shift globals funcs) := by
    rw [Option.map_map]
    exact Option.map_congr fun w hw => h.operand (hv w hw)
  unfold Source.resolvedGlobal Global.shift
  rw [hinit]

end Meaning.Shifts

theorem declaredFunc_shift (globals funcs : Nat) (id : FuncId) (h : Head) :
    declaredFunc (funcs + id) h = (declaredFunc id h).shift globals funcs := rfl

/-! ## Shifted programs -/

section

variable {symbols symbols' : NameTable} {order order' : List Symbol} {globals funcs : Nat}

/-- The same item, in scopes in which its names mean the same behind further globals and functions. -/
def Shifts (symbols : NameTable) (order : List Symbol) (symbols' : NameTable) (order' : List Symbol)
    (globals funcs : Nat) (x x' : Item × Scope) : Prop :=
  x.1 = x'.1 ∧ Meaning.Shifts globals funcs ⟨x.2, symbols, order⟩ ⟨x'.2, symbols', order'⟩ x.1.operands

theorem globalsFrom_shift {xs xs' : List (Item × Scope)}
    (h : List.Forall₂ (Shifts symbols order symbols' order' globals funcs) xs xs') (n : GlobalId) :
    globalsFrom symbols' order' (globals + n) xs' =
      (globalsFrom symbols order n xs).map (Global.shift globals funcs) := by
  induction h generalizing n with
  | nil => rfl
  | @cons x x' xs xs' hx _ ih =>
    obtain ⟨item, s⟩ := x
    obtain ⟨item', s'⟩ := x'
    obtain ⟨rfl, hx⟩ := hx
    cases item with
    | global v => exact congrArg₂ List.cons (hx.resolvedGlobal (fun w hw => Option.mem_toList.2 hw) n) (ih (n + 1))
    | declaration h => exact ih n
    | definition h blocks => exact ih n

theorem funcsFrom_shift {xs xs' : List (Item × Scope)}
    (h : List.Forall₂ (Shifts symbols order symbols' order' globals funcs) xs xs') (k : FuncId) :
    funcsFrom symbols' order' (funcs + k) xs' = (funcsFrom symbols order k xs).map (Func.shift globals funcs) := by
  induction h generalizing k with
  | nil => rfl
  | @cons x x' xs xs' hx _ ih =>
    obtain ⟨item, s⟩ := x
    obtain ⟨item', s'⟩ := x'
    obtain ⟨rfl, hx⟩ := hx
    cases item with
    | global v => exact ih k
    | declaration h => exact congrArg₂ List.cons (declaredFunc_shift globals funcs k h) (ih (k + 1))
    | definition h blocks =>
      refine congrArg₂ List.cons (hx.definedFunc (fun b hb v hv => ?_) k) (ih (k + 1))
      exact List.mem_flatMap.2 ⟨b, hb, hv⟩

end

/-! ## Places -/

theorem rank_eq_of_defined {t t' : NameTable} (hw : t.Wf) (hw' : t'.Wf) (h : t.defined = t'.defined) :
    t.rank = t'.rank := by
  funext name
  rw [NameTable.rank_eq_idxOf hw, NameTable.rank_eq_idxOf hw', h]

/-- The scopes of an item number its names alike, wherever they stand. -/
theorem ranks_of_bare {item item' : Item} {s s' : Scope} (hbare : item.bare = item'.bare) (hs : item.scope = .ok s)
    (hs' : item'.scope = .ok s') : s.values.rank = s'.values.rank ∧ s.labels.rank = s'.labels.rank := by
  cases item with
  | global v =>
    cases item' with
    | global v' =>
      cases hs
      cases hs'
      exact ⟨rfl, rfl⟩
    | _ => cases hbare
  | declaration h =>
    cases item' with
    | declaration h' =>
      cases hs
      cases hs'
      exact ⟨rfl, rfl⟩
    | _ => cases hbare
  | definition h blocks =>
    cases item' with
    | definition h' blocks' =>
      obtain ⟨hhead, hblocks⟩ := Item.definition.inj hbare
      -- The order of the definitions decides the ranks, and it has no places in it.
      have hb := Scope.binds_of_ofBody hs
      have hb' := Scope.binds_of_ofBody hs'
      have hvalues : (definedValues h blocks).map (·.name.name) = (definedValues h' blocks').map (·.name.name) := by
        rw [← valueNames_bare, ← valueNames_bare h', hhead, hblocks]
      have hlabels : blocks.map (·.name.name) = blocks'.map (·.name.name) := by
        rw [← labelNames_bare, ← labelNames_bare blocks', hblocks]
      exact ⟨rank_eq_of_defined hb.wf.values hb'.wf.values (hb.values.trans (hvalues.trans hb'.values.symm)),
        rank_eq_of_defined hb.wf.labels hb'.wf.labels (hb.labels.trans (hlabels.trans hb'.labels.symm))⟩
    | _ => cases hbare

theorem shifts_zero {symbols symbols' : NameTable} (order : List Symbol) (hrank : symbols.rank = symbols'.rank)
    {items items' : List Item} {ss ss' : List Scope} (hbare : items.map Item.bare = items'.map Item.bare)
    (hscopes : List.Forall₂ (fun item s => item.scope = .ok s) items ss)
    (hscopes' : List.Forall₂ (fun item s => item.scope = .ok s) items' ss') :
    List.Forall₂ (Shifts symbols order symbols' order 0 0) ((items.map .bare).zip ss) ((items'.map .bare).zip ss') := by
  induction hscopes generalizing items' ss' with
  | nil =>
    obtain rfl := List.map_eq_nil_iff.1 hbare.symm
    exact .nil
  | @cons item s items ss hs _ ih =>
    cases hscopes' with
    | nil => cases hbare
    | @cons item' s' items' ss' hs' hscopes' =>
      obtain ⟨hitem, hitems⟩ := List.cons.inj hbare
      obtain ⟨hvalues, hlabels⟩ := ranks_of_bare hitem hs hs'
      refine .cons ⟨hitem, funext fun m => ?_, funext fun m => ?_, fun m _ => ?_⟩ (ih hitems hscopes')
      · exact (congrFun hvalues m.name).symm
      · exact (congrFun hlabels m.name).symm
      · rw [Symbol.shift_zero]
        exact congrArg (fun k => order.getD k default) (congrFun hrank m.name).symm

theorem closedBody_bare {h : Head} {blocks : List NamedBlock} (hc : ClosedBody h blocks) :
    ClosedBody h.bare (blocks.map .bare) := by
  have hvalues := valueNames_bare h blocks
  have hlabels := labelNames_bare blocks
  refine ⟨hvalues ▸ hc.values, hlabels ▸ hc.labels, fun c hc' m hm => ?_, fun c hc' m hm => ?_⟩
  · obtain ⟨b, hb, rfl⟩ := List.mem_map.1 hc'
    rw [operands_bare] at hm
    obtain ⟨v, hv, hbare⟩ := List.mem_map.1 hm
    cases v with
    | var x =>
      cases hbare
      exact hvalues ▸ hc.vars b hb x hv
    | _ => cases hbare
  · obtain ⟨b, hb, rfl⟩ := List.mem_map.1 hc'
    rw [targets_bare] at hm
    obtain ⟨x, hx, rfl⟩ := List.mem_map.1 hm
    exact hlabels ▸ hc.targets b hb x hx

theorem Closed.bare {items : List Item} (hc : Closed items) : Closed (items.map .bare) := by
  refine ⟨(names_bare items).symm ▸ hc.names, fun item hbare m hm => ?_, fun h blocks hbare => ?_⟩
  · obtain ⟨item, hitem, rfl⟩ := List.mem_map.1 hbare
    rw [Item.operands_bare] at hm
    obtain ⟨v, hv, hsymbol⟩ := List.mem_map.1 hm
    cases v with
    | symbol x =>
      cases hsymbol
      exact (names_bare items).symm ▸ hc.symbols item hitem x hv
    | _ => cases hsymbol
  · obtain ⟨item, hitem, hdefinition⟩ := List.mem_map.1 hbare
    cases item with
    | definition h blocks =>
      cases hdefinition
      exact closedBody_bare (hc.bodies h blocks hitem)
    | _ => cases hdefinition

/-- Programs that differ only in the places of their names resolve alike. -/
theorem resolve_of_bare {items items' : List Item} {m : Module} (hbare : items.map Item.bare = items'.map Item.bare)
    (h : resolve items = .ok m) : resolve items' = .ok m := by
  have hclosed : Closed items := exists_resolve_iff.1 ⟨m, h⟩
  obtain ⟨m', h'⟩ := exists_resolve_iff.2 (closed_of_bare (hbare ▸ hclosed.bare))
  obtain ⟨symbols, ss, hr⟩ := resolved_of_resolve h
  obtain ⟨symbols', ss', hr'⟩ := resolved_of_resolve h'
  have hnames : items.map (·.name.name) = items'.map (·.name.name) := by
    rw [← names_bare, ← names_bare items', hbare]
  have hrank := rank_eq_of_defined hr.wf hr'.wf (hr.defined.trans (hnames.trans hr'.defined.symm))
  have horder : symbolsFrom 0 0 items = symbolsFrom 0 0 items' := by
    rw [← symbolsFrom_bare, ← symbolsFrom_bare items', hbare]
  have hshifts := shifts_zero (symbolsFrom 0 0 items) hrank hbare hr.scopes hr'.scopes
  have hglobals : m'.globals = m.globals := by
    have hsame := globalsFrom_shift hshifts 0
    rw [globalsFrom_bare, globalsFrom_bare, funext Global.shift_zero, List.map_id'] at hsame
    rw [hr'.globals, hr.globals, ← horder, ← hsame]
  have hfuncs : m'.funcs = m.funcs := by
    have hsame := funcsFrom_shift hshifts 0
    rw [funcsFrom_bare, funcsFrom_bare, funext Func.shift_zero, List.map_id'] at hsame
    rw [hr'.funcs, hr.funcs, ← horder, ← hsame]
  rw [h']
  obtain ⟨gs, fs⟩ := m
  obtain ⟨gs', fs'⟩ := m'
  exact congrArg₂ (fun gs fs => Except.ok (Module.mk gs fs)) hglobals hfuncs

end Source
end SSALint
