/-
Scopes of bodies. When the scope of a body is made, its values are the parameters and the results in the
order of the text, its labels are the names of the blocks, none of them stands twice, and every name that
an instruction or a terminator uses is among them (`binds_of_ofBody`).
-/
import SSALint.Source.Resolve
import SSALint.Proofs.Outcome
import SSALint.Proofs.Source.NameTable

namespace SSALint.Source

namespace NamedBlock

/-- The operands of a block in the order of the text. -/
def operands (b : NamedBlock) : List NamedValue :=
  b.instrs.flatMap (·.operation.operands) ++ b.terminator.operands

/-- The targets of a block in the order of the text. -/
def targets (b : NamedBlock) : List Mention :=
  b.instrs.flatMap (·.operation.targets) ++ b.terminator.targets

/-- The results of a block in the order of the text. -/
def results (b : NamedBlock) : List NamedResult := b.instrs.filterMap (·.result)

theorem names_results (b : NamedBlock) :
    b.instrs.flatMap (fun i => i.result.toList.map (·.name.name)) = b.results.map (·.name.name) := by
  rw [results, ← List.map_flatMap, List.filterMap_eq_flatMap_toList]

end NamedBlock

/-- The names of the local values among operands. -/
def varNames (operands : List NamedValue) : List String :=
  (operands.filterMap Operand.var?).map (·.name)

theorem mem_varNames {operands : List NamedValue} {name : String} :
    name ∈ varNames operands ↔ ∃ m, .var m ∈ operands ∧ m.name = name := by
  have hvar (v : NamedValue) (m : Mention) : v.var? = some m ↔ v = .var m := by cases v <;> simp [Operand.var?]
  simp [varNames, hvar]

theorem varNames_append (xs ys : List NamedValue) : varNames (xs ++ ys) = varNames xs ++ varNames ys := by
  simp [varNames]

theorem varNames_flatMap {α : Type} (xs : List α) (f : α → List NamedValue) :
    varNames (xs.flatMap f) = xs.flatMap fun x => varNames (f x) := by
  simp [varNames, List.filterMap_flatMap, List.map_flatMap]

theorem flatMap_nil {α β : Type} (xs : List α) : xs.flatMap (fun _ => ([] : List β)) = [] := by
  rw [List.flatMap_eq_nil_iff]
  exact fun _ _ => rfl

namespace Scope

/-! ## Growth of scopes -/

/-- The tables of a scope are consistent. -/
structure Wf (s : Scope) : Prop where
  values : s.values.Wf
  labels : s.labels.Wf

/-- A scope after some text that uses values, has results, uses labels, and begins blocks. -/
structure Grown (s : Scope) (used results targets heads : List String) (s' : Scope) : Prop where
  values : s.values.Grown used results s'.values
  labels : s.labels.Grown targets heads s'.labels

theorem Grown.wf {s s' : Scope} {us rs ts hs : List String} (h : s.Grown us rs ts hs s') : s'.Wf :=
  ⟨h.values.wf, h.labels.wf⟩

theorem Grown.refl {s : Scope} (hw : s.Wf) : s.Grown [] [] [] [] s :=
  ⟨.refl hw.values, .refl hw.labels⟩

theorem Grown.trans {s s' s'' : Scope} {us rs ts hs us' rs' ts' hs' : List String}
    (h : s.Grown us rs ts hs s') (h' : s'.Grown us' rs' ts' hs' s'') :
    s.Grown (us ++ us') (rs ++ rs') (ts ++ ts') (hs ++ hs') s'' :=
  ⟨h.values.trans h'.values, h.labels.trans h'.labels⟩

theorem grown_mention {s : Scope} (hw : s.Wf) (operands : List NamedValue) (targets : List Mention) :
    s.Grown (varNames operands) [] (targets.map (·.name)) [] (s.mention operands targets) :=
  ⟨NameTable.grown_mentions hw.values _, NameTable.grown_mentions hw.labels _⟩

theorem grown_defineValue {s s' : Scope} {m : Mention} (hw : s.Wf) (h : s.defineValue m = .ok s') :
    s.Grown [] [m.name] [] [] s' := by
  unfold defineValue at h
  obtain ⟨⟨values, id⟩, hdef, hs⟩ := Outcome.bind_eq_ok_iff.1 h
  cases hs
  exact ⟨NameTable.grown_define hw.values hdef, .refl hw.labels⟩

theorem grown_defineLabel {s s' : Scope} {m : Mention} (hw : s.Wf) (h : s.defineLabel m = .ok s') :
    s.Grown [] [] [] [m.name] s' := by
  unfold defineLabel at h
  obtain ⟨⟨labels, id⟩, hdef, hs⟩ := Outcome.bind_eq_ok_iff.1 h
  cases hs
  exact ⟨.refl hw.values, NameTable.grown_define hw.labels hdef⟩

/-- A row of steps grows a scope by what each of them does. -/
theorem grown_foldlM {α : Type} {step : Scope → α → Except NameError Scope}
    {us rs ts hs : α → List String} {xs : List α} {s s' : Scope} (hw : s.Wf)
    (h : xs.foldlM step s = .ok s')
    (hstep : ∀ s a s', s.Wf → step s a = .ok s' → s.Grown (us a) (rs a) (ts a) (hs a) s') :
    s.Grown (xs.flatMap us) (xs.flatMap rs) (xs.flatMap ts) (xs.flatMap hs) s' := by
  induction xs generalizing s with
  | nil =>
    cases Outcome.foldlM_nil_eq_ok_iff.1 h
    exact .refl hw
  | cons x xs ih =>
    obtain ⟨mid, hx, hxs⟩ := Outcome.foldlM_cons_eq_ok_iff.1 h
    have hmid := hstep s x mid hw hx
    exact hmid.trans (ih hmid.wf hxs)

theorem grown_addInstr {s s' : Scope} {i : NamedInstr} (hw : s.Wf) (h : s.addInstr i = .ok s') :
    s.Grown (varNames i.operation.operands) (i.result.toList.map (·.name.name))
      (i.operation.targets.map (·.name)) [] s' := by
  have hm := grown_mention hw i.operation.operands i.operation.targets
  unfold addInstr at h
  cases hr : i.result with
  | none =>
    rw [hr] at h
    cases h
    exact hm
  | some r =>
    rw [hr] at h
    simpa using hm.trans (grown_defineValue hm.wf h)

theorem addBlock_eq_ok_iff {s s' : Scope} {b : NamedBlock} :
    s.addBlock b = .ok s' ↔ ∃ s₁ s₂, s.defineLabel b.name = .ok s₁ ∧ b.instrs.foldlM addInstr s₁ = .ok s₂ ∧
      s₂.mention b.terminator.operands b.terminator.targets = s' := by
  unfold addBlock
  simp only [Outcome.bind_eq_ok_iff, Outcome.pure_eq_ok_iff]
  constructor
  · rintro ⟨s₁, h₁, s₂, h₂, h⟩
    exact ⟨s₁, s₂, h₁, h₂, h⟩
  · rintro ⟨s₁, s₂, h₁, h₂, h⟩
    exact ⟨s₁, h₁, s₂, h₂, h⟩

theorem grown_addBlock {s s' : Scope} {b : NamedBlock} (hw : s.Wf) (h : s.addBlock b = .ok s') :
    s.Grown (varNames b.operands) (b.results.map (·.name.name)) (b.targets.map (·.name)) [b.name.name] s' := by
  obtain ⟨s₁, s₂, h₁, h₂, rfl⟩ := addBlock_eq_ok_iff.1 h
  have hlabel := grown_defineLabel hw h₁
  have hinstrs := grown_foldlM hlabel.wf h₂ fun _ _ _ => grown_addInstr
  have hend := grown_mention hinstrs.wf b.terminator.operands b.terminator.targets
  have htargets : b.instrs.flatMap (fun i => i.operation.targets.map (·.name)) ++
      b.terminator.targets.map (·.name) = b.targets.map (·.name) := by
    rw [NamedBlock.targets, List.map_append, List.map_flatMap]
  have hoperands : b.instrs.flatMap (fun i => varNames i.operation.operands) ++
      varNames b.terminator.operands = varNames b.operands := by
    rw [NamedBlock.operands, varNames_append, varNames_flatMap]
  rw [b.names_results, flatMap_nil] at hinstrs
  simpa [← hoperands, ← htargets] using (hlabel.trans hinstrs).trans hend

/-! ## Bodies -/

/-- What the scope of a body knows. -/
structure Binds (h : Head) (blocks : List NamedBlock) (s : Scope) : Prop where
  wf : s.Wf
  values : s.values.defined = (definedValues h blocks).map (·.name.name)
  labels : s.labels.defined = blocks.map (·.name.name)
  vars : ∀ b ∈ blocks, ∀ m, .var m ∈ b.operands → m.name ∈ s.values.defined
  targets : ∀ b ∈ blocks, ∀ m ∈ b.targets, m.name ∈ s.labels.defined

theorem ofBody_eq_ok_iff {h : Head} {blocks : List NamedBlock} {s : Scope} :
    ofBody h blocks = .ok s ↔
      (∃ s₁, (h.named.map (·.name)).foldlM defineValue {} = .ok s₁ ∧ blocks.foldlM addBlock s₁ = .ok s) ∧
        (∃ order, s.values.finish .value = .ok order) ∧ ∃ order, s.labels.finish .label = .ok order := by
  unfold ofBody
  constructor
  · intro hs
    obtain ⟨s₁, hparams, hs⟩ := Outcome.bind_eq_ok_iff.1 hs
    obtain ⟨s₂, hblocks, hs⟩ := Outcome.bind_eq_ok_iff.1 hs
    obtain ⟨values, hvalues, hs⟩ := Outcome.bind_eq_ok_iff.1 hs
    obtain ⟨labels, hlabels, hs⟩ := Outcome.bind_eq_ok_iff.1 hs
    cases hs
    exact ⟨⟨s₁, hparams, hblocks⟩, ⟨values, hvalues⟩, labels, hlabels⟩
  · rintro ⟨⟨s₁, hparams, hblocks⟩, ⟨values, hvalues⟩, labels, hlabels⟩
    exact Outcome.bind_eq_ok_iff.2 ⟨s₁, hparams, Outcome.bind_eq_ok_iff.2 ⟨s, hblocks,
      Outcome.bind_eq_ok_iff.2 ⟨values, hvalues, Outcome.bind_eq_ok_iff.2 ⟨labels, hlabels, rfl⟩⟩⟩⟩

/-- In the scope of a body every name that was mentioned is defined. -/
theorem finished_of_ofBody {h : Head} {blocks : List NamedBlock} {s : Scope} (hs : ofBody h blocks = .ok s) :
    (∀ name ∈ s.values.names, name ∈ s.values.defined) ∧ ∀ name ∈ s.labels.names, name ∈ s.labels.defined := by
  obtain ⟨-, ⟨values, hvalues⟩, labels, hlabels⟩ := ofBody_eq_ok_iff.1 hs
  exact ⟨fun name => NameTable.mem_defined_of_finish hvalues, fun name => NameTable.mem_defined_of_finish hlabels⟩

/-- The values of a body are its parameters and the results of its blocks. -/
theorem names_definedValues (h : Head) (blocks : List NamedBlock) :
    (h.named.map (·.name)).flatMap (fun m => [m.name]) ++ blocks.flatMap (fun b => b.results.map (·.name.name)) =
      (definedValues h blocks).map (·.name.name) := by
  rw [← List.map_eq_flatMap, List.map_map]
  simp [definedValues, List.map_flatMap, NamedBlock.results]

/-- The text of a body grows the empty scope by all that the body defines and uses. -/
theorem grown_body {h : Head} {blocks : List NamedBlock} {s s' : Scope}
    (hparams : (h.named.map (·.name)).foldlM defineValue {} = .ok s) (hblocks : blocks.foldlM addBlock s = .ok s') :
    Grown {} (blocks.flatMap fun b => varNames b.operands) ((definedValues h blocks).map (·.name.name))
      (blocks.flatMap fun b => b.targets.map (·.name)) (blocks.map (·.name.name)) s' := by
  have hw : Wf {} := ⟨NameTable.wf_empty, NameTable.wf_empty⟩
  have hgrown := grown_foldlM hw hparams fun _ _ _ => grown_defineValue
  have hall := hgrown.trans (grown_foldlM hgrown.wf hblocks fun _ _ _ => grown_addBlock)
  rw [← names_definedValues]
  simpa [flatMap_nil, ← List.map_eq_flatMap] using hall

theorem binds_of_ofBody {h : Head} {blocks : List NamedBlock} {s : Scope}
    (hs : ofBody h blocks = .ok s) : s.Binds h blocks := by
  obtain ⟨hvalues, hlabels⟩ := finished_of_ofBody hs
  obtain ⟨⟨s₁, hparams, hblocks⟩, -⟩ := ofBody_eq_ok_iff.1 hs
  have hall := grown_body hparams hblocks
  refine ⟨hall.wf, hall.values.defined, hall.labels.defined, fun b hb m hm => ?_, fun b hb m hm => ?_⟩
  · refine hvalues _ (hall.values.used _ ?_)
    exact List.mem_flatMap.2 ⟨b, hb, mem_varNames.2 ⟨m, hm, rfl⟩⟩
  · refine hlabels _ (hall.labels.used _ ?_)
    exact List.mem_flatMap.2 ⟨b, hb, List.mem_map.2 ⟨m, hm, rfl⟩⟩

end Scope
end SSALint.Source
