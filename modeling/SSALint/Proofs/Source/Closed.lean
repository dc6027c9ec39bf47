/-
Closed programs. Where no name is defined twice and every name that is used is defined, a program resolves, and
nowhere else (`exists_resolve_iff`): its bodies have scopes, and its symbols have a table.
-/
import SSALint.Proofs.Source.Resolve

namespace SSALint.Source

namespace Scope

/-! ## Scopes -/

/-- What a scope can still define: results and labels that it does not have, each once. -/
structure Takes (s : Scope) (results heads : List String) : Prop where
  values : (s.values.defined ++ results).Nodup
  labels : (s.labels.defined ++ heads).Nodup

theorem Takes.head {s : Scope} {rs hs rs' hs' : List String} (h : s.Takes (rs ++ rs') (hs ++ hs')) :
    s.Takes rs hs := by
  obtain ⟨hvalues, hlabels⟩ := h
  rw [← List.append_assoc] at hvalues hlabels
  exact ⟨(List.nodup_append.1 hvalues).1, (List.nodup_append.1 hlabels).1⟩

theorem Takes.tail {s s' : Scope} {us rs ts hs rs' hs' : List String} (h : s.Takes (rs ++ rs') (hs ++ hs'))
    (hgrown : s.Grown us rs ts hs s') : s'.Takes rs' hs' := by
  obtain ⟨hvalues, hlabels⟩ := h
  rw [← List.append_assoc] at hvalues hlabels
  exact ⟨by rw [hgrown.values.defined]; exact hvalues, by rw [hgrown.labels.defined]; exact hlabels⟩

theorem exists_defineValue {s : Scope} {m : Mention} (hw : s.Wf) (h : s.Takes [m.name] []) :
    ∃ s', s.defineValue m = .ok s' := by
  have hnew : m.name ∉ s.values.defined := fun hm =>
    (List.nodup_append.1 h.values).2.2 _ hm _ List.mem_cons_self rfl
  obtain ⟨x, hx⟩ := NameTable.exists_define hw.values .value hnew
  unfold defineValue
  rw [hx]
  exact ⟨_, rfl⟩

theorem exists_defineLabel {s : Scope} {m : Mention} (hw : s.Wf) (h : s.Takes [] [m.name]) :
    ∃ s', s.defineLabel m = .ok s' := by
  have hnew : m.name ∉ s.labels.defined := fun hm =>
    (List.nodup_append.1 h.labels).2.2 _ hm _ List.mem_cons_self rfl
  obtain ⟨x, hx⟩ := NameTable.exists_define hw.labels .label hnew
  unfold defineLabel
  rw [hx]
  exact ⟨_, rfl⟩

/-- A row of steps succeeds if each of them does where the scope can take what it defines. -/
theorem exists_foldlM {α : Type} {step : Scope → α → Except NameError Scope} {us rs ts hs : α → List String}
    {xs : List α} {s : Scope} (hw : s.Wf) (htakes : s.Takes (xs.flatMap rs) (xs.flatMap hs))
    (hgrown : ∀ s a s', s.Wf → step s a = .ok s' → s.Grown (us a) (rs a) (ts a) (hs a) s')
    (hstep : ∀ s a, s.Wf → s.Takes (rs a) (hs a) → ∃ s', step s a = .ok s') : ∃ s', xs.foldlM step s = .ok s' := by
  induction xs generalizing s with
  | nil => exact ⟨s, rfl⟩
  | cons x xs ih =>
    rw [List.flatMap_cons, List.flatMap_cons] at htakes
    obtain ⟨mid, hmid⟩ := hstep s x hw htakes.head
    have hx := hgrown s x mid hw hmid
    obtain ⟨s', hs'⟩ := ih hx.wf (htakes.tail hx)
    exact ⟨s', Outcome.foldlM_cons_eq_ok_iff.2 ⟨mid, hmid, hs'⟩⟩

theorem exists_addInstr {s : Scope} {i : NamedInstr} (hw : s.Wf)
    (h : s.Takes (i.result.toList.map (·.name.name)) []) : ∃ s', s.addInstr i = .ok s' := by
  have hmention := grown_mention hw i.operation.operands i.operation.targets
  unfold addInstr
  cases hr : i.result with
  | none => exact ⟨_, rfl⟩
  | some r =>
    rw [hr] at h
    have htakes : s.Takes ([] ++ [r.name.name]) ([] ++ []) := h
    exact exists_defineValue hmention.wf (htakes.tail hmention)

theorem exists_addBlock {s : Scope} {b : NamedBlock} (hw : s.Wf)
    (h : s.Takes (b.results.map (·.name.name)) [b.name.name]) : ∃ s', s.addBlock b = .ok s' := by
  have htakes : s.Takes ([] ++ b.results.map (·.name.name)) ([b.name.name] ++ []) := h
  obtain ⟨s₁, h₁⟩ := exists_defineLabel hw htakes.head
  have hlabel := grown_defineLabel hw h₁
  have hinstrs := htakes.tail hlabel
  rw [← b.names_results, ← flatMap_nil b.instrs] at hinstrs
  obtain ⟨s₂, h₂⟩ := exists_foldlM hlabel.wf hinstrs (fun _ _ _ => grown_addInstr)
    fun _ _ => exists_addInstr
  exact ⟨_, addBlock_eq_ok_iff.2 ⟨s₁, s₂, h₁, h₂, rfl⟩⟩

end Scope

/-! ## Bodies -/

/-- A body in which no name is defined twice and every name that is used is defined. -/
structure ClosedBody (h : Head) (blocks : List NamedBlock) : Prop where
  values : ((definedValues h blocks).map (·.name.name)).Nodup
  labels : (blocks.map (·.name.name)).Nodup
  vars : ∀ b ∈ blocks, ∀ m, .var m ∈ b.operands → m.name ∈ (definedValues h blocks).map (·.name.name)
  targets : ∀ b ∈ blocks, ∀ m ∈ b.targets, m.name ∈ blocks.map (·.name.name)

theorem Scope.Binds.closedBody {h : Head} {blocks : List NamedBlock} {s : Scope} (hs : s.Binds h blocks) :
    ClosedBody h blocks where
  values := hs.values ▸ hs.wf.values.nodup_defined
  labels := hs.labels ▸ hs.wf.labels.nodup_defined
  vars b hb m hm := hs.values ▸ hs.vars b hb m hm
  targets b hb m hm := hs.labels ▸ hs.targets b hb m hm

/-- A closed body has a scope. -/
theorem ClosedBody.exists_ofBody {h : Head} {blocks : List NamedBlock} (hc : ClosedBody h blocks) :
    ∃ s, Scope.ofBody h blocks = .ok s := by
  have hw : Scope.Wf {} := ⟨NameTable.wf_empty, NameTable.wf_empty⟩
  have hheads : blocks.map (·.name.name) =
      (h.named.map (·.name)).flatMap (fun _ => []) ++ blocks.flatMap (fun b => [b.name.name]) := by
    rw [flatMap_nil, List.nil_append, List.map_eq_flatMap]
  have htakes : Scope.Takes {} ((definedValues h blocks).map (·.name.name)) (blocks.map (·.name.name)) :=
    ⟨hc.values, hc.labels⟩
  rw [← Scope.names_definedValues, hheads] at htakes
  obtain ⟨s₁, hparams⟩ := Scope.exists_foldlM hw htakes.head (fun _ _ _ => Scope.grown_defineValue)
    fun _ _ => Scope.exists_defineValue
  have hgrown := Scope.grown_foldlM hw hparams fun _ _ _ => Scope.grown_defineValue
  obtain ⟨s₂, hblocks⟩ := Scope.exists_foldlM hgrown.wf (htakes.tail hgrown) (fun _ _ _ => Scope.grown_addBlock)
    fun _ _ => Scope.exists_addBlock
  have hbody := Scope.grown_body hparams hblocks
  refine ⟨s₂, Scope.ofBody_eq_ok_iff.2 ⟨⟨s₁, hparams, hblocks⟩, ?_, ?_⟩⟩
  · refine hbody.values.exists_finish .value fun name hname => ?_
    obtain ⟨b, hb, hname⟩ := List.mem_flatMap.1 hname
    obtain ⟨m, hm, rfl⟩ := mem_varNames.1 hname
    exact hc.vars b hb m hm
  · refine hbody.labels.exists_finish .label fun name hname => ?_
    obtain ⟨b, hb, hname⟩ := List.mem_flatMap.1 hname
    obtain ⟨m, hm, rfl⟩ := List.mem_map.1 hname
    exact hc.targets b hb m hm

/-! ## Programs -/

/-- A program in which no name is defined twice and every name that is used is defined. -/
structure Closed (items : List Item) : Prop where
  names : (items.map (·.name.name)).Nodup
  symbols : ∀ item ∈ items, ∀ m, .symbol m ∈ item.operands → m.name ∈ items.map (·.name.name)
  bodies : ∀ h blocks, .definition h blocks ∈ items → ClosedBody h blocks

/-- The symbols of items are new in a table, and each body among them is closed. -/
theorem exists_scopes {t : NameTable} (hw : t.Wf) {items : List Item}
    (hnames : (t.defined ++ items.map (·.name.name)).Nodup)
    (hbodies : ∀ h blocks, .definition h blocks ∈ items → ClosedBody h blocks) :
    ∃ x, scopes t items = .ok x := by
  induction items generalizing t with
  | nil => exact ⟨_, rfl⟩
  | cons item items ih =>
    have hscope : ∃ s, item.scope = .ok s := by
      cases item with
      | global v => exact ⟨_, rfl⟩
      | declaration h => exact ⟨_, rfl⟩
      | definition h blocks => exact (hbodies h blocks List.mem_cons_self).exists_ofBody
    obtain ⟨s, hs⟩ := hscope
    have huse := NameTable.grown_mentions hw (item.operands.filterMap Operand.symbol?)
    have hdefined : ∀ t', NameTable.Grown t (symbolNames item.operands) [] t' → t'.defined = t.defined :=
      fun t' h => h.defined.trans (List.append_nil _)
    have hnew : item.name.name ∉ t.defined := fun hm =>
      (List.nodup_append.1 hnames).2.2 _ hm _ List.mem_cons_self rfl
    obtain ⟨⟨t₁, id⟩, h₁⟩ := NameTable.exists_define huse.wf .symbol (m := item.name)
      (by rw [hdefined _ huse]; exact hnew)
    have hdefine := NameTable.grown_define huse.wf h₁
    have hrest : (t₁.defined ++ items.map (·.name.name)).Nodup := by
      rw [hdefine.defined, hdefined _ huse, List.append_assoc]
      exact hnames
    obtain ⟨x, hx⟩ := ih hdefine.wf hrest fun h blocks hm => hbodies h blocks (List.mem_cons_of_mem _ hm)
    exact ⟨_, Outcome.bind_eq_ok_iff.2 ⟨s, hs, Outcome.bind_eq_ok_iff.2 ⟨_, h₁, Outcome.bind_eq_ok_iff.2 ⟨x, hx, rfl⟩⟩⟩⟩

/-- The names of a program resolve if and only if the program is closed. -/
theorem exists_resolve_iff {items : List Item} : (∃ m, resolve items = .ok m) ↔ Closed items := by
  constructor
  · rintro ⟨m, hm⟩
    obtain ⟨symbols, ss, hr⟩ := resolved_of_resolve hm
    refine ⟨hr.defined ▸ hr.wf.nodup_defined, fun item hitem s hs => hr.defined ▸ hr.used item hitem s hs, ?_⟩
    intro h blocks hitem
    have hzip : (items.zip ss).map (·.1) = items := List.map_fst_zip (Nat.le_of_eq hr.scopes.length_eq)
    rw [← hzip] at hitem
    obtain ⟨⟨item, s⟩, hmem, rfl⟩ := List.mem_map.1 hitem
    exact (Scope.binds_of_ofBody (List.forall₂_zip hr.scopes hmem)).closedBody
  · intro hc
    obtain ⟨⟨symbols, ss⟩, hscopes⟩ := exists_scopes NameTable.wf_empty hc.names hc.bodies
    obtain ⟨hgrown, -⟩ := scopes_spec NameTable.wf_empty hscopes
    obtain ⟨order, hfinish⟩ := hgrown.exists_finish .symbol fun name hname => by
      obtain ⟨item, hitem, hname⟩ := List.mem_flatMap.1 hname
      obtain ⟨m, hm, rfl⟩ := mem_symbolNames.1 hname
      exact hc.symbols item hitem m hm
    exact ⟨_, Outcome.bind_eq_ok_iff.2 ⟨_, hscopes, Outcome.bind_eq_ok_iff.2 ⟨order, hfinish, rfl⟩⟩⟩

end SSALint.Source
