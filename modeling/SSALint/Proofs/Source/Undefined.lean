/-
Names without a definition. A table keeps the first mention of each name, so that it forgets no name that
is never defined: the first mention of one in the table is the first one in the text
(`NameTable.Traced`). What the error about such a name tells is therefore the first reference in the body,
or for symbols in the program, whose name has no definition there (`undefined_of_resolve`).
-/
import Mathlib.Data.List.Find
import SSALint.Proofs.Source.References
import SSALint.Proofs.Source.Resolve

namespace SSALint.Source

/-! ## Tables -/

namespace NameTable

/-- A table after some text with references and definitions. Of the names that are not defined there, it knows
which one was the first to be mentioned, whatever it is that one looks for. -/
def Traced (t : NameTable) (refs : List Mention) (defs : List String) (t' : NameTable) : Prop :=
  ∀ P : String → Bool, (∀ name ∈ defs, P name = false) →
    t'.mentions.find? (fun m => P m.name) = (t.mentions ++ refs).find? fun m => P m.name

theorem Traced.refl (t : NameTable) : t.Traced [] [] t := fun _ _ => by rw [List.append_nil]

theorem Traced.trans {t t' t'' : NameTable} {refs refs' : List Mention} {defs defs' : List String}
    (h : t.Traced refs defs t') (h' : t'.Traced refs' defs' t'') :
    t.Traced (refs ++ refs') (defs ++ defs') t'' := by
  intro P hP
  obtain ⟨hdefs, hdefs'⟩ := List.forall_mem_append.1 hP
  rw [h' P hdefs', List.find?_append, h P hdefs, ← List.find?_append, List.append_assoc]

theorem traced_mention (t : NameTable) (m : Mention) : t.Traced [m] [] (t.mention m).1 := by
  intro P _
  unfold mention
  cases hid : t.idOf? m.name with
  | none => rfl
  | some id =>
    -- The name was mentioned before, so that the search is over earlier if it would end here.
    show t.mentions.find? _ = _
    rw [List.find?_append]
    cases hfind : t.mentions.find? (fun m => P m.name) with
    | some _ => rfl
    | none =>
      obtain ⟨m', hm', hname⟩ := List.mem_map.1 (List.mem_of_getElem? (getElem?_of_idOf? hid))
      have hP := List.find?_eq_none.1 hfind m' hm'
      rw [hname, Bool.not_eq_true] at hP
      simp [hP]

theorem traced_mentions (t : NameTable) (ms : List Mention) :
    t.Traced ms [] (ms.foldl (fun t m => (t.mention m).1) t) := by
  induction ms generalizing t with
  | nil => exact .refl t
  | cons m ms ih => exact (traced_mention t m).trans (ih _)

theorem traced_define {t t' : NameTable} {kind : NameKind} {m : Mention} {id : Nat}
    (h : t.define kind m = .ok (t', id)) : t.Traced [] [m.name] t' := by
  have hm := traced_mention t m
  unfold define at h
  simp only at h
  split at h
  · cases h
  · cases h
    intro P hP
    have hnot : P m.name = false := hP _ (List.mem_singleton_self _)
    show (t.mention m).1.mentions.find? _ = _
    rw [hm P nofun, List.find?_append, List.append_nil]
    simp [hnot]

/-- A definition fails only if it is the second one. -/
theorem define_ne_undefined (t : NameTable) (kind kind' : NameKind) (m m' : Mention) :
    t.define kind m ≠ .error (.undefined kind' m') := by
  unfold define
  simp only
  split <;> nofun

theorem Wf.mem_order_iff {t : NameTable} (hw : t.Wf) {m : Mention} {id : Nat} (h : t.mentions[id]? = some m) :
    id ∈ t.order ↔ m.name ∈ t.defined := by
  have hget : t.names[id]? = some m.name := by rw [names, List.getElem?_map, h]; rfl
  have hname := nameOf_of_getElem? hget
  constructor
  · exact fun hid => List.mem_map.2 ⟨id, hid, hname⟩
  · intro hm
    obtain ⟨id', hid', hname'⟩ := List.mem_map.1 hm
    have hlt : id < t.names.length := (List.getElem?_eq_some_iff.1 hget).1
    rwa [← hw.eq_of_nameOf_eq (hw.mentioned id' hid') hlt (hname'.trans hname.symm)]

/-- A table that cannot be finished tells the first mention of a name without a definition. -/
theorem find?_of_finish {t : NameTable} {kind : NameKind} {e : NameError} (hw : t.Wf)
    (h : t.finish kind = .error e) :
    ∃ m, e = .undefined kind m ∧ t.mentions.find? (fun m => m.name ∉ t.defined) = some m := by
  unfold finish at h
  split at h
  · rename_i m id hfind
    cases h
    refine ⟨m, rfl, ?_⟩
    -- The search is for an id that was not recorded, which is to say for a name that is not defined.
    rw [← List.zipIdx_map_fst 0 t.mentions, List.find?_map]
    have hsame : t.mentions.zipIdx.find? ((fun m => decide (m.name ∉ t.defined)) ∘ Prod.fst) = some (m, id) := by
      rw [← hfind]
      refine List.find?_congr fun x hx => ?_
      have hiff := hw.mem_order_iff (List.mk_mem_zipIdx_iff_getElem?.1 hx)
      exact decide_eq_decide.2 (not_congr hiff.symm)
    rw [hsame]
    rfl
  · cases h

/-- If all of a text is in a table that cannot be finished, the error tells the first reference to a name that the
text does not define. -/
theorem Traced.find?_of_finish {t : NameTable} {refs : List Mention} {used defs : List String} {kind : NameKind}
    {e : NameError} (ht : Traced {} refs defs t) (hg : Grown {} used defs t) (h : t.finish kind = .error e) :
    ∃ m, e = .undefined kind m ∧ refs.find? (fun m => m.name ∉ defs) = some m := by
  obtain ⟨m, he, hfind⟩ := NameTable.find?_of_finish hg.wf h
  have hdefined : t.defined = defs := hg.defined
  rw [hdefined] at hfind
  exact ⟨m, he, (ht (fun name => name ∉ defs) fun name hn => decide_eq_false (not_not_intro hn)).symm.trans hfind⟩

end NameTable

/-! ## Bodies -/

namespace Scope

/-- A scope after some text with operands, results, targets, and heads of blocks: of the names that are not
defined there, it knows the first mentions. -/
structure Traced (s : Scope) (operands : List NamedValue) (results : List String) (targets : List Mention)
    (heads : List String) (s' : Scope) : Prop where
  values : s.values.Traced (operands.filterMap Operand.var?) results s'.values
  labels : s.labels.Traced targets heads s'.labels

theorem Traced.refl (s : Scope) : s.Traced [] [] [] [] s := ⟨.refl _, .refl _⟩

theorem Traced.trans {s s' s'' : Scope} {us us' : List NamedValue} {rs rs' hs hs' : List String} {ts ts' : List Mention}
    (h : s.Traced us rs ts hs s') (h' : s'.Traced us' rs' ts' hs' s'') :
    s.Traced (us ++ us') (rs ++ rs') (ts ++ ts') (hs ++ hs') s'' := by
  refine ⟨?_, h.labels.trans h'.labels⟩
  rw [List.filterMap_append]
  exact h.values.trans h'.values

theorem traced_mention (s : Scope) (operands : List NamedValue) (targets : List Mention) :
    s.Traced operands [] targets [] (s.mention operands targets) :=
  ⟨NameTable.traced_mentions _ _, NameTable.traced_mentions _ _⟩

theorem traced_defineValue {s s' : Scope} {m : Mention} (h : s.defineValue m = .ok s') :
    s.Traced [] [m.name] [] [] s' := by
  unfold defineValue at h
  obtain ⟨⟨values, id⟩, hdef, hs⟩ := Outcome.bind_eq_ok_iff.1 h
  cases hs
  exact ⟨NameTable.traced_define hdef, .refl _⟩

theorem traced_defineLabel {s s' : Scope} {m : Mention} (h : s.defineLabel m = .ok s') :
    s.Traced [] [] [] [m.name] s' := by
  unfold defineLabel at h
  obtain ⟨⟨labels, id⟩, hdef, hs⟩ := Outcome.bind_eq_ok_iff.1 h
  cases hs
  exact ⟨.refl _, NameTable.traced_define hdef⟩

theorem traced_foldlM {α : Type} {step : Scope → α → Except NameError Scope} {us : α → List NamedValue}
    {rs hs : α → List String} {ts : α → List Mention} {xs : List α} {s s' : Scope} (h : xs.foldlM step s = .ok s')
    (hstep : ∀ s a s', step s a = .ok s' → s.Traced (us a) (rs a) (ts a) (hs a) s') :
    s.Traced (xs.flatMap us) (xs.flatMap rs) (xs.flatMap ts) (xs.flatMap hs) s' := by
  induction xs generalizing s with
  | nil =>
    cases Outcome.foldlM_nil_eq_ok_iff.1 h
    exact .refl _
  | cons x xs ih =>
    obtain ⟨mid, hx, hxs⟩ := Outcome.foldlM_cons_eq_ok_iff.1 h
    exact (hstep s x mid hx).trans (ih hxs)

theorem traced_addInstr {s s' : Scope} {i : NamedInstr} (h : s.addInstr i = .ok s') :
    s.Traced i.operation.operands (i.result.toList.map (·.name.name)) i.operation.targets [] s' := by
  have hm := traced_mention s i.operation.operands i.operation.targets
  unfold addInstr at h
  cases hr : i.result with
  | none =>
    rw [hr] at h
    cases h
    exact hm
  | some r =>
    rw [hr] at h
    simpa using hm.trans (traced_defineValue h)

theorem traced_addBlock {s s' : Scope} {b : NamedBlock} (h : s.addBlock b = .ok s') :
    s.Traced b.operands (b.results.map (·.name.name)) b.targets [b.name.name] s' := by
  obtain ⟨s₁, s₂, h₁, h₂, rfl⟩ := addBlock_eq_ok_iff.1 h
  have hinstrs := traced_foldlM h₂ fun _ _ _ => traced_addInstr
  rw [b.names_results, flatMap_nil] at hinstrs
  simpa [NamedBlock.operands, NamedBlock.targets] using
    ((traced_defineLabel h₁).trans hinstrs).trans (traced_mention s₂ b.terminator.operands b.terminator.targets)

theorem traced_body {h : Head} {blocks : List NamedBlock} {s s' : Scope}
    (hparams : (h.named.map (·.name)).foldlM defineValue {} = .ok s) (hblocks : blocks.foldlM addBlock s = .ok s') :
    Traced {} (blocks.flatMap NamedBlock.operands) ((definedValues h blocks).map (·.name.name))
      (blocks.flatMap NamedBlock.targets) (blocks.map (·.name.name)) s' := by
  have hall := (traced_foldlM hparams fun _ _ _ => traced_defineValue).trans
    (traced_foldlM hblocks fun _ _ _ => traced_addBlock)
  rw [← names_definedValues]
  simpa [flatMap_nil, ← List.map_eq_flatMap] using hall

theorem defineValue_ne_undefined (kind : NameKind) (m : Mention) (s : Scope) (m' : Mention) :
    s.defineValue m' ≠ .error (.undefined kind m) := by
  unfold defineValue
  rw [Ne, Outcome.bind_eq_error_iff]
  rintro (h | ⟨_, -, h⟩)
  · exact NameTable.define_ne_undefined _ _ _ _ _ h
  · cases h

theorem defineLabel_ne_undefined (kind : NameKind) (m : Mention) (s : Scope) (m' : Mention) :
    s.defineLabel m' ≠ .error (.undefined kind m) := by
  unfold defineLabel
  rw [Ne, Outcome.bind_eq_error_iff]
  rintro (h | ⟨_, -, h⟩)
  · exact NameTable.define_ne_undefined _ _ _ _ _ h
  · cases h

/-- Whether a name is defined is not asked before the end of a body. -/
theorem addBlock_ne_undefined (kind : NameKind) (m : Mention) (s : Scope) (b : NamedBlock) :
    s.addBlock b ≠ .error (.undefined kind m) := by
  have hinstr (s : Scope) (i : NamedInstr) : s.addInstr i ≠ .error (.undefined kind m) := by
    unfold addInstr
    dsimp only
    split
    · exact defineValue_ne_undefined kind m _ _
    · nofun
  unfold addBlock
  rw [Ne, Outcome.bind_eq_error_iff, not_or]
  refine ⟨defineLabel_ne_undefined kind m s b.name, ?_⟩
  rintro ⟨s₁, -, h⟩
  rcases Outcome.bind_eq_error_iff.1 h with h | ⟨s₂, -, h⟩
  · exact Outcome.foldlM_ne_error hinstr _ _ h
  · cases h

end Scope

/-! ## Programs -/

/-- The names of a kind that an item defines. A block without a label counts with its empty name, which nothing
refers to. -/
def Item.defines : NameKind → Item → List String
  | .symbol, item => [item.name.name]
  | .value, .definition h blocks => (definedValues h blocks).map (·.name.name)
  | .label, .definition _ blocks => blocks.map (·.name.name)
  | _, _ => []

theorem defines_symbol (items : List Item) : items.flatMap (Item.defines .symbol) = items.map (·.name.name) :=
  List.map_eq_flatMap.symm

/-- The first reference of a kind in items to a name that none of them defines. -/
def firstUndefined? (kind : NameKind) (items : List Item) : Option Mention :=
  (items.flatMap (Item.references kind)).find? fun m => m.name ∉ items.flatMap (Item.defines kind)

/-- The parts of a program in which names of a kind have to be defined: values and labels in the body that uses them,
symbols anywhere. -/
def NameKind.IsScope (kind : NameKind) (items part : List Item) : Prop :=
  match kind with
  | .symbol => part = items
  | _ => ∃ h blocks, .definition h blocks ∈ items ∧ part = [.definition h blocks]

theorem firstUndefined?_singleton (kind : NameKind) (item : Item) :
    firstUndefined? kind [item] = (item.references kind).find? fun m => m.name ∉ item.defines kind := by
  rw [firstUndefined?, List.flatMap_singleton, List.flatMap_singleton]

theorem firstUndefined?_of_ofBody {h : Head} {blocks : List NamedBlock} {kind : NameKind} {m : Mention}
    (hs : Scope.ofBody h blocks = .error (.undefined kind m)) :
    kind ≠ .symbol ∧ firstUndefined? kind [.definition h blocks] = some m := by
  unfold Scope.ofBody at hs
  rcases Outcome.bind_eq_error_iff.1 hs with hparams | ⟨s₁, hparams, hs⟩
  · exact absurd hparams (Outcome.foldlM_ne_error (Scope.defineValue_ne_undefined kind m) _ _)
  rcases Outcome.bind_eq_error_iff.1 hs with hblocks | ⟨s₂, hblocks, hs⟩
  · exact absurd hblocks (Outcome.foldlM_ne_error (Scope.addBlock_ne_undefined kind m) _ _)
  -- Values are asked for before labels; both tables have seen the whole body by then.
  have hgrown := Scope.grown_body hparams hblocks
  have htraced := Scope.traced_body hparams hblocks
  rcases Outcome.bind_eq_error_iff.1 hs with hvalues | ⟨_, -, hs⟩
  · obtain ⟨m', heq, hfind⟩ := htraced.values.find?_of_finish hgrown.values hvalues
    cases heq
    refine ⟨by decide, ?_⟩
    rw [firstUndefined?_singleton, Item.references, references_value]
    exact hfind
  rcases Outcome.bind_eq_error_iff.1 hs with hlabels | ⟨_, -, hs⟩
  · obtain ⟨m', heq, hfind⟩ := htraced.labels.find?_of_finish hgrown.labels hlabels
    cases heq
    refine ⟨by decide, ?_⟩
    rw [firstUndefined?_singleton, Item.references, references_label]
    exact hfind
  · cases hs

theorem scopes_traced {t t' : NameTable} {items : List Item} {ss : List Scope} (h : scopes t items = .ok (t', ss)) :
    t.Traced (items.flatMap (Item.references .symbol)) (items.map (·.name.name)) t' := by
  induction items generalizing t ss with
  | nil =>
    cases h
    exact .refl _
  | cons item items ih =>
    unfold scopes at h
    obtain ⟨s, -, h⟩ := Outcome.bind_eq_ok_iff.1 h
    obtain ⟨⟨t₁, id⟩, hdefine, h⟩ := Outcome.bind_eq_ok_iff.1 h
    obtain ⟨⟨t₂, others⟩, hothers, h⟩ := Outcome.bind_eq_ok_iff.1 h
    cases h
    have hmentions := NameTable.traced_mentions t (item.operands.filterMap Operand.symbol?)
    have hname := hmentions.trans (NameTable.traced_define hdefine)
    rw [← references_symbol item.operands item.targets] at hname
    simpa [Item.references] using hname.trans (ih hothers)

/-- Symbols that have no definition are noticed only when all items are through: an item can only complain about
names of its own. -/
theorem exists_scope_of_scopes {t : NameTable} {items : List Item} {kind : NameKind} {m : Mention}
    (h : scopes t items = .error (.undefined kind m)) : ∃ item ∈ items, item.scope = .error (.undefined kind m) := by
  induction items generalizing t with
  | nil => cases h
  | cons item items ih =>
    unfold scopes at h
    rcases Outcome.bind_eq_error_iff.1 h with hitem | ⟨s, -, h⟩
    · exact ⟨item, List.mem_cons_self, hitem⟩
    rcases Outcome.bind_eq_error_iff.1 h with hdefine | ⟨x, -, h⟩
    · exact absurd hdefine (NameTable.define_ne_undefined _ _ _ _ _)
    rcases Outcome.bind_eq_error_iff.1 h with hothers | ⟨y, -, h⟩
    · obtain ⟨item', hmem, hitem'⟩ := ih hothers
      exact ⟨item', List.mem_cons_of_mem _ hmem, hitem'⟩
    · cases h

/-- The error about a name without a definition tells the first reference to such a name in the part of the program
in which it has to be defined. -/
theorem undefined_of_resolve {items : List Item} {kind : NameKind} {m : Mention}
    (h : resolve items = .error (.undefined kind m)) :
    ∃ part, kind.IsScope items part ∧ firstUndefined? kind part = some m := by
  unfold resolve at h
  rcases Outcome.bind_eq_error_iff.1 h with hscopes | ⟨⟨symbols, ss⟩, hscopes, h⟩
  · obtain ⟨item, hmem, hitem⟩ := exists_scope_of_scopes hscopes
    cases item with
    | definition head blocks =>
      obtain ⟨hkind, hfirst⟩ := firstUndefined?_of_ofBody hitem
      refine ⟨[.definition head blocks], ?_, hfirst⟩
      cases kind with
      | symbol => exact absurd rfl hkind
      | _ => exact ⟨head, blocks, hmem, rfl⟩
    | _ => cases hitem
  rcases Outcome.bind_eq_error_iff.1 h with hfinish | ⟨_, -, h⟩
  · obtain ⟨hgrown, -⟩ := scopes_spec NameTable.wf_empty hscopes
    obtain ⟨m', heq, hfind⟩ := (scopes_traced hscopes).find?_of_finish hgrown hfinish
    cases heq
    rw [← defines_symbol] at hfind
    exact ⟨items, rfl, hfind⟩
  · cases h

end SSALint.Source
