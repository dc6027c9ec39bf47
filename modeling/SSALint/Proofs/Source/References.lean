/-
Where names are used in a text. The references of a kind are the names of values, labels or symbols that operands and
targets use. A program lists them in the order in which the text writes them, and each of them stands at
the sigil of its kind and goes on for as long as characters of words follow (`cited_program`).
-/
import SSALint.Proofs.Source.Places
import SSALint.Proofs.Source.Scope

namespace SSALint.Source

/-! ## References -/

namespace NameKind

/-- The names of a kind in a value. -/
def inValue : NameKind → NamedValue → List Mention
  | .value, .var x => [x]
  | .symbol, .symbol s => [s]
  | _, _ => []

/-- The names of a kind in the target of a jump. -/
def inTarget : NameKind → Mention → List Mention
  | .label, b => [b]
  | _, _ => []

end NameKind

/-- The names of a kind in operands and targets. No kind has names in both. -/
def references (kind : NameKind) (operands : List NamedValue) (targets : List Mention) : List Mention :=
  operands.flatMap kind.inValue ++ targets.flatMap kind.inTarget

theorem references_value (operands : List NamedValue) (targets : List Mention) :
    references .value operands targets = operands.filterMap Operand.var? := by
  rw [references, List.filterMap_eq_flatMap_toList]
  show operands.flatMap _ ++ targets.flatMap (fun _ => []) = _
  rw [flatMap_nil, List.append_nil]
  exact List.flatMap_congr fun v _ => by cases v <;> rfl

theorem references_label (operands : List NamedValue) (targets : List Mention) :
    references .label operands targets = targets := by
  show operands.flatMap (fun _ => []) ++ targets.flatMap (fun b => [b]) = _
  rw [flatMap_nil, List.nil_append, List.flatMap_singleton']

theorem references_symbol (operands : List NamedValue) (targets : List Mention) :
    references .symbol operands targets = operands.filterMap Operand.symbol? := by
  rw [references, List.filterMap_eq_flatMap_toList]
  show operands.flatMap _ ++ targets.flatMap (fun _ => []) = _
  rw [flatMap_nil, List.append_nil]
  exact List.flatMap_congr fun v _ => by cases v <;> rfl

/-- One kind has names among the operands or among the targets, so that it does not matter how the two are mixed. -/
theorem references_append (kind : NameKind) (operands operands' : List NamedValue) (targets targets' : List Mention) :
    references kind (operands ++ operands') (targets ++ targets') =
      references kind operands targets ++ references kind operands' targets' := by
  cases kind with
  | value => simp only [references_value, List.filterMap_append]
  | label => simp only [references_label]
  | symbol => simp only [references_symbol, List.filterMap_append]

theorem references_flatMap {α : Type} (kind : NameKind) (xs : List α) (operands : α → List NamedValue)
    (targets : α → List Mention) :
    references kind (xs.flatMap operands) (xs.flatMap targets) =
      xs.flatMap fun x => references kind (operands x) (targets x) := by
  induction xs with
  | nil => rfl
  | cons x xs ih => rw [List.flatMap_cons, List.flatMap_cons, List.flatMap_cons, references_append, ih]

/-- The names of a kind that an instruction uses, in the order of the text. -/
def NamedInstr.references (kind : NameKind) (i : NamedInstr) : List Mention :=
  Source.references kind i.operation.operands i.operation.targets

/-- The names of a kind that a block uses, in the order of the text. -/
def NamedBlock.references (kind : NameKind) (b : NamedBlock) : List Mention :=
  Source.references kind b.operands b.targets

namespace Item

/-- The targets of an item in the order of the text. -/
def targets : Item → List Mention
  | .definition _ blocks => blocks.flatMap NamedBlock.targets
  | _ => []

/-- The names of a kind that an item uses. -/
def references (kind : NameKind) (item : Item) : List Mention := Source.references kind item.operands item.targets

end Item

/-! ## Places of references -/

/-- A name of a kind is written where it is mentioned, behind the sigil of the kind, and no character of a word
follows it. -/
def Mention.Stands (m : Mention) (kind : NameKind) : Prop :=
  m.name ≠ "" ∧ ∃ after, m.rest = kind.sigil.toList ++ m.name.toList ++ after ∧ after.head?.any isWordChar = false

/-- Names of a kind are written in a text one after the other, and a rest of it follows them. -/
def Cited (kind : NameKind) (s : List Char) (ms : List Mention) (r : List Char) : Prop :=
  InOrder s ms r ∧ ∀ m ∈ ms, m.Stands kind

/-- A parser goes on from references in order to more of them. -/
def Cites {α : Type} (kind : NameKind) (p : Parser α) (ms : α → List Mention) : Prop :=
  ∀ s₀ pre, p.Ensures (Cited kind s₀ pre) fun a => Cited kind s₀ (pre ++ ms a)

variable {kind : NameKind}

theorem Cites.of_cited {α : Type} {p : Parser α} {ms : α → List Mention}
    (h : ∀ s a r, p s = .ok (a, r) → Cited kind s (ms a) r) : Cites kind p ms :=
  fun _ _ s a r hs hp => by
    obtain ⟨hplaces, hstand⟩ := h s a r hp
    exact ⟨hs.1.append hplaces, List.forall_mem_append.2 ⟨hs.2, hstand⟩⟩

theorem cites_of_steady {α : Type} (p : Parser α) [hp : p.Steady] : Cites kind p fun _ => [] :=
  .of_cited fun _ _ _ h => ⟨hp.suffix h, nofun⟩

theorem cites_attempt {α : Type} {p : Parser α} {ms : α → List Mention} (hp : Cites kind p ms) :
    Cites kind p.attempt fun o => o.elim [] ms :=
  fun s₀ pre => .attempt (hp s₀ pre) fun s hs => by simpa using hs

theorem cites_many {α : Type} {item : Parser (Option α)} {ms : α → List Mention}
    (hitem : Cites kind item fun o => o.elim [] ms) : Cites kind (Parser.many item) fun as => as.flatMap ms := by
  intro s₀ pre
  refine .weaken (.many (I := fun as => Cited kind s₀ (pre ++ as.flatMap ms)) fun as => ?_)
    (fun s hs => by simpa using hs) fun _ _ h => h
  refine (hitem s₀ _).weaken (fun _ hs => hs) fun o r ho => ?_
  cases o with
  | none => simpa using ho
  | some a => simpa using ho

theorem cites_behind {α : Type} {separator : Parser Unit} {item : Parser α} {ms : α → List Mention}
    [separator.Steady] (hitem : Cites kind item ms) :
    Cites kind (Parser.behind separator item) fun o => o.elim [] ms := by
  intro s₀ pre
  unfold Parser.behind
  refine .bind (cites_of_steady _ s₀ pre) fun more => ?_
  split
  · exact .bind (hitem s₀ _) fun a => .pure fun s hs => by simpa using hs
  · exact .pure fun s hs => by simpa using hs

theorem cites_sepBy1 {α : Type} {separator : Parser Unit} {item : Parser α} {ms : α → List Mention}
    [separator.Steady] (hitem : Cites kind item ms) :
    Cites kind (Parser.sepBy1 separator item) fun as => as.flatMap ms := by
  intro s₀ pre
  unfold Parser.sepBy1
  refine .bind (hitem s₀ pre) fun first => .bind (cites_many (cites_behind hitem) s₀ _) fun others => ?_
  exact .pure fun s hs => by simpa using hs

theorem cites_comma {α : Type} {p : Parser α} {ms : α → List Mention} (hp : Cites kind p ms) :
    Cites kind (comma p) ms := by
  intro s₀ pre
  unfold comma
  exact .bind (cites_of_steady _ s₀ pre) fun _ => by simpa using hp s₀ pre

theorem cites_commaItems {α : Type} {item : Parser α} {ms : α → List Mention} (hitem : Cites kind item ms) :
    Cites kind (commaItems item) fun as => as.flatMap ms :=
  cites_many (cites_behind hitem)

theorem cites_listUntil {α : Type} {closing : String} {item : Parser α} {ms : α → List Mention}
    (hitem : Cites kind item ms) : Cites kind (listUntil closing item) fun as => as.flatMap ms := by
  intro s₀ pre
  unfold listUntil
  refine .bind (cites_of_steady _ s₀ pre) fun closed => ?_
  split
  · exact .pure fun s hs => by simpa using hs
  · refine .bind (cites_sepBy1 hitem s₀ _) fun as => .bind (cites_of_steady _ s₀ _) fun _ => ?_
    exact .pure fun s hs => by simpa using hs

/-! ## Names -/

/-- A word is as long as it can be. -/
theorem head?_of_word {s r : List Char} {name : String} (h : word s = .ok (name, r)) :
    r.head?.any isWordChar = false := by
  have h : (run isWordChar .word >>= fun cs => pure (String.ofList cs)) s = .ok (name, r) := h
  obtain ⟨cs, t, hrun, hname⟩ := Parser.bind_eq_ok_iff.1 h
  obtain ⟨-, rfl⟩ := Parser.pure_eq_ok_iff.1 hname
  unfold run at hrun
  split at hrun
  · cases hrun
  · cases hrun
    have hhead := List.head?_dropWhile_not isWordChar s
    cases hdrop : (s.dropWhile isWordChar).head? with
    | none => rfl
    | some c => simpa [hdrop] using hhead

/-- A sigil and a name: what counts as a reference of a kind has the sigil of the kind. -/
theorem cites_sigilName {sigil : Char} {ms : Mention → List Mention}
    (h : ∀ m, ms m = [] ∨ ms m = [m] ∧ kind.sigil.toList = [sigil]) : Cites kind (sigilName sigil) ms := by
  refine .of_cited fun s m r hp => ?_
  have hsuffix : r <:+ s := Parser.Steady.suffix hp
  rcases h m with hm | ⟨hm, hsigil⟩
  · rw [hm]
    exact ⟨hsuffix, nofun⟩
  · obtain ⟨t, hplace, hrest, hword⟩ := rest_of_sigilName hp
    obtain ⟨hname, rfl⟩ := eq_append_of_word hword
    have hrest : m.rest = kind.sigil.toList ++ m.name.toList ++ r := by
      rw [hrest, hsigil]
      rfl
    have hbefore : m.Before r := by
      refine ⟨hname, kind.sigil.toList, ?_, hrest⟩
      cases kind with
      | symbol => exact .inr (.inr rfl)
      | _ => exact .inr (.inl rfl)
    rw [hm]
    refine ⟨⟨hplace, r, hbefore, List.suffix_refl _⟩, ?_⟩
    rw [List.forall_mem_singleton]
    exact ⟨hname, r, hrest, head?_of_word hword⟩

theorem cites_localName : Cites kind localName fun m => kind.inValue (.var m) := by
  refine cites_sigilName fun m => ?_
  cases kind with
  | value => exact .inr ⟨rfl, rfl⟩
  | _ => exact .inl rfl

theorem cites_symbolName : Cites kind symbolName fun m => kind.inValue (.symbol m) := by
  refine cites_sigilName fun m => ?_
  cases kind with
  | symbol => exact .inr ⟨rfl, rfl⟩
  | _ => exact .inl rfl

theorem cites_blockName : Cites kind localName kind.inTarget := by
  refine cites_sigilName fun m => ?_
  cases kind with
  | label => exact .inr ⟨rfl, rfl⟩
  | _ => exact .inl rfl

theorem cites_target : Cites kind target kind.inTarget := by
  intro s₀ pre
  unfold target
  exact .bind (cites_of_steady _ s₀ pre) fun _ => by simpa using cites_blockName s₀ pre

/-! ## Values -/

theorem cites_value (t : Ty) : Cites kind (value t) kind.inValue := by
  have hconst (c : Constant) : kind.inValue (.const c) = [] := by cases kind <;> rfl
  intro s₀ pre
  unfold value
  refine .bind (cites_of_steady _ s₀ pre) fun _ => .bind (cites_attempt cites_localName s₀ _) fun x => ?_
  cases x with
  | some x => exact .pure fun s hs => by simpa using hs
  | none =>
    refine .bind (cites_attempt cites_symbolName s₀ _) fun f => ?_
    cases f with
    | some f => exact .pure fun s hs => by simpa using hs
    | none =>
      refine .bind (cites_of_steady _ s₀ _) fun c => ?_
      cases c with
      | some c => exact .pure fun s hs => by simpa [hconst] using hs
      | none => exact .bind (cites_of_steady _ s₀ _) fun c => .pure fun s hs => by simpa [hconst] using hs

theorem cites_typedValue : Cites kind typedValue fun x => kind.inValue x.2 := by
  intro s₀ pre
  unfold typedValue
  refine .bind (cites_of_steady _ s₀ pre) fun t => .bind (cites_value t s₀ _) fun v => ?_
  exact .pure fun s hs => by simpa using hs

theorem cites_operand : Cites kind operand kind.inValue := by
  intro s₀ pre
  unfold operand
  exact .bind (cites_typedValue s₀ pre) fun x => .pure fun s hs => hs

theorem cites_pair (t : Ty) : Cites kind (pair t) fun x => kind.inValue x.1 ++ kind.inValue x.2 := by
  intro s₀ pre
  unfold pair
  refine .bind (cites_value t s₀ pre) fun lhs => .bind (cites_comma (cites_value t) s₀ _) fun rhs => ?_
  exact .pure fun s hs => by simpa using hs

/-! ## Instructions -/

theorem cites_alloca : Cites kind alloca fun x => references kind x.1.operands x.1.targets := by
  intro s₀ pre
  unfold alloca
  exact .bind (cites_of_steady _ s₀ pre) fun t => .pure fun s hs => hs

theorem cites_load : Cites kind load fun x => references kind x.1.operands x.1.targets := by
  intro s₀ pre
  unfold load
  refine .bind (cites_of_steady _ s₀ pre) fun t => .bind (cites_comma cites_operand s₀ _) fun ptr => ?_
  exact .pure fun s hs => by simpa [references, Operation.operands, Operation.targets] using hs

theorem cites_store : Cites kind store fun x => references kind x.1.operands x.1.targets := by
  intro s₀ pre
  unfold store
  refine .bind (cites_operand s₀ pre) fun v => .bind (cites_comma cites_operand s₀ _) fun ptr => ?_
  exact .pure fun s hs => by simpa [references, Operation.operands, Operation.targets] using hs

theorem cites_binary (op : BinaryOp) : Cites kind (binary op) fun x => references kind x.1.operands x.1.targets := by
  intro s₀ pre
  unfold binary
  refine .bind (cites_of_steady _ s₀ pre) fun t => .bind (cites_pair t s₀ _) fun x => ?_
  exact .pure fun s hs => by simpa [references, Operation.operands, Operation.targets] using hs

theorem cites_cast (op : CastOp) : Cites kind (cast op) fun x => references kind x.1.operands x.1.targets := by
  intro s₀ pre
  unfold cast
  refine .bind (cites_operand s₀ pre) fun v => .bind (cites_of_steady _ s₀ _) fun _ =>
    .bind (cites_of_steady _ s₀ _) fun t => ?_
  exact .pure fun s hs => by simpa [references, Operation.operands, Operation.targets] using hs

theorem cites_compare {P : Type} [Spelled P] (place : List Char) (unknown : Complaint)
    {make : P → Ty → NamedValue → NamedValue → Operation Mention Mention Mention}
    (hmake : ∀ p t lhs rhs, (make p t lhs rhs).operands = [lhs, rhs] ∧ (make p t lhs rhs).targets = []) :
    Cites kind (compare place unknown make) fun x => references kind x.1.operands x.1.targets := by
  intro s₀ pre
  unfold compare
  refine .bind (cites_of_steady _ s₀ pre) fun _ => .bind (cites_of_steady _ s₀ _) fun pred =>
    .bind (cites_of_steady _ s₀ _) fun t => .bind (cites_pair t s₀ _) fun x => ?_
  dsimp only
  split
  · rename_i p _
    obtain ⟨hoperands, htargets⟩ := hmake p t x.1 x.2
    exact .pure fun s hs => by simpa [references, hoperands, htargets] using hs
  · exact .failAt

theorem cites_incoming (t : Ty) : Cites kind (incoming t) fun x => kind.inValue x.1 ++ kind.inTarget x.2 := by
  intro s₀ pre
  unfold incoming
  refine .bind (cites_of_steady _ s₀ pre) fun _ => .bind (cites_value t s₀ _) fun v =>
    .bind (cites_comma cites_blockName s₀ _) fun source => .bind (cites_of_steady _ s₀ _) fun _ => ?_
  exact .pure fun s hs => by simpa using hs

theorem cites_phi : Cites kind phi fun x => references kind x.1.operands x.1.targets := by
  intro s₀ pre
  unfold phi
  refine .bind (cites_of_steady _ s₀ pre) fun t => .bind (cites_sepBy1 (cites_incoming t) s₀ _) fun xs => ?_
  -- The text has values and blocks in turn, the tree lists the ones and then the others.
  have hmixed : xs.flatMap (fun x => kind.inValue x.1 ++ kind.inTarget x.2) =
      references kind (xs.map (·.1)) (xs.map (·.2)) := by
    rw [List.map_eq_flatMap, List.map_eq_flatMap, references_flatMap]
    exact List.flatMap_congr fun x _ => by simp [references]
  exact .pure fun s hs => by simpa [hmixed, Operation.operands, Operation.targets] using hs

theorem cites_select : Cites kind select fun x => references kind x.1.operands x.1.targets := by
  intro s₀ pre
  unfold select
  refine .bind (cites_operand s₀ pre) fun cond => .bind (cites_comma cites_typedValue s₀ _) fun x =>
    .bind (cites_comma cites_operand s₀ _) fun whenFalse => ?_
  exact .pure fun s hs => by simpa [references, Operation.operands, Operation.targets] using hs

theorem cites_getElementPtr : Cites kind getElementPtr fun x => references kind x.1.operands x.1.targets := by
  intro s₀ pre
  unfold getElementPtr
  refine .bind (cites_of_steady _ s₀ pre) fun _ => .bind (cites_of_steady _ s₀ _) fun t =>
    .bind (cites_comma cites_operand s₀ _) fun ptr => .bind (cites_commaItems cites_operand s₀ _) fun indices => ?_
  exact .pure fun s hs => by simpa [references, Operation.operands, Operation.targets] using hs

theorem cites_extractValue (place : List Char) :
    Cites kind (extractValue place) fun x => references kind x.1.operands x.1.targets := by
  intro s₀ pre
  unfold extractValue
  refine .bind (cites_typedValue s₀ pre) fun x => .bind (cites_of_steady _ s₀ _) fun indices => ?_
  dsimp only
  split
  · exact .pure fun s hs => by simpa [references, Operation.operands, Operation.targets] using hs
  · exact .failAt

theorem cites_insertValue : Cites kind insertValue fun x => references kind x.1.operands x.1.targets := by
  intro s₀ pre
  unfold insertValue
  refine .bind (cites_typedValue s₀ pre) fun x => .bind (cites_comma cites_operand s₀ _) fun v =>
    .bind (cites_of_steady _ s₀ _) fun indices => ?_
  exact .pure fun s hs => by simpa [references, Operation.operands, Operation.targets] using hs

theorem cites_extractElement (place : List Char) :
    Cites kind (extractElement place) fun x => references kind x.1.operands x.1.targets := by
  intro s₀ pre
  unfold extractElement
  refine .bind (cites_typedValue s₀ pre) fun x => .bind (cites_comma cites_operand s₀ _) fun index => ?_
  dsimp only
  split
  · exact .pure fun s hs => by simpa [references, Operation.operands, Operation.targets] using hs
  · exact .failAt

theorem cites_insertElement : Cites kind insertElement fun x => references kind x.1.operands x.1.targets := by
  intro s₀ pre
  unfold insertElement
  refine .bind (cites_typedValue s₀ pre) fun x => .bind (cites_comma cites_operand s₀ _) fun v =>
    .bind (cites_comma cites_operand s₀ _) fun index => ?_
  exact .pure fun s hs => by simpa [references, Operation.operands, Operation.targets] using hs

theorem cites_call : Cites kind call fun x => references kind x.1.operands x.1.targets := by
  intro s₀ pre
  unfold call
  refine .bind (cites_of_steady _ s₀ pre) fun t => .bind (cites_value .ptr s₀ _) fun callee =>
    .bind (cites_of_steady _ s₀ _) fun _ => .bind (cites_listUntil cites_operand s₀ _) fun args => ?_
  exact .pure fun s hs => by simpa [references, Operation.operands, Operation.targets] using hs

theorem cites_operationOf? {place : List Char} {opcode : String} {p : Parser TypedOperation}
    (h : operationOf? place opcode = some p) : Cites kind p fun x => references kind x.1.operands x.1.targets := by
  unfold operationOf? at h
  split at h
  case h_1 => cases h; exact cites_alloca
  case h_2 => cases h; exact cites_load
  case h_3 => cases h; exact cites_store
  case h_4 => cases h; exact cites_compare _ _ fun _ _ _ _ => ⟨rfl, rfl⟩
  case h_5 => cases h; exact cites_compare _ _ fun _ _ _ _ => ⟨rfl, rfl⟩
  case h_6 => cases h; exact cites_phi
  case h_7 => cases h; exact cites_select
  case h_8 => cases h; exact cites_getElementPtr
  case h_9 => cases h; exact cites_extractValue _
  case h_10 => cases h; exact cites_insertValue
  case h_11 => cases h; exact cites_extractElement _
  case h_12 => cases h; exact cites_insertElement
  case h_13 => cases h; exact cites_call
  case h_14 =>
    rw [Option.orElse_eq_orElse, Option.orElse_eq_or, Option.or_eq_some_iff] at h
    rcases h with h | ⟨-, h⟩
    · obtain ⟨op, -, rfl⟩ := Option.map_eq_some_iff.1 h
      exact cites_binary op
    · obtain ⟨op, -, rfl⟩ := Option.map_eq_some_iff.1 h
      exact cites_cast op

/-! ## Terminators -/

theorem cites_branch : Cites kind branch fun t => references kind t.operands t.targets := by
  intro s₀ pre
  unfold branch
  refine .bind (cites_attempt cites_target s₀ pre) fun b => ?_
  cases b with
  | some b => exact .pure fun s hs => by simpa [references, Terminator.operands, Terminator.targets] using hs
  | none =>
    refine .bind (cites_operand s₀ _) fun cond => .bind (cites_comma cites_target s₀ _) fun whenTrue =>
      .bind (cites_comma cites_target s₀ _) fun whenFalse => ?_
    exact .pure fun s hs => by simpa [references, Terminator.operands, Terminator.targets] using hs

/-- The cases of a switch are literals, which have no names. -/
theorem cites_switchCase : Cites kind switchCase fun o => o.elim [] fun x => kind.inTarget x.2 := by
  have hconst (c : Constant) : kind.inValue (.const c) = [] := by cases kind <;> rfl
  intro s₀ pre
  unfold switchCase
  refine .bind (cites_of_steady _ s₀ pre) fun place => .bind (cites_of_steady _ s₀ _) fun closed => ?_
  split
  · exact .pure fun s hs => by simpa using hs
  · refine .bind (cites_operand s₀ _) fun v => ?_
    cases v with
    | const c =>
      exact .bind (cites_comma cites_target s₀ _) fun b => .pure fun s hs => by simpa [hconst] using hs
    | _ => exact .failAt

theorem cites_switch : Cites kind switch fun t => references kind t.operands t.targets := by
  intro s₀ pre
  unfold switch
  refine .bind (cites_operand s₀ pre) fun v => .bind (cites_comma cites_target s₀ _) fun default =>
    .bind (cites_of_steady _ s₀ _) fun _ => .bind (cites_many cites_switchCase s₀ _) fun cases => ?_
  exact .pure fun s hs => by
    simpa [references, Terminator.operands, Terminator.targets, List.flatMap_map] using hs

theorem cites_indirectBranch : Cites kind indirectBranch fun t => references kind t.operands t.targets := by
  intro s₀ pre
  unfold indirectBranch
  refine .bind (cites_operand s₀ pre) fun address => .bind (cites_of_steady _ s₀ _) fun _ =>
    .bind (cites_of_steady _ s₀ _) fun _ => .bind (cites_listUntil cites_target s₀ _) fun targets => ?_
  exact .pure fun s hs => by simpa [references, Terminator.operands, Terminator.targets] using hs

theorem cites_ret : Cites kind ret fun t => references kind t.operands t.targets := by
  intro s₀ pre
  unfold ret
  refine .bind (cites_of_steady _ s₀ pre) fun void => ?_
  split
  · exact .pure fun s hs => hs
  · refine .bind (cites_operand s₀ _) fun v => .pure fun s hs => ?_
    simpa [references, Terminator.operands, Terminator.targets] using hs

theorem cites_terminatorOf? {opcode : String} {p : Parser NamedTerminator} (h : terminatorOf? opcode = some p) :
    Cites kind p fun t => references kind t.operands t.targets := by
  unfold terminatorOf? at h
  split at h
  case h_1 => cases h; exact cites_branch
  case h_2 => cases h; exact cites_switch
  case h_3 => cases h; exact cites_indirectBranch
  case h_4 => cases h; exact cites_ret
  case h_5 =>
    cases h
    exact fun s₀ pre => .pure fun s hs => by simpa [references, Terminator.operands, Terminator.targets] using hs
  case h_6 => cases h

/-! ## Bodies -/

/-- The references of a line. -/
def lineReferences (kind : NameKind) : NamedInstr ⊕ NamedTerminator → List Mention :=
  Sum.elim (NamedInstr.references kind) fun t => references kind t.operands t.targets

theorem cites_line : Cites kind line (lineReferences kind) := by
  intro s₀ pre
  unfold line
  refine .bind (cites_of_steady _ s₀ pre) fun name => .bind (cites_of_steady _ s₀ _) fun _ =>
    .bind (cites_of_steady _ s₀ _) fun place => .bind (cites_of_steady _ s₀ _) fun opcode => ?_
  split
  · rename_i terminator _ hterminator
    dsimp only
    split
    · exact .bind (Q := fun _ _ => False) .failAt fun _ s a r hs => hs.elim
    · -- The name at the left of a line is a definition and no reference.
      refine .bind (cites_terminatorOf? hterminator s₀ _) fun t => .pure fun s hs => ?_
      simpa [lineReferences] using hs
  · rename_i operation hoperation
    refine .bind (cites_operationOf? hoperation s₀ _) fun o => ?_
    split
    · exact .pure fun s hs => by simpa [lineReferences, NamedInstr.references] using hs
    · exact .pure fun s hs => by simpa [lineReferences, NamedInstr.references] using hs
    · exact .failAt
  · exact .failAt

theorem cites_openLine : Cites kind openLine (lineReferences kind) := by
  intro s₀ pre
  unfold openLine
  refine .bind (cites_of_steady _ s₀ pre) fun before => .bind (cites_of_steady _ s₀ _) fun _ =>
    .bind (cites_of_steady _ s₀ _) fun closed => ?_
  dsimp only
  split
  · exact .bind (Q := fun _ _ => False) .fail fun _ s a r hs => hs.elim
  · refine .bind (cites_of_steady _ s₀ _) fun label => ?_
    split
    · exact .bind (Q := fun _ _ => False) .failAt fun _ s a r hs => hs.elim
    · simpa using cites_line s₀ pre

theorem references_block (b : NamedBlock) :
    b.references kind = b.instrs.flatMap (NamedInstr.references kind) ++
      references kind b.terminator.operands b.terminator.targets := by
  rw [NamedBlock.references, NamedBlock.operands, NamedBlock.targets, references_append, references_flatMap]
  rfl

theorem cites_block (label : Option Mention) : Cites kind (block label) (NamedBlock.references kind) := by
  intro s₀ pre
  unfold block
  -- The invariant of the repetition tells the references of the lines so far.
  refine .bind (Q := fun x => Cited kind s₀ (pre ++ (x.1.flatMap (NamedInstr.references kind) ++
    references kind x.2.operands x.2.targets))) ?_ fun x => .pure fun s hs => by rwa [references_block]
  refine .weaken (.collect (I := fun is => Cited kind s₀ (pre ++ is.flatMap (NamedInstr.references kind)))
    fun is => ?_) (fun s hs => by simpa using hs) fun _ _ h => h
  refine (cites_openLine s₀ _).weaken (fun _ hs => hs) fun l r hl => ?_
  cases l with
  | inl i => simpa [lineReferences] using hl
  | inr t => simpa [lineReferences] using hl

theorem cites_laterBlock : Cites kind laterBlock fun o => o.elim [] (NamedBlock.references kind) := by
  intro s₀ pre
  unfold laterBlock
  refine .bind (cites_of_steady _ s₀ pre) fun _ => .bind (cites_of_steady _ s₀ _) fun closed => ?_
  split
  · exact .pure fun s hs => by simpa using hs
  · refine .bind (cites_of_steady _ s₀ _) fun label => ?_
    cases label with
    | none => exact .fail
    | some label => exact .bind (cites_block _ s₀ _) fun b => .pure fun s hs => by simpa using hs

theorem cites_body : Cites kind body fun blocks => blocks.flatMap (NamedBlock.references kind) := by
  intro s₀ pre
  unfold body
  refine .bind (cites_of_steady _ s₀ pre) fun _ => .bind (cites_of_steady _ s₀ _) fun _ =>
    .bind (cites_of_steady _ s₀ _) fun closed => ?_
  dsimp only
  split
  · exact .bind (Q := fun _ _ => False) .fail fun _ s a r hs => hs.elim
  · refine .bind (cites_of_steady _ s₀ _) fun label => .bind (cites_block label s₀ _) fun first =>
      .bind (cites_many cites_laterBlock s₀ _) fun others => ?_
    exact .pure fun s hs => by simpa using hs

/-! ## Items -/

theorem references_definition (h : Head) (blocks : List NamedBlock) :
    (Item.definition h blocks).references kind = blocks.flatMap (NamedBlock.references kind) :=
  references_flatMap kind blocks NamedBlock.operands NamedBlock.targets

theorem cites_global (name : Mention) : Cites kind (global name) fun g => (Item.global g).references kind := by
  intro s₀ pre
  unfold global
  refine .bind (cites_of_steady _ s₀ pre) fun _ => .bind (cites_of_steady _ s₀ _) fun external =>
    .bind (cites_of_steady _ s₀ _) fun _ => .bind (cites_of_steady _ s₀ _) fun t => ?_
  split
  · exact .pure fun s hs => by simpa [Item.references, Item.operands, Item.targets, references] using hs
  · refine .bind (cites_of_steady _ s₀ _) fun place => .bind (cites_value t s₀ _) fun v => ?_
    split
    · exact .failAt
    · exact .pure fun s hs => by simpa [Item.references, Item.operands, Item.targets, references] using hs

theorem cites_item : Cites kind item fun o => o.elim [] (Item.references kind) := by
  intro s₀ pre
  unfold item
  refine .bind (cites_of_steady _ s₀ pre) fun _ => .bind (cites_of_steady _ s₀ _) fun rest => ?_
  split
  · exact .pure fun s hs => by simpa using hs
  · refine .bind (cites_of_steady _ s₀ _) fun define => ?_
    split
    · refine .bind (cites_of_steady _ s₀ _) fun h => .bind (cites_body s₀ _) fun blocks => .pure fun s hs => ?_
      simpa [references_definition] using hs
    · refine .bind (cites_of_steady _ s₀ _) fun declare => ?_
      split
      · refine .bind (cites_of_steady _ s₀ _) fun h => .pure fun s hs => ?_
        simpa [Item.references, Item.operands, Item.targets, references] using hs
      · refine .bind (cites_of_steady _ s₀ _) fun name => ?_
        cases name with
        | none => exact .fail
        | some name => exact .bind (cites_global name s₀ _) fun g => .pure fun s hs => by simpa using hs

/-- The references of a program stand in the text in its order. -/
theorem cited_program (kind : NameKind) {s r : List Char} {items : List Item} (h : program s = .ok (items, r)) :
    Cited kind s (items.flatMap (Item.references kind)) r := by
  have hstart : Cited kind s [] s := ⟨List.suffix_refl s, nofun⟩
  have hitems : Cites kind program fun items => items.flatMap (Item.references kind) := cites_many cites_item
  simpa using hitems s [] s items r hstart h

end SSALint.Source
