/-
Lines that were written: terminators, and instructions with the names of their results. A line is read back
(`reads_line_instr`, `reads_line_terminator`) if its operation is in typed form; a terminator also has to be
distinct from the others.
-/
import SSALint.Proofs.Source.ReadsInstruction

namespace SSALint.Source

theorem typeOf_const (n : Names) (c : Constant) : n.typeOf (.const c) = c.type := by
  unfold Names.typeOf
  cases n.func? <;> rfl

variable {n : Names}

section

variable (hn : n.Spelled)

include hn

/-! ## Jumps -/

theorem reads_commaTarget (b : BlockId) :
    Reads (comma target) (',' :: ' ' :: (n.target b).toList) Stops fun m => m.bare = n.namedLabel b :=
  reads_comma ((reads_target hn b).blank rfl)

theorem reads_branch_br (b : BlockId) :
    Reads branch (' ' :: (n.target b).toList) Stops fun t => bareTerminator t = n.namedTerminator (.br b) := by
  refine ((reads_target hn b).blank rfl).attempt_some.bind_nil ?_
  rintro _ ⟨m, rfl, hm⟩
  exact .pure (congrArg Terminator.br hm)

omit hn in
/-- A condition is not taken for a target. -/
theorem fails_target {cond : Value} (hcond : cond.Typed n.typeOf)
    (hdistinct : ∀ x, cond = .var x → n.typeOf (.var x) ≠ .label) (rest : List Char) :
    Fails target (' ' :: (n.typed cond).toList ++ rest) := by
  by_cases hlabel : n.typeOf cond = .label
  · have htext : ' ' :: (n.typed cond).toList ++ rest =
        ' ' :: "label".toList ++ (' ' :: ((n.value cond).toList ++ rest)) := by
      rw [toList_typed, hlabel]
      simp [Ty.print]
    rw [htext]
    refine ((@reads_keyword "label" ⟨'l', _, rfl, by decide⟩).blank rfl).bind_fails (stops_cons rfl) fun _ _ => ?_
    -- A label that is no local value is undefined, or has a symbol for a name.
    cases cond with
    | var x => exact absurd hlabel (hdistinct x rfl)
    | symbol s =>
      refine fails_sigilName ?_
      show (skipBlanks (' ' :: ((n.symbol s).toList ++ rest))).head? ≠ _
      rw [n.toList_symbol, skipBlanks_blank rfl, List.cons_append, IsVisible.skipBlanks (by decide)]
      simp
    | const c =>
      have hfits : c.Fits .label := by
        have h := hcond.2
        rw [hlabel] at h
        exact h
      rw [typeOf_const] at hlabel
      cases c with
      | undef type =>
        have hword : Fails localName ("undef".toList ++ rest) := fails_sigilName_of_word rfl ⟨'u', _, rfl, rfl⟩
        exact hword.blank rfl
      | float type x => exact absurd hfits.2.1 (by decide)
      | int bits value => cases hlabel
      | null => cases hlabel
  · have hinitial : (n.typeOf cond).initial ≠ 'l' := by
      intro h
      cases ht : n.typeOf cond with
      | label => exact hlabel ht
      | _ => simp [ht, Ty.initial] at h
    refine (fails_keyword ?_).bind _
    rw [toList_typed, ← List.cons_append, List.append_assoc]
    exact dropWord?_print hinitial blanks_one _

theorem reads_branch_condBr {cond : Value} (whenTrue whenFalse : BlockId) (hcond : cond.Typed n.typeOf)
    (hdistinct : ∀ x, cond = .var x → n.typeOf (.var x) ≠ .label) :
    Reads branch (' ' :: (n.typed cond).toList ++ (',' :: ' ' :: (n.target whenTrue).toList ++
      ',' :: ' ' :: (n.target whenFalse).toList)) Stops
      fun t => bareTerminator t = n.namedTerminator (.condBr cond whenTrue whenFalse) := by
  refine (Reads.attempt_none (F := fun s => ∃ rest, s = ' ' :: (n.typed cond).toList ++ rest) ?_).nil_bind ?_ ?_
  · rintro _ ⟨rest, rfl⟩
    exact fails_target hcond hdistinct rest
  · rintro _ rfl
    refine (reads_operand hn blanks_one hcond).bind (fun w hw => ?_) fun _ _ => stops_cons rfl
    refine (reads_commaTarget hn whenTrue).bind (fun b hb => ?_) fun _ _ => stops_cons rfl
    refine (reads_commaTarget hn whenFalse).map fun c hc => ?_
    show Terminator.condBr (bareValue w) b.bare c.bare = _
    rw [hw, hb, hc]
    rfl
  · intro rest _
    exact ⟨_, List.append_assoc _ _ _⟩

theorem reads_indirectBranch {address : Value} (targets : List BlockId) (haddress : address.Typed n.typeOf) :
    Reads indirectBranch (' ' :: (n.typed address).toList ++ (",".toList ++ (' ' :: "[".toList ++
      ((", ".intercalate (targets.map n.target)).toList ++ [']'])))) EndsLine
      fun t => bareTerminator t = n.namedTerminator (.indirectBr address targets) := by
  refine (reads_operand hn blanks_one haddress).bind (fun w hw => ?_) fun _ _ => stops_cons rfl
  refine (@reads_sign "," ⟨',', [], rfl, by decide⟩).bind (fun _ _ => ?_) fun _ _ => trivial
  refine ((@reads_sign "[" ⟨'[', [], rfl, by decide⟩).blank rfl).bind (fun _ _ => ?_) fun _ _ => trivial
  have hlist : Reads (listUntil "]" target) ((", ".intercalate (targets.map n.target)).toList ++ [']']) Anything
      fun ms => ms.map Mention.bare = targets.map n.namedLabel := by
    refine reads_listUntil rfl (by decide) rfl (by decide) (fun b _ => ?_) fun lead hlead b _ =>
      (reads_target hn b).lead hlead
    exact ⟨'l', _, by simp [Names.target]; rfl, by decide, by decide⟩
  refine (hlist.weaken (fun _ _ => trivial) fun _ h => h).map fun ms hms => ?_
  show Terminator.indirectBr (bareValue w) (ms.mapIdx fun _ => Mention.bare) =
    .indirectBr (n.namedValue address) (targets.mapIdx fun _ => n.namedLabel)
  rw [mapIdx_const, mapIdx_const, hw, hms]

/-! ## Switches -/

omit hn in
theorem eq_const_of_bareValue {w : NamedValue} {c : Constant} (h : bareValue w = .const c) : w = .const c := by
  cases w with
  | const d => exact h
  | var x => cases h
  | symbol s => cases h

omit hn in
theorem toList_switchCase (case : Constant × BlockId) : (n.switchCase case).toList =
    (n.typed (.const case.1)).toList ++ ',' :: ' ' :: (n.target case.2).toList := by
  rw [toList_typed, typeOf_const]
  simp [Names.switchCase, Names.value]

theorem reads_switchCase {lead : List Char} (hlead : Blanks lead) {case : Constant × BlockId}
    (hcase : case.1.type.Writable ∧ case.1.Fits case.1.type) :
    Reads switchCase (lead ++ (n.switchCase case).toList) Stops
      fun o => ∃ x, o = some x ∧ (x.1, x.2.bare) = (case.1, n.namedLabel case.2) := by
  obtain ⟨c, b⟩ := case
  have htyped : Operand.Typed n.typeOf (.const c) := by
    unfold Operand.Typed
    rw [typeOf_const]
    exact hcase
  have hinitial : (n.typeOf (.const c)).initial ≠ ']' := by cases n.typeOf (.const c) <;> simp [Ty.initial]
  rw [toList_switchCase, ← List.append_assoc]
  refine (Reads.here (F := Anything)).nil_bind (fun place _ => ?_) fun _ _ => trivial
  refine (Reads.accepts_false fun rest hrest => fails_sign hrest).nil_bind ?_ fun rest _ => ?_
  · rintro _ rfl
    refine (reads_operand hn hlead htyped).bind (fun w hw => ?_) fun _ _ => stops_cons rfl
    obtain rfl := eq_const_of_bareValue hw
    exact (reads_commaTarget hn b).map fun m hm => ⟨_, rfl, congrArg (Prod.mk c) hm⟩
  · rw [toList_typed]
    simp only [List.append_assoc]
    rw [← List.append_assoc]
    exact dropWord?_print hinitial hlead _

theorem reads_switch {v : Value} (default : BlockId) {cases : List (Constant × BlockId)} (hv : v.Typed n.typeOf)
    (hcases : ∀ case ∈ cases, case.1.type.Writable ∧ case.1.Fits case.1.type) :
    Reads switch (' ' :: (n.typed v).toList ++ (',' :: ' ' :: (n.target default).toList ++ (' ' :: "[".toList ++
      ((" ".intercalate (cases.map n.switchCase)).toList ++ [']'])))) EndsLine
      fun t => bareTerminator t = n.namedTerminator (.switch v default cases) := by
  refine (reads_operand hn blanks_one hv).bind (fun w hw => ?_) fun _ _ => stops_cons rfl
  refine (reads_commaTarget hn default).bind (fun b hb => ?_) fun _ _ => stops_cons rfl
  refine ((@reads_sign "[" ⟨'[', [], rfl, by decide⟩).blank rfl).bind (fun _ _ => ?_) fun _ _ => trivial
  have hlast : Reads switchCase [']'] Anything (· = none) := by
    refine (Reads.here (F := Anything)).nil_bind (fun place _ => ?_) fun _ _ => trivial
    refine (@reads_sign "]" ⟨']', [], rfl, by decide⟩).accepts_true.bind_nil ?_
    rintro _ rfl
    exact .pure rfl
  have hitems : Reads (Parser.many switchCase) ((" ".intercalate (cases.map n.switchCase)).toList ++ [']']) Anything
      fun as => as.map (fun x => (x.1, x.2.bare)) = cases.map fun x => (x.1, n.namedLabel x.2) := by
    cases cases with
    | nil =>
      refine (Reads.many_nil hlast).weaken (fun _ h => h) ?_
      rintro _ rfl
      rfl
    | cons case cases =>
      obtain ⟨hcase, hcases⟩ := List.forall_mem_cons.1 hcases
      rw [toList_intercalate_cons, List.append_assoc]
      refine Reads.manyFrom (reads_switchCase hn blanks_nil hcase) (fun x hx => reads_switchCase hn blanks_one
        (hcases x hx)) ?_ (fun _ _ => List.cons_ne_nil _ _) (fun _ _ _ => stops_cons rfl) hlast
        fun _ _ => stops_cons rfl
      rw [toList_switchCase]
      simp
  refine (hitems.weaken (fun _ _ => trivial) fun _ h => h).map fun as has => ?_
  show Terminator.switch (bareValue w) b.bare (as.mapIdx fun _ x => (x.1, x.2.bare)) =
    .switch (n.namedValue v) (n.namedLabel default) (cases.mapIdx fun _ x => (x.1, n.namedLabel x.2))
  rw [mapIdx_const, mapIdx_const, hw, hb, has]

/-! ## Returns -/

theorem reads_ret {v : Value} (hv : v.Typed n.typeOf) (hdistinct : n.typeOf v ≠ .void) :
    Reads ret (' ' :: (n.typed v).toList) Stops fun t => bareTerminator t = n.namedTerminator (.ret (some v)) := by
  have hinitial : (n.typeOf v).initial ≠ 'v' := by
    intro h
    cases ht : n.typeOf v with
    | void => exact hdistinct ht
    | _ => simp [ht, Ty.initial] at h
  refine (Reads.accepts_false fun rest hrest => fails_keyword hrest).nil_bind ?_ fun rest _ => ?_
  · rintro _ rfl
    refine (reads_operand hn blanks_one hv).map fun w hw => ?_
    exact congrArg (fun w => Terminator.ret (some w)) hw
  · rw [toList_typed, ← List.cons_append, List.append_assoc]
    exact dropWord?_print hinitial blanks_one _

omit hn in
theorem reads_ret_void : Reads ret (' ' :: "void".toList) Stops (· = .ret none) := by
  refine ((@reads_keyword "void" ⟨'v', _, rfl, by decide⟩).blank rfl).accepts_true.bind_nil ?_
  rintro _ rfl
  exact .pure rfl

/-! ## Terminators -/

/-- The text of a terminator in typed form is its opcode and what the opcode calls for. -/
theorem reads_terminator {t : Terminator LocalId Symbol BlockId} (h : t.Typed n.typeOf)
    (hdistinct : t.Distinct n.typeOf) :
    ∃ opcode text p, (n.terminator t).toList = opcode.toList ++ text ∧ IsWord opcode ∧
      (∀ rest, EndsLine rest → Stops (text ++ rest) ∧ (text ++ rest).head? ≠ some ':') ∧
      terminatorOf? opcode = some p ∧ Reads p text EndsLine fun u => bareTerminator u = n.namedTerminator t := by
  have hblank : ∀ (text rest : List Char), EndsLine rest →
      Stops (' ' :: text ++ rest) ∧ (' ' :: text ++ rest).head? ≠ some ':' :=
    fun text rest _ => ⟨stops_cons rfl, by simp⟩
  have hends : ∀ {p : Parser NamedTerminator} {text : List Char} {Q}, Reads p text Stops Q → Reads p text EndsLine Q :=
    fun hp => hp.weaken (fun _ hrest => hrest.stops) fun _ hq => hq
  cases t with
  | br b =>
    refine ⟨"br", _, branch, ?_, isWord_of_all (by decide) (by decide), hblank _, rfl, hends (reads_branch_br hn b)⟩
    simp [Names.terminator]
  | condBr cond whenTrue whenFalse =>
    have hcond : ∀ x, cond = .var x → n.typeOf (.var x) ≠ .label := by
      rintro x rfl
      exact hdistinct
    refine ⟨"br", _, branch, ?_, isWord_of_all (by decide) (by decide), hblank _, rfl,
      hends (reads_branch_condBr hn whenTrue whenFalse h hcond)⟩
    simp [Names.terminator]
  | switch v default cases =>
    refine ⟨"switch", _, switch, ?_, isWord_of_all (by decide) (by decide), hblank _, rfl,
      reads_switch hn default h.1 h.2⟩
    simp [Names.terminator]
  | indirectBr address targets =>
    refine ⟨"indirectbr", _, indirectBranch, ?_, isWord_of_all (by decide) (by decide), hblank _, rfl,
      reads_indirectBranch hn targets h⟩
    simp [Names.terminator]
  | ret value =>
    cases value with
    | none =>
      refine ⟨"ret", _, ret, ?_, isWord_of_all (by decide) (by decide), hblank _, rfl, hends (reads_ret_void.weaken
        (fun _ h => h) ?_)⟩
      · simp [Names.terminator]
      · rintro _ rfl
        rfl
    | some v =>
      refine ⟨"ret", _, ret, ?_, isWord_of_all (by decide) (by decide), hblank _, rfl,
        hends (reads_ret hn (h v rfl) hdistinct)⟩
      simp [Names.terminator]
  | unreachable =>
    refine ⟨"unreachable", [], pure .unreachable, (List.append_nil _).symm, isWord_of_all (by decide) (by decide),
      fun rest hrest => ?_, rfl, .pure rfl⟩
    refine ⟨hrest.stops, ?_⟩
    show rest.head? ≠ _
    rw [hrest.newline]
    decide

/-! ## Lines -/

instance (name : Option Mention) : Lead (lineBehind name) := inferInstanceAs (Lead (blanks >>= fun _ => _))

theorem reads_lineBehind {o : Operation LocalId Symbol BlockId} (h : o.Typed n.typeOf) (name : Option Mention)
    (result : Option NamedResult)
    (hresult : result = name.bind fun m => (o.resultType? n.typeOf).map fun t => ⟨m, t⟩)
    (hname : name.isSome = result.isSome) :
    Reads (lineBehind name) (n.operation o).toList EndsLine
      fun x => ∃ i, x = .inl i ∧ i.result = result ∧ bareOperation i.operation = n.namedOperation o := by
  have hshow : ∃ text, (n.operation o).toList = o.opcode.toList ++ text := by
    obtain ⟨text, htext, -⟩ := reads_arguments hn [] h
    exact ⟨_, htext⟩
  refine reads_blanks.nil_bind (fun _ _ => ?_) fun rest _ => ?_
  · refine (Reads.here (F := Anything)).nil_bind (fun place _ => ?_) fun _ _ => trivial
    obtain ⟨text, htext, p, hp, hreads⟩ := reads_arguments hn place h
    rw [htext]
    refine (reads_word (isWord_opcode o)).bind ?_ fun _ _ => stops_cons rfl
    rintro _ rfl
    rw [terminatorOf?_opcode, hp]
    refine hreads.bind_nil ?_
    rintro ⟨o', t⟩ ⟨ho, rfl⟩
    cases name with
    | none => exact .pure ⟨_, rfl, hresult.symm, ho⟩
    | some m =>
      cases ht : o.resultType? n.typeOf with
      | none =>
        rw [hresult, ht] at hname
        cases hname
      | some t =>
        rw [ht] at hresult
        exact .pure ⟨_, rfl, hresult.symm, ho⟩
  · obtain ⟨text, htext⟩ := hshow
    rw [htext, List.append_assoc]
    exact (isWord_opcode o).shows.append _

theorem beginsWord_operation {o : Operation LocalId Symbol BlockId} (h : o.Typed n.typeOf) :
    BeginsWord (n.operation o).toList := by
  obtain ⟨text, htext, -⟩ := reads_arguments hn [] h
  rw [htext]
  exact (isWord_opcode o).beginsWord.append _

omit hn in
theorem reads_resultName_none {text : List Char} {F : List Char → Prop} {Q : NamedInstr ⊕ NamedTerminator → Prop}
    (hword : BeginsWord text) (h : Reads (lineBehind none) text F Q) : Reads line text F Q := by
  have hname : Reads resultName [] (fun s => BeginsWord s) (· = none) := by
    refine (Reads.attempt_none fun s hs => fails_sigilName_of_word rfl hs).bind_nil ?_
    rintro _ rfl
    exact .pure rfl
  refine hname.nil_bind ?_ fun rest _ => hword.append rest
  rintro _ rfl
  exact h

/-- An instruction is read back with its result. -/
theorem reads_line_instr {i : Instr} (h : i.operation.Typed n.typeOf)
    (hresult : ∀ x, i.result = some x → i.operation.resultType? n.typeOf = some (n.typeOf (.var x))) :
    Reads line (n.instr i).toList EndsLine fun x => ∃ j, x = .inl j ∧ j.bare = n.namedInstr i := by
  obtain ⟨result, o⟩ := i
  cases result with
  | none =>
    refine reads_resultName_none (beginsWord_operation hn h) ?_
    refine (reads_lineBehind hn h none none rfl rfl).weaken (fun _ h => h) ?_
    rintro _ ⟨j, rfl, hj, ho⟩
    refine ⟨j, rfl, ?_⟩
    unfold NamedInstr.bare Names.namedInstr
    rw [hj, ho]
    rfl
  | some x =>
    have htype := hresult x rfl
    have htext : (n.instr ⟨some x, o⟩).toList =
        '%' :: (n.localText x).toList ++ (' ' :: '=' :: []) ++ ' ' :: (n.operation o).toList := by
      simp [Names.instr, n.toList_localName]
    have hname : Reads resultName ('%' :: (n.localText x).toList ++ (' ' :: '=' :: [])) Anything
        fun m => ∃ k, m = some k ∧ k.name = n.localText x := by
      refine (reads_sigilName (by decide) (hn.localText x)).attempt_some.bind ?_ fun _ _ => stops_cons rfl
      rintro _ ⟨m, rfl, hm⟩
      exact ((@reads_sign "=" ⟨'=', [], rfl, by decide⟩).blank rfl).map fun _ _ => ⟨m, rfl, hm⟩
    rw [htext]
    refine hname.bind ?_ fun _ _ => trivial
    rintro _ ⟨m, rfl, hm⟩
    refine ((reads_lineBehind hn h (some m) (some ⟨m, n.typeOf (.var x)⟩) ?_ rfl).blank rfl).weaken
      (fun _ h => h) ?_
    · rw [htype]
      rfl
    · rintro _ ⟨j, rfl, hj, ho⟩
      refine ⟨j, rfl, ?_⟩
      unfold NamedInstr.bare Names.namedInstr
      rw [hj, ho]
      exact congrArg (fun name => (⟨some ⟨.of name, n.typeOf (.var x)⟩, n.namedOperation o⟩ : NamedInstr)) hm

/-- A terminator in typed form that is distinct from others is read back. -/
theorem reads_line_terminator {t : Terminator LocalId Symbol BlockId} (h : t.Typed n.typeOf)
    (hdistinct : t.Distinct n.typeOf) :
    Reads line (n.terminator t).toList EndsLine fun x => ∃ u, x = .inr u ∧ bareTerminator u = n.namedTerminator t := by
  obtain ⟨opcode, text, p, htext, hopcode, hends, hp, hreads⟩ := reads_terminator hn h hdistinct
  rw [htext]
  refine reads_resultName_none (hopcode.beginsWord.append _) ?_
  refine reads_blanks.nil_bind (fun _ _ => ?_) fun rest _ => ((hopcode.beginsWord.append _).append rest).shows
  refine (Reads.here (F := Anything)).nil_bind (fun place _ => ?_) fun _ _ => trivial
  refine (reads_word hopcode).bind ?_ fun rest hrest => (hends rest hrest).1
  rintro _ rfl
  rw [hp]
  exact hreads.map fun u hu => ⟨u, rfl, hu⟩

end

end SSALint.Source
