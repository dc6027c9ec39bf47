/-
Values that were written. A value is read back under a type that its literal fits (`reads_value`), and behind its
own type if that can be written (`reads_typedValue`). Rows of values are read with what separates them.
-/
import SSALint.Proofs.Source.ReadsDouble
import SSALint.Proofs.Source.ReadsType
import SSALint.Proofs.Source.Unresolved

namespace SSALint.Source

/-! ## Literals -/

instance (t : Ty) : Lead (value t) := inferInstanceAs (Lead (blanks >>= fun _ => _))

theorem reads_literalWord {t : Ty} {name : String} (hname : IsWord name) {c : Constant}
    (h : literalWord? t name = some c) : Reads (literalWord t) name.toList Stops (· = c) := by
  refine (reads_word hname).bind_nil ?_
  rintro _ rfl
  rw [h]
  exact .pure rfl

/-- A word that begins like a number is no literal of the other kind. -/
theorem fails_literalWord {t : Ty} {s : List Char} (h : BeginsNumber s) : Fails (literalWord t) s := by
  obtain ⟨c, r, rfl, hc⟩ := h
  have hword : isWordChar c = true := by
    rcases hc with hc | rfl
    · exact isWordChar_of_isDigit hc
    · rfl
  have hne : ∀ (cs : List Char) (word : String), (word.toList.head?.all fun d => !d.isDigit && d != '-') = true →
      String.ofList (c :: cs) ≠ word := by
    rintro cs word hword rfl
    rw [String.toList_ofList] at hword
    obtain ⟨hdigit, hminus⟩ : c.isDigit = false ∧ c ≠ '-' := by simpa using hword
    rcases hc with hc | hc
    · rw [hc] at hdigit
      cases hdigit
    · exact hminus hc
  have hnone : ∀ cs, literalWord? t (String.ofList (c :: cs)) = none := by
    intro cs
    unfold literalWord?
    split
    case h_5 => rfl
    all_goals
      rename_i hliteral
      exact absurd hliteral (hne cs _ (by decide))
  have hname : IsWord (String.ofList (c :: r.takeWhile isWordChar)) := by
    constructor <;> rw [String.toList_ofList]
    · exact List.cons_ne_nil _ _
    · exact List.forall_mem_cons.2 ⟨hword, List.all_eq_true.1 List.all_takeWhile⟩
  have hstops : Stops (r.dropWhile isWordChar) := fun d hd => by
    have hhead := List.head?_dropWhile_not isWordChar r
    rw [hd] at hhead
    simpa using hhead
  have htext : c :: r = (String.ofList (c :: r.takeWhile isWordChar)).toList ++ r.dropWhile isWordChar := by
    rw [String.toList_ofList, List.cons_append, List.takeWhile_append_dropWhile]
  rw [htext]
  refine (reads_word hname).bind_fails hstops ?_
  rintro _ rfl
  simp only [hnone]
  exact ⟨_, rfl⟩

theorem reads_value_of_literal {t : Ty} {text : List Char} {Q : NamedValue → Prop} (hword : BeginsWord text)
    (h : Reads (literal t) text Stops Q) : Reads (value t) text Stops Q := by
  refine reads_blanks.nil_bind (fun _ _ => ?_) fun rest _ => hword.shows.append rest
  refine (Reads.attempt_none fun rest => fails_sigilName_of_word rfl).nil_bind ?_ fun rest _ => hword.append rest
  rintro _ rfl
  refine (Reads.attempt_none fun rest => fails_sigilName_of_word rfl).nil_bind ?_ fun rest _ => hword.append rest
  rintro _ rfl
  exact h

theorem reads_value_word {t : Ty} {c : Constant} {name : String} (hname : IsWord name)
    (h : literalWord? t name = some c) : Reads (value t) name.toList Stops (· = .const c) := by
  refine reads_value_of_literal hname.beginsWord ((reads_literalWord hname h).attempt_some.bind_nil ?_)
  rintro _ ⟨_, rfl, rfl⟩
  exact .pure rfl

theorem reads_value_number {t : Ty} {c : Constant} {text : List Char} (hhead : BeginsNumber text)
    (h : Reads (number t) text Stops (· = c)) : Reads (value t) text Stops (· = .const c) := by
  refine reads_value_of_literal hhead.beginsWord ((Reads.attempt_none fun rest => fails_literalWord).nil_bind ?_ ?_)
  · rintro _ rfl
    exact h.map fun _ hc => congrArg _ hc
  · obtain ⟨d, r, rfl, hkind⟩ := hhead
    exact fun rest _ => ⟨d, r ++ rest, rfl, hkind⟩

/-- A literal is read back under a type that it fits. -/
theorem reads_value_const {t : Ty} {c : Constant} (h : c.Fits t) :
    Reads (value t) c.print.toList Stops (· = .const c) := by
  have hword : ∀ name : String, name.toList ≠ [] → name.toList.all isWordChar = true →
      literalWord? t name = some c → Reads (value t) name.toList Stops (· = .const c) :=
    fun name hne hall => reads_value_word (isWord_of_all hne hall)
  cases c with
  | null => exact hword "null" (by decide) (by decide) rfl
  | undef type =>
    obtain rfl : type = t := h
    exact hword "undef" (by decide) (by decide) rfl
  | int bits value =>
    have h : if bits = 1 then value = 0 ∨ value = 1 else t = .int bits := h
    by_cases hbits : bits = 1
    · subst hbits
      rcases h with rfl | rfl
      · exact hword "false" (by decide) (by decide) rfl
      · exact hword "true" (by decide) (by decide) rfl
    · rw [if_neg hbits] at h
      subst h
      have hprint : (Constant.int bits value).print = toString value.toInt := if_neg hbits
      rw [hprint]
      exact reads_value_number (beginsNumber_toString_int _) ((reads_signed value).map fun _ hv => congrArg _ hv)
  | float type x =>
    obtain ⟨rfl, hfloat, hfinite⟩ := h
    have hmap : Reads (Constant.float type <$> float) x.print.toList Stops (· = .float type x) :=
      (reads_float hfinite).map fun _ hx => congrArg _ hx
    refine reads_value_number (beginsNumber_print hfinite) ?_
    cases type with
    | half | float | double => exact hmap
    | _ => cases hfloat

/-! ## Values -/

variable {n : Names} (hn : n.Spelled)

include hn

/-- A value is read back under a type that its literal fits. -/
theorem reads_value {t : Ty} {v : Value} (h : v.Fits t) :
    Reads (value t) (n.value v).toList Stops fun w => bareValue w = n.namedValue v := by
  cases v with
  | const c =>
    refine (reads_value_const h).weaken (fun _ h => h) ?_
    rintro _ rfl
    rfl
  | var x =>
    show Reads _ (n.localName x).toList _ _
    rw [n.toList_localName]
    refine reads_blanks.nil_bind (fun _ _ => ?_) fun rest _ => ⟨'%', _, rfl, by decide⟩
    refine (reads_sigilName (by decide) (hn.localText x)).attempt_some.bind_nil ?_
    rintro _ ⟨m, rfl, hm⟩
    exact .pure (congrArg (fun name => Operand.var (Mention.of name)) hm)
  | symbol s =>
    show Reads _ (n.symbol s).toList _ _
    rw [n.toList_symbol]
    refine reads_blanks.nil_bind (fun _ _ => ?_) fun rest _ => ⟨'@', _, rfl, by decide⟩
    have hlocal : ∀ rest : List Char, (skipBlanks rest).head? ≠ some '%' → Fails localName rest :=
      fun _ => fails_sigilName
    refine (Reads.attempt_none hlocal).nil_bind ?_ fun rest _ => ?_
    · rintro _ rfl
      refine (reads_sigilName (by decide) (hn.symbolText s)).attempt_some.bind_nil ?_
      rintro _ ⟨m, rfl, hm⟩
      exact .pure (congrArg (fun name => Operand.symbol (Mention.of name)) hm)
    · rw [List.cons_append, IsVisible.skipBlanks (by decide)]
      simp

omit hn in
theorem toList_typed (v : Value) :
    (n.typed v).toList = (n.typeOf v).print.toList ++ ' ' :: (n.value v).toList := by
  simp [Names.typed, String.toList_append]

/-- A value behind its own type is read back with the type. -/
theorem reads_typedValue {lead : List Char} (hlead : Blanks lead) {v : Value} (h : v.Typed n.typeOf) :
    Reads typedValue (lead ++ (n.typed v).toList) Stops
      fun x => x.1 = n.typeOf v ∧ bareValue x.2 = n.namedValue v := by
  rw [toList_typed, ← List.append_assoc]
  refine (reads_ty hlead h.1).bind ?_ fun _ _ => stops_cons rfl
  rintro _ rfl
  exact ((reads_value hn h.2).blank rfl).map fun w hw => ⟨rfl, hw⟩

theorem reads_operand {lead : List Char} (hlead : Blanks lead) {v : Value} (h : v.Typed n.typeOf) :
    Reads operand (lead ++ (n.typed v).toList) Stops fun w => bareValue w = n.namedValue v :=
  (reads_typedValue hn hlead h).map fun _ hx => hx.2

omit hn in
theorem reads_comma {α : Type} {p : Parser α} {text : List Char} {F : List Char → Prop} {Q : α → Prop}
    (h : Reads p text F Q) : Reads (comma p) (',' :: text) F Q :=
  (@reads_sign "," ⟨',', [], rfl, by decide⟩).bind (fun _ _ => h) fun _ _ => trivial

theorem reads_commaOperand {v : Value} (h : v.Typed n.typeOf) :
    Reads (comma operand) (',' :: ' ' :: (n.typed v).toList) Stops fun w => bareValue w = n.namedValue v :=
  reads_comma (reads_operand hn blanks_one h)

instance (t : Ty) : Lead (pair t) := inferInstanceAs (Lead (value t >>= fun _ => _))

theorem reads_pair {t : Ty} {lhs rhs : Value} (hlhs : lhs.Fits t) (hrhs : rhs.Fits t) :
    Reads (pair t) ((n.value lhs).toList ++ (',' :: ' ' :: (n.value rhs).toList)) Stops
      fun x => bareValue x.1 = n.namedValue lhs ∧ bareValue x.2 = n.namedValue rhs := by
  refine (reads_value hn hlhs).bind (fun _ hw => ?_) fun _ _ => stops_cons rfl
  exact (reads_comma ((reads_value hn hrhs).blank rfl)).map fun _ hu => ⟨hw, hu⟩

/-! ## Targets -/

instance : Lead target := inferInstanceAs (Lead (keyword "label" >>= fun _ => _))

theorem reads_target (b : BlockId) :
    Reads target (n.target b).toList Stops fun m => m.bare = n.namedLabel b := by
  have htext : (n.target b).toList = "label".toList ++ (' ' :: '%' :: (n.label b).toList) := by
    simp [Names.target, String.toList_append]
  rw [htext]
  refine (@reads_keyword "label" ⟨'l', _, rfl, by decide⟩).bind (fun _ _ => ?_) fun _ _ => stops_cons rfl
  exact (reads_sigilName (by decide) (hn.label b)).blank rfl |>.weaken (fun _ h => h) fun m hm => congrArg Mention.of hm

/-! ## Lists -/

/-- Values behind a comma each, to the end of a line. -/
theorem reads_commaOperands {vs : List Value} (h : ∀ v ∈ vs, v.Typed n.typeOf) :
    Reads (commaItems operand) (vs.flatMap fun v => [','] ++ ' ' :: (n.typed v).toList) EndsLine
      fun ws => ws.map bareValue = vs.map n.namedValue := by
  have hitem : ∀ v ∈ vs, Reads operand (' ' :: (n.typed v).toList) Stops fun w => bareValue w = n.namedValue v :=
    fun v hv => reads_operand hn blanks_one (h v hv)
  exact Reads.manyBehind (@reads_sign "," ⟨',', [], rfl, by decide⟩) (by decide) (fun _ => stops_cons rfl)
    (fun rest hrest => ⟨hrest.stops, fails_sign (dropWord?_of_head hrest.noComma)⟩) hitem

end SSALint.Source
