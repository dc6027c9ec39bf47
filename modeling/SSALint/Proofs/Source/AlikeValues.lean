/-
Numbers, types and values in texts that are read alike. They are the same in both texts, and so are names up to their
places (`simulates_value`, `simulates_listUntil`).
-/
import SSALint.Proofs.Source.Alike
import SSALint.Proofs.Source.Progress

namespace SSALint.Source

variable {R : List Char → List Char → Prop} [Alike R]

/-! ## Numbers -/

theorem isVisible_of_isDigit {c : Char} (h : c.isDigit = true) : IsVisible c :=
  isVisible_of_isWordChar (isWordChar_of_isDigit h)

theorem mirrors_digits : Parser.Mirrors R R digits digits (id : List Char → List Char) :=
  mirrors_run (fun _ => isVisible_of_isDigit) .digit

theorem simulates_unsigned : Parser.Simulates R R unsigned unsigned (id : UInt64 → UInt64) := by
  refine .blanks ⟨_, rfl⟩ (.firm (.here fun place place' _ => ?_))
  exact mirrors_digits.simulates.bind_same fun ds => .ite (.value rfl) .failAt

theorem mirrors_signOf {signs : List Char} (h : Solid signs) :
    Parser.Mirrors R R (signOf signs) (signOf signs) (id : Option Char → Option Char) where
  simulates s s' a r hs hp := by
    have hnone : ∀ u : List Char, Separated u → signOf signs u = .ok (none, u) := by
      intro u hu
      cases u with
      | nil => rfl
      | cons c u => exact if_neg fun hc => hu c rfl (h.visible c hc)
    rcases Alike.head hs with ⟨c, t, t', -, rfl, rfl, ht⟩ | ⟨hseparated, hseparated'⟩
    · unfold signOf at hp ⊢
      simp only at hp ⊢
      split at hp
      · cases hp
        exact ⟨_, t', if_pos ‹_›, rfl, ht⟩
      · cases hp
        exact ⟨_, _, if_neg ‹_›, rfl, hs⟩
    · rw [hnone s hseparated] at hp
      cases hp
      exact ⟨none, s', hnone s' hseparated', rfl, hs⟩
  fails s s' hs hp := by
    obtain ⟨e, he⟩ := hp
    unfold signOf at he
    split at he
    · split at he <;> cases he
    · cases he

theorem simulates_signed : Parser.Simulates R R signed signed (id : Int64 → Int64) := by
  refine .blanks ⟨_, rfl⟩ (.firm (.here fun place place' _ => ?_))
  refine (mirrors_signOf (by decide)).simulates.bind_same fun minus => ?_
  exact mirrors_digits.simulates.bind_same fun ds => .ite (.value rfl) .failAt

theorem isVisible_of_isHexDigit {c : Char} (h : isHexDigit c = true) : IsVisible c :=
  isVisible_of (by simp [isHexDigit]) h

theorem Alike.take {p : Char → Bool} (hp : ∀ c, p c = true → IsVisible c) {n : Nat} {s s' : List Char} (h : R s s')
    (hlength : (s.take n).length = n) (hall : (s.take n).all p = true) :
    s'.take n = s.take n ∧ R (s.drop n) (s'.drop n) := by
  induction n generalizing s s' with
  | zero => exact ⟨rfl, h⟩
  | succ n ih =>
    cases s with
    | nil => cases hlength
    | cons c t =>
      rw [List.take_succ_cons, List.all_cons, Bool.and_eq_true] at hall
      rcases Alike.head h with ⟨d, u, t', -, heq, rfl, ht⟩ | ⟨hseparated, -⟩
      · cases heq
        obtain ⟨htake, hdrop⟩ := ih ht (Nat.succ.inj hlength) hall.2
        exact ⟨congrArg (c :: ·) htake, hdrop⟩
      · exact absurd (hp c hall.1) (hseparated c rfl)

theorem simulates_hexDigits : Parser.Simulates R R hexDigits hexDigits (id : List Char → List Char) := by
  intro s s' a r hs hp
  unfold hexDigits at hp ⊢
  dsimp only at hp ⊢
  split at hp
  · rename_i hhex
    cases hp
    obtain ⟨htake, hdrop⟩ := Alike.take (fun _ => isVisible_of_isHexDigit) hs hhex.1 hhex.2
    rw [htake, if_pos hhex]
    exact ⟨_, _, rfl, rfl, hdrop⟩
  · cases hp

theorem simulates_fraction : Parser.Simulates R R fraction fraction (id : List Char → List Char) := by
  intro s s' a r hs hp
  have hnone : ∀ u : List Char, Separated u → fraction u = .ok ([], u) := by
    intro u hu
    unfold fraction
    split
    · exact absurd (by decide) (hu '.' rfl)
    · rfl
  rcases Alike.head hs with ⟨c, t, t', -, rfl, rfl, ht⟩ | ⟨hseparated, hseparated'⟩
  · by_cases hc : c = '.'
    · subst hc
      cases hp
      obtain ⟨htake, hdrop⟩ := Alike.takeWhile (fun _ => isVisible_of_isDigit) ht
      exact ⟨t'.takeWhile Char.isDigit, _, rfl, htake, hdrop⟩
    · have hother : ∀ u, fraction (c :: u) = .ok ([], c :: u) := by
        intro u
        unfold fraction
        split
        · rename_i heq
          cases heq
          exact absurd rfl hc
        · rfl
      rw [hother] at hp
      cases hp
      exact ⟨[], _, hother t', rfl, hs⟩
  · rw [hnone s hseparated] at hp
    cases hp
    exact ⟨[], s', hnone s' hseparated', rfl, hs⟩

theorem mirrors_power : Parser.Mirrors R R power power (id : Int → Int) := by
  have hsigns : Parser.Mirrors R R (signOf ['+', '-']) (signOf ['+', '-']) (id : Option Char → Option Char) :=
    mirrors_signOf (by decide)
  refine (mirrors_signOf (by decide)).bind_same fun e => ?_
  dsimp only
  split
  · exact .bind_same .fail fun _ => hsigns.bind_same fun sign => mirrors_digits.bind_same fun ds => .value rfl
  · exact hsigns.bind_same fun sign => mirrors_digits.bind_same fun ds => .value rfl

theorem simulates_exponent : Parser.Simulates R R exponent exponent (id : Int → Int) :=
  .attempt_same (R := R) mirrors_power (fun _ => .value rfl) (.value rfl)

theorem simulates_decimal : Parser.Simulates R R decimal decimal (id : Double → Double) := by
  refine (mirrors_signOf (by decide)).simulates.bind_same fun sign => ?_
  refine mirrors_digits.simulates.bind_same fun whole => simulates_fraction.bind_same fun part => ?_
  exact simulates_exponent.map_same fun power => rfl

theorem simulates_float : Parser.Simulates R R float float (id : Double → Double) := by
  refine .blanks ⟨_, rfl⟩ (.firm (.here fun place place' _ => ?_))
  refine .accepts (mirrors_exactly (by decide)) (simulates_hexDigits.bind_same fun ds => ?_) simulates_decimal
  split
  · exact .value rfl
  · exact .failAt

/-! ## Types -/

theorem simulates_simpleTy : Parser.Simulates R R simpleTy simpleTy (id : Ty → Ty) := by
  refine .here fun place place' _ => mirrors_word.simulates.bind_same fun name => ?_
  split
  · exact .value rfl
  · exact .failAt

theorem simulates_listUntil {closing : String} (hclosing : IsInner closing) {α γ : Type} {p p' : Parser α}
    {view : α → γ} [Parser.Steady p'] [Parser.Consumes p'] (h : Parser.Simulates R R p p' view) :
    Parser.Simulates R R (listUntil closing p) (listUntil closing p') (List.map view) :=
  .accepts (mirrors_sign hclosing) (.value rfl) <|
    (Parser.Simulates.sepBy1 (mirrors_sign (by decide)) h).bind fun _ _ hitems =>
      (simulates_sign hclosing).map fun _ _ _ => hitems

theorem simulates_elements {closing : String} (hclosing : IsInner closing) {make : UInt64 → Ty → Ty}
    {inner inner' : Parser Ty} (h : Parser.Simulates R R inner inner' (id : Ty → Ty)) :
    Parser.Simulates R R (elements closing make inner) (elements closing make inner') (id : Ty → Ty) := by
  refine simulates_unsigned.bind_same fun length => (simulates_keyword (by decide)).bind_same fun _ => ?_
  exact h.bind_same fun elem => (simulates_sign hclosing).map_same fun _ => rfl

theorem simulates_tyStep {inner inner' : Parser Ty} [Parser.Steady inner'] [Parser.Consumes inner']
    (h : Parser.Simulates R R inner inner' (id : Ty → Ty)) :
    Parser.Simulates R R (tyStep inner) (tyStep inner') (id : Ty → Ty) := by
  refine .blanks ⟨_, rfl⟩ (.firm ?_)
  refine .accepts (mirrors_exactly (by decide)) (simulates_elements (by decide) h) ?_
  refine .accepts (mirrors_exactly (by decide)) (simulates_elements (by decide) h) ?_
  refine .accepts (mirrors_exactly (by decide)) ?_ simulates_simpleTy
  refine (simulates_listUntil (by decide) h).map fun fields fields' hfields => ?_
  rw [List.map_id, List.map_id] at hfields
  exact congrArg Ty.struct hfields

theorem simulates_ty : Parser.Simulates R R ty ty (id : Ty → Ty) := by
  -- The bound of the first text serves; the second one needs none.
  have hwithin : ∀ depth, Parser.Simulates R R (tyWithin depth) ty (id : Ty → Ty) := by
    intro depth
    induction depth with
    | zero => exact .fail
    | succ depth ih =>
      rw [ty_eq]
      exact simulates_tyStep ih
  exact fun s s' t r hs h => hwithin (s.length + 1) s s' t r hs h

/-! ## Values -/

theorem mirrors_literalWord (t : Ty) :
    Parser.Mirrors R R (literalWord t) (literalWord t) (id : Constant → Constant) := by
  refine mirrors_word.bind_same fun name => ?_
  split
  · exact .value rfl
  · exact .fail

theorem simulates_number (t : Ty) : Parser.Simulates R R (number t) (number t) (id : Constant → Constant) := by
  unfold number
  split
  · exact simulates_float.map_same fun _ => rfl
  · exact simulates_float.map_same fun _ => rfl
  · exact simulates_float.map_same fun _ => rfl
  · exact simulates_signed.map_same fun _ => rfl
  · exact .fail

theorem simulates_value (t : Ty) : Parser.Simulates R R (value t) (value t) bareValue := by
  refine .blanks (by cases t <;> exact ⟨_, rfl⟩) ?_
  refine .attempt mirrors_localName_firm (fun x x' hx => .value (congrArg Operand.var hx)) ?_
  refine .attempt mirrors_symbolName_firm (fun x x' hx => .value (congrArg Operand.symbol hx)) ?_
  refine .attempt_same (mirrors_literalWord t).firm (fun c => .value rfl) ?_
  exact (simulates_number t).firm.map_same fun c => rfl

theorem simulates_typedValue : Parser.Simulates R R typedValue typedValue (Prod.map (id : Ty → Ty) bareValue) := by
  refine simulates_ty.bind_same fun t => ?_
  exact (simulates_value t).map fun _ _ hv => congrArg (Prod.mk t) hv

theorem simulates_typedValue_bind {β δ : Type} {Q : List Char → List Char → Prop} {f f' : Ty × NamedValue → Parser β}
    {view : β → δ} (h : ∀ t v v', bareValue v = bareValue v' → Parser.Simulates R Q (f (t, v)) (f' (t, v')) view) :
    Parser.Simulates R Q (typedValue >>= f) (typedValue >>= f') view := by
  refine simulates_typedValue.bind fun x x' hx => ?_
  obtain ⟨t, v⟩ := x
  obtain ⟨t', v'⟩ := x'
  obtain ⟨rfl, hv⟩ := Prod.mk.inj hx
  exact h t v v' hv

theorem simulates_operand : Parser.Simulates R R operand operand bareValue :=
  simulates_typedValue.map fun _ _ h => (Prod.mk.inj h).2

theorem simulates_comma {α γ : Type} {p p' : Parser α} {view : α → γ} (h : Parser.Simulates R R p p' view) :
    Parser.Simulates R R (comma p) (comma p') view :=
  (simulates_sign (by decide)).bind_same fun _ => h

theorem simulates_pair (t : Ty) : Parser.Simulates R R (pair t) (pair t) (Prod.map bareValue bareValue) :=
  (simulates_value t).bind fun _ _ hlhs =>
    (simulates_comma (simulates_value t)).map fun _ _ hrhs => congrArg₂ Prod.mk hlhs hrhs

theorem simulates_commaItems {α γ : Type} {p p' : Parser α} {view : α → γ} [Parser.Steady p'] [Parser.Consumes p']
    (h : Parser.Simulates R R p p' view) : Parser.Simulates R R (commaItems p) (commaItems p') (List.map view) :=
  .many Parser.advances_behind (.behind (mirrors_sign (by decide)) h)

theorem mirrors_target : Parser.Mirrors R R target target Mention.bare :=
  (mirrors_keyword (by decide)).bind_same fun _ => mirrors_localName

end SSALint.Source
