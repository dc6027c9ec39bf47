/-
Parsing makes progress. Every token takes a character, every repetition of the grammar goes on only after a turn that
consumed, and a type is read inside another one only behind its bracket. So neither the guard of repetitions nor the
bound on the levels of types is ever met (`ty_eq`), and a text is read to its end or refused (`parseModule_progress`).
-/
import SSALint.Proofs.Source.Accepted
import SSALint.Proofs.Source.Consumes
import SSALint.Proofs.Source.ReadsProgram

namespace SSALint.Source

/-! ## Tokens -/

namespace Parser.Consumes

theorem of_exactly {text : String} (h : text.toList ≠ []) : Consumes (exactly text) where
  lt {s a r} hr := by
    unfold exactly at hr
    split at hr
    · rename_i t ht
      cases hr
      have := List.length_pos_of_ne_nil h
      rw [eq_append_of_dropWord? ht, List.length_append]
      omega
    · cases hr

theorem of_sign {text : String} (h : text.toList ≠ []) : Consumes (sign text) :=
  have := of_exactly h
  inferInstanceAs (Consumes (blanks >>= fun _ => exactly text))

instance (c : Char) : Consumes (char c) where
  lt h := by
    rw [eq_cons_of_char h]
    exact Nat.lt_succ_self _

instance (p : Char → Bool) (missing : Element) : Consumes (run p missing) where
  lt {s a r} h := by
    unfold run at h
    split at h
    · cases h
    · rename_i htake
      cases h
      have hlength := congrArg List.length (List.takeWhile_append_dropWhile (p := p) (l := s))
      have := List.length_pos_of_ne_nil htake
      rw [List.length_append] at hlength
      omega

instance : Consumes word := by unfold word; infer_instance

instance (sigil : Char) : Consumes (sigilName sigil) := by unfold sigilName; infer_instance

instance : Consumes localName := by unfold localName; infer_instance

instance : Consumes symbolName := by unfold symbolName; infer_instance

instance : Consumes labelName := by unfold labelName; infer_instance

instance : Consumes digits := by unfold digits; infer_instance

instance : Consumes unsigned := by unfold unsigned; infer_instance

end Parser.Consumes

/-! ## Types -/

instance : Parser.Consumes simpleTy := by
  unfold simpleTy
  refine .right_of fun place => @Parser.Consumes.left _ _ word _ _ fun name => ?_
  split <;> infer_instance

namespace Parser.AgreeOn

variable {s : List Char}

theorem listUntil {α : Type} {closing : String} {p p' : Parser α} [Steady p] (h : AgreeOn s p p') :
    AgreeOn s (listUntil closing p) (listUntil closing p') := by
  refine bind refl fun closed => ?_
  cases closed
  · exact bind (sepBy1 h) fun _ => refl
  · exact refl

theorem elements {closing : String} {make : UInt64 → Ty → Ty} {p p' : Parser Ty} [Steady p] (h : AgreeOn s p p') :
    AgreeOn s (elements closing make p) (elements closing make p') :=
  bind refl fun _ => bind refl fun _ => bind h fun _ => refl

end Parser.AgreeOn

/-- The types inside brackets are read from shorter texts. -/
theorem tyStep_congr {inner inner' : Parser Ty} [Parser.Steady inner] {s : List Char}
    (h : ∀ t, t <:+ s → t.length < s.length → inner t = inner' t) : tyStep inner s = tyStep inner' s := by
  have hbracket : Parser.Consumes (exactly "[") := .of_exactly (by decide)
  have hangle : Parser.Consumes (exactly "<") := .of_exactly (by decide)
  have hbrace : Parser.Consumes (exactly "\x7b") := .of_exactly (by decide)
  -- What is read behind a bracket of the text without its blanks is what is read from a shorter text.
  have hinner : ∀ t, t <:+ skipBlanks s → t.length < (skipBlanks s).length → Parser.AgreeOn t inner inner' := by
    intro t ht hlt u hu
    have hs : skipBlanks s <:+ s := skipBlanks_suffix s
    exact h u (hu.trans (ht.trans hs)) (Nat.lt_of_le_of_lt hu.length_le (Nat.lt_of_lt_of_le hlt hs.length_le))
  refine Parser.accepts_congr (s := skipBlanks s) (fun t ht hlt => ?_) (Parser.accepts_congr (fun t ht hlt => ?_)
    (Parser.accepts_congr (fun t ht hlt => ?_) rfl))
  · exact (hinner t ht hlt).elements t (List.suffix_refl t)
  · exact (hinner t ht hlt).elements t (List.suffix_refl t)
  · exact Parser.AgreeOn.bind (hinner t ht hlt).listUntil (fun _ => .refl) t (List.suffix_refl t)

/-- Any bound on the levels that the text leaves room for gives the same type. -/
theorem tyWithin_eq_ty {depth : Nat} {s : List Char} (h : s.length < depth) : tyWithin depth s = ty s := by
  suffices hsame : ∀ n s, s.length < n → ∀ k, s.length < k → tyWithin n s = tyWithin k s from
    hsame depth s h _ (Nat.lt_succ_self _)
  intro n
  induction n with
  | zero => exact fun s hs => absurd hs (Nat.not_lt_zero _)
  | succ n ih =>
    intro s hs k hk
    obtain ⟨k, rfl⟩ := Nat.exists_eq_add_one_of_ne_zero (Nat.ne_zero_of_lt hk)
    unfold tyWithin
    exact tyStep_congr fun t _ hlt => ih t (by omega) k (by omega)

/-- A type is read without regard to a bound on its levels. -/
theorem ty_eq : ty = tyStep ty := by
  funext s
  show tyStep (tyWithin s.length) s = _
  exact tyStep_congr fun t _ hlt => tyWithin_eq_ty hlt

/-- A parser that refuses texts of `length` characters or more. -/
def Parser.below {α : Type} (length : Nat) (p : Parser α) : Parser α := fun s =>
  if s.length < length then p s else .error ⟨.unexpected .progress, s⟩

/-- The types inside brackets are read from shorter texts than the whole type. -/
theorem ty_eq_below (s : List Char) : ty s = tyStep (Parser.below s.length ty) s := by
  rw [ty_eq]
  refine tyStep_congr fun t _ hlt => ?_
  rw [← ty_eq]
  exact (if_pos hlt).symm

/-! ## Grammar -/

namespace Parser.Consumes

instance (closing : String) (make : UInt64 → Ty → Ty) (inner : Parser Ty) [Steady inner] :
    Consumes (elements closing make inner) := by
  unfold elements; infer_instance

instance (inner : Parser Ty) [Steady inner] : Consumes (tyStep inner) := by
  have hbrace : Consumes (exactly "\x7b") := of_exactly (by decide)
  unfold tyStep
  refine right_of fun _ => right_of fun array => ?_
  split
  · infer_instance
  · refine right_of fun vector => ?_
    split
    · infer_instance
    · exact accepts inferInstance (inferInstanceAs (Consumes simpleTy))

instance (depth : Nat) : Consumes (tyWithin depth) := by
  cases depth <;> unfold tyWithin <;> infer_instance

-- The levels that are allowed depend on the text, so that unfolding does not help here.
instance : Consumes ty where
  lt {s _ _} h := (inferInstance : Consumes (tyWithin (s.length + 1))).lt h

instance : Consumes typedValue := by unfold typedValue; infer_instance

instance : Consumes operand := by unfold operand; infer_instance

instance : Consumes target := by unfold target; infer_instance

instance {α : Type} (p : Parser α) [Consumes p] : Consumes (comma p) := by unfold comma; infer_instance

instance (t : Ty) : Consumes (incoming t) := by unfold incoming; infer_instance

instance : Consumes switchCase := by
  have hclose : Consumes (sign "]") := of_sign (by decide)
  unfold switchCase
  refine right_of fun place => accepts ?_ ?_
  · exact inferInstanceAs (Steady (pure none))
  · refine @left _ _ operand _ _ fun v => ?_
    split <;> infer_instance

/-- A line has an opcode. -/
instance (name : Option Mention) : Consumes (lineBehind name) := by
  unfold lineBehind
  refine right_of fun _ => right_of fun place => ?_
  refine @left _ _ word _ _ fun opcode => ?_
  split
  · rename_i terminator _ hterminator
    have := Steady.of_terminatorOf? hterminator
    dsimp only
    infer_instance
  · rename_i operation hoperation
    have := Steady.of_operationOf? hoperation
    refine .bind fun result => ?_
    split <;> infer_instance
  · infer_instance

instance : Consumes line := by unfold line; infer_instance

instance : Consumes openLine := by
  unfold openLine
  refine right_of fun before => right_of fun _ => right_of fun closed => ?_
  dsimp only
  split <;> infer_instance

instance : Consumes laterBlock := by
  have hclose : Consumes (exactly "\x7d") := of_exactly (by decide)
  unfold laterBlock
  refine right_of fun _ => accepts ?_ ?_
  · exact inferInstanceAs (Steady (pure none))
  · exact attempt (fun _ => inferInstance) (inferInstanceAs (Consumes (fail .expectedLabel)))

instance : Consumes param := by unfold param; infer_instance

instance : Consumes paramStep := by
  have hdots : Consumes (sign "...") := of_sign (by decide)
  unfold paramStep
  exact accepts inferInstance (inferInstanceAs (Consumes (param >>= _)))

instance : Consumes head := by
  unfold head
  refine @left _ _ ty _ _ fun ret => .bind fun name => .bind fun x => ?_
  obtain ⟨ps, variadic⟩ := x
  infer_instance

instance : Consumes itemBehind := by
  unfold itemBehind
  refine right_of fun define => ?_
  split
  · infer_instance
  · refine right_of fun declare => ?_
    split
    · infer_instance
    · exact attempt (fun _ => inferInstance) (inferInstanceAs (Consumes (fail .expectedItem)))

end Parser.Consumes

/-! ## Blanks -/

/-- A comment right here, to the end of its line. -/
def comment : Parser Unit := do
  char ';'
  fun s => .ok ((), s.dropWhile (· ≠ '\n'))

/-- A row of blanks or a comment, if there is one. -/
def blankTurn : Parser (Unit ⊕ Unit) := do
  if ← Parser.accepts (run isBlank .token) then return .inl ()
  else if ← Parser.accepts comment then return .inl ()
  else return .inr ()

/-- To pass over a comment is to pass over it and the blanks behind its line. -/
theorem skipComment_eq (s : List Char) : skipComment s = skipBlanks (s.dropWhile (· ≠ '\n')) := by
  induction s with
  | nil => rfl
  | cons c s ih =>
    rw [skipComment]
    by_cases hc : c = '\n'
    · subst hc
      exact (if_pos rfl).trans (skipBlanks_blank rfl s).symm
    · rw [if_neg hc, ih, List.dropWhile_cons_of_pos (by simpa using hc)]

theorem skipBlanks_dropWhile (s : List Char) : skipBlanks (s.dropWhile isBlank) = skipBlanks s := by
  induction s with
  | nil => rfl
  | cons c s ih =>
    by_cases hc : isBlank c = true
    · rw [List.dropWhile_cons_of_pos hc, ih, skipBlanks_blank hc]
    · rw [List.dropWhile_cons_of_neg hc]

theorem advances_blankTurn : Parser.Advances blankTurn := by
  have hline : Parser.Steady fun s => .ok ((), s.dropWhile (· ≠ '\n')) := ⟨fun h => by
    cases h
    exact List.dropWhile_suffix _⟩
  have hsteady : Parser.Steady comment := by unfold comment; infer_instance
  have hconsumes : Parser.Consumes comment := by unfold comment; infer_instance
  exact Parser.advances_accepts (p := run isBlank .token) (Parser.advances_accepts (p := comment) Parser.advances_pure)

theorem blankTurn_of_blank {c : Char} (h : isBlank c = true) (s : List Char) :
    blankTurn (c :: s) = .ok (.inl (), s.dropWhile isBlank) := by
  have hrun : run isBlank .token (c :: s) = .ok (c :: s.takeWhile isBlank, s.dropWhile isBlank) := by
    unfold run
    rw [List.takeWhile_cons_of_pos h, List.dropWhile_cons_of_pos h]
  exact Parser.bind_eq_ok_iff.2 ⟨true, _, Parser.accepts_of_ok hrun, rfl⟩

theorem blankTurn_of_comment (s : List Char) :
    blankTurn (';' :: s) = .ok (.inl (), s.dropWhile (· ≠ '\n')) := by
  obtain ⟨e, hrun⟩ : Fails (run isBlank .token) (';' :: s) := fails_run (by simp [isBlank])
  exact Parser.bind_eq_ok_iff.2 ⟨false, _, Parser.accepts_of_error hrun, rfl⟩

theorem blankTurn_of_isVisible {c : Char} (h : IsVisible c) (s : List Char) :
    blankTurn (c :: s) = .ok (.inr (), c :: s) := by
  obtain ⟨e, hrun⟩ : Fails (run isBlank .token) (c :: s) := fails_run (by simpa using h.1)
  have hcomment : comment (c :: s) = .error ⟨.expectedChar ';', c :: s⟩ := by
    show char ';' (c :: s) >>= _ = _
    rw [char, if_neg h.2]
    rfl
  exact Parser.bind_eq_ok_iff.2 ⟨false, _, Parser.accepts_of_error hrun,
    Parser.bind_eq_ok_iff.2 ⟨false, _, Parser.accepts_of_error hcomment, rfl⟩⟩

/-- A turn that passes over something leaves the rest to the turns behind it. -/
theorem exists_turns_of_turn {s t : List Char} (hturn : blankTurn s = .ok (.inl (), t))
    (hskip : skipBlanks t = skipBlanks s)
    (h : ∃ turns, Parser.collect blankTurn t = .ok ((turns, ()), skipBlanks t)) :
    ∃ turns, Parser.collect blankTurn s = .ok ((turns, ()), skipBlanks s) := by
  obtain ⟨turns, hturns⟩ := h
  rw [Parser.collect_eq_next advances_blankTurn]
  refine ⟨() :: turns, Parser.bind_eq_ok_iff.2 ⟨_, t, hturn, ?_⟩⟩
  exact Parser.bind_eq_ok_iff.2 ⟨_, _, hturns, by rw [hskip]; rfl⟩

/-- Passing over blanks is a repetition: of rows of blanks, and of comments. -/
theorem collect_blankTurn (s : List Char) :
    ∃ turns, Parser.collect blankTurn s = .ok ((turns, ()), skipBlanks s) := by
  induction hn : s.length using Nat.strong_induction_on generalizing s with
  | _ n ih =>
    cases s with
    | nil => exact ⟨[], by rw [Parser.collect]; rfl⟩
    | cons c s =>
      by_cases hblank : isBlank c = true
      · have hturn := blankTurn_of_blank hblank s
        refine exists_turns_of_turn hturn ?_ (ih _ (hn ▸ (advances_blankTurn _ _ _ hturn).2) _ rfl)
        rw [skipBlanks_dropWhile, skipBlanks_blank hblank]
      by_cases hcomment : c = ';'
      · subst hcomment
        have hturn := blankTurn_of_comment s
        refine exists_turns_of_turn hturn ?_ (ih _ (hn ▸ (advances_blankTurn _ _ _ hturn).2) _ rfl)
        rw [← skipComment_eq]
        rfl
      · have hvisible : IsVisible c := ⟨Bool.eq_false_iff.2 hblank, hcomment⟩
        refine ⟨[], ?_⟩
        rw [Parser.collect, blankTurn_of_isVisible hvisible, hvisible.skipBlanks]

/-! ## The whole grammar -/

/-- The parsers of the grammar. -/
inductive Rule : {α : Type} → Parser α → Prop where
  | blanks : Rule blanks
  | exactly (text : String) : Rule (exactly text)
  | sign (text : String) : Rule (sign text)
  | wordEnd : Rule wordEnd
  | keyword (text : String) : Rule (keyword text)
  | word : Rule word
  | localName : Rule localName
  | symbolName : Rule symbolName
  | labelName : Rule labelName
  | unsigned : Rule unsigned
  | signed : Rule signed
  | float : Rule float
  | simpleTy : Rule simpleTy
  | elements (closing : String) (make : UInt64 → Ty → Ty) {inner : Parser Ty} (rule : Rule inner) :
      Rule (elements closing make inner)
  | tyStep {inner : Parser Ty} (rule : Rule inner) : Rule (tyStep inner)
  | ty : Rule ty
  | literalWord (t : Ty) : Rule (literalWord t)
  | number (t : Ty) : Rule (number t)
  | literal (t : Ty) : Rule (literal t)
  | value (t : Ty) : Rule (value t)
  | typedValue : Rule typedValue
  | operand : Rule operand
  | pair (t : Ty) : Rule (pair t)
  | target : Rule target
  | comma {α : Type} {p : Parser α} (rule : Rule p) : Rule (comma p)
  | commaItems {α : Type} {p : Parser α} (rule : Rule p) : Rule (commaItems p)
  | listUntil (closing : String) {α : Type} {p : Parser α} (rule : Rule p) : Rule (listUntil closing p)
  | incoming (t : Ty) : Rule (incoming t)
  | path : Rule path
  | elementPtr : Rule elementPtr
  | operation {place : List Char} {opcode : String} {p : Parser TypedOperation}
      (opens : operationOf? place opcode = some p) : Rule p
  | terminator {opcode : String} {p : Parser NamedTerminator} (opens : terminatorOf? opcode = some p) : Rule p
  | resultName : Rule resultName
  | lineBehind (name : Option Mention) : Rule (lineBehind name)
  | line : Rule line
  | openLine : Rule openLine
  | block (label : Option Mention) : Rule (block label)
  | laterBlock : Rule laterBlock
  | blocks (label : Option Mention) : Rule (blocks label)
  | body : Rule body
  | param : Rule param
  | paramEnd (p : NamedParam) : Rule (paramEnd p)
  | paramStep : Rule paramStep
  | params : Rule params
  | head : Rule head
  | globalBehind (name : Mention) : Rule (globalBehind name)
  | global (name : Mention) : Rule (global name)
  | itemBehind : Rule itemBehind
  | item : Rule item
  | program : Rule program

theorem Rule.steady {α : Type} {p : Parser α} (rule : Rule p) : Parser.Steady p := by
  induction rule with
  | operation opens => exact .of_operationOf? opens
  | terminator opens => exact .of_terminatorOf? opens
  | _ => infer_instance

/-- The turns of the repetitions of the grammar. -/
inductive Turn : {α β : Type} → Parser (α ⊕ β) → Prop where
  /-- Blanks and comments before a token. -/
  | blanks : Turn blankTurn
  /-- Fields of a structure. -/
  | fields (depth : Nat) : Turn (Parser.turn (Parser.behind (sign ",") (tyWithin depth)))
  /-- Member indices. -/
  | indices : Turn (Parser.turn pathStep)
  /-- Alternatives of a `phi`. -/
  | alternatives (t : Ty) : Turn (Parser.turn (Parser.behind (sign ",") (incoming t)))
  /-- Indices of a `getelementptr` and arguments of a `call`. -/
  | operands : Turn (Parser.turn (Parser.behind (sign ",") operand))
  /-- Cases of a `switch`. -/
  | cases : Turn (Parser.turn switchCase)
  /-- Targets of an `indirectbr`. -/
  | targets : Turn (Parser.turn (Parser.behind (sign ",") target))
  | params : Turn paramStep
  /-- Lines of a block. -/
  | lines : Turn openLine
  /-- Blocks of a body. -/
  | blocks : Turn (Parser.turn laterBlock)
  /-- Items of a program. -/
  | items : Turn (Parser.turn item)

theorem advances_pathStep : Parser.Advances (Parser.turn pathStep) := by
  unfold pathStep
  exact Parser.advances_turn_right fun place => Parser.advances_behind_if

theorem advances_item : Parser.Advances (Parser.turn item) := by
  unfold item
  refine Parser.advances_turn_right fun _ => Parser.advances_turn_right fun s => ?_
  split
  · exact Parser.advances_turn nofun
  · exact @Parser.Consumes.advances_turn _ itemBehind _ _

theorem Turn.advances {α β : Type} {step : Parser (α ⊕ β)} (turn : Turn step) : Parser.Advances step := by
  cases turn with
  | blanks => exact advances_blankTurn
  | indices => exact advances_pathStep
  | cases => exact Parser.Consumes.advances_turn
  | params => exact Parser.Consumes.advances
  | lines => exact Parser.Consumes.advances
  | blocks => exact Parser.Consumes.advances_turn
  | items => exact advances_item
  | _ => exact Parser.advances_behind

end SSALint.Source

namespace SSALint

open Source

/-- Reading a module makes progress. Every parser of the grammar leaves a suffix of its text; every turn of a
repetition that goes on leaves less, so that no repetition depends on its guard; blanks are such a repetition, and
types inside a type are read from less text than the type. A text is a module, and then it is read to its end, or
the error is that it cannot be parsed. -/
theorem parseModule_progress :
    (∀ {α : Type} {p : Parser α}, Rule p → ∀ s a r, p s = .ok (a, r) → r <:+ s) ∧
    (∀ {α β : Type} {turn : Parser (α ⊕ β)}, Turn turn →
      (∀ s a r, turn s = .ok (.inl a, r) → r <:+ s ∧ r.length < s.length) ∧
        Parser.collect turn = Parser.next turn (Parser.collect turn)) ∧
    (∀ s, ∃ turns, Parser.collect blankTurn s = .ok ((turns, ()), skipBlanks s)) ∧
    (ty = tyStep ty ∧ ∀ s, ty s = tyStep (Parser.below s.length ty) s) ∧
    ∀ text, (∃ m items, parseModule text = .ok m ∧ program text.toList = .ok (items, [])) ∨
      ∃ e, parseModule text = .error e ∧ e.kind? = some .parse := by
  refine ⟨fun rule s a r h => rule.steady.suffix h, fun turn => ⟨turn.advances, Parser.collect_eq_next turn.advances⟩,
    collect_blankTurn, ⟨ty_eq, ty_eq_below⟩, fun text => ?_⟩
  cases h : parseModule text with
  | ok m =>
    obtain ⟨-, -, -, items, hitems, -⟩ := parseModule_spec h
    exact .inl ⟨m, items, rfl, hitems⟩
  | error e =>
    refine .inr ⟨e, rfl, ?_⟩
    unfold parseModule at h
    split at h
    · cases h
    · cases h
      rfl

/-- A structure that holds an array, a list of parameters after its bracket, and a text that ends in a comment. -/
theorem parseModule_progress_struct :
    (ty "\x7bi8, [2 x i1]\x7d %x".toList = .ok (.struct [.int 8, .array 2 (.int 1)], " %x".toList) ∧
      " %x".toList <:+ "\x7bi8, [2 x i1]\x7d %x".toList) ∧
    (paramStep "i8 %a, ptr)".toList = .ok (.inl ⟨.int 8, some ⟨"a", "%a, ptr)".toList⟩⟩, " ptr)".toList) ∧
      " ptr)".toList <:+ "i8 %a, ptr)".toList ∧ " ptr)".toList.length < "i8 %a, ptr)".toList.length) ∧
    ∃ m items, parseModule "; f\ndeclare void @f() ;" = .ok m ∧
      program "; f\ndeclare void @f() ;".toList = .ok (items, []) := by
  obtain ⟨hrules, hturns, -, -, hread⟩ := parseModule_progress
  have hty : ty "\x7bi8, [2 x i1]\x7d %x".toList = .ok (.struct [.int 8, .array 2 (.int 1)], " %x".toList) :=
    Outcome.toOption_eq_some_iff.1 (by decide +kernel)
  have hparam : paramStep "i8 %a, ptr)".toList =
      .ok (.inl ⟨.int 8, some ⟨"a", "%a, ptr)".toList⟩⟩, " ptr)".toList) :=
    Outcome.toOption_eq_some_iff.1 (by decide +kernel)
  refine ⟨⟨hty, hrules .ty _ _ _ hty⟩, ⟨hparam, (hturns .params).1 _ _ _ hparam⟩, ?_⟩
  refine (hread _).resolve_right ?_
  rintro ⟨e, he, -⟩
  have haccepted : (parseModule "; f\ndeclare void @f() ;").toOption.isSome = true := by decide +kernel
  rw [he] at haccepted
  cases haccepted

end SSALint
