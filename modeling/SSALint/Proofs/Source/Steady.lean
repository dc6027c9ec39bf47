/-
The whole grammar is steady: no parser leaves anything but a suffix of its text.
-/
import SSALint.Source.Program
import SSALint.Proofs.Source.Parser

namespace SSALint.Source

/-! ## Tokens -/

mutual

theorem skipBlanks_suffix : ∀ s, skipBlanks s <:+ s
  | [] => List.suffix_refl _
  | c :: s => by
    unfold skipBlanks
    split
    · exact (skipComment_suffix s).trans (List.suffix_cons c s)
    · split
      · exact (skipBlanks_suffix s).trans (List.suffix_cons c s)
      · exact List.suffix_refl _

theorem skipComment_suffix : ∀ s, skipComment s <:+ s
  | [] => List.suffix_refl _
  | c :: s => by
    unfold skipComment
    split
    · exact (skipBlanks_suffix s).trans (List.suffix_cons c s)
    · exact (skipComment_suffix s).trans (List.suffix_cons c s)

end

theorem eq_append_of_dropWord? {word s r : List Char} (h : dropWord? word s = some r) : s = word ++ r := by
  induction word generalizing s with
  | nil => cases h; rfl
  | cons w word ih =>
    cases s with
    | nil => cases h
    | cons c s =>
      unfold dropWord? at h
      split at h
      · rename_i hc
        rw [hc, ih h]
        rfl
      · cases h

namespace Parser.Steady

instance : Steady blanks where
  suffix {s a r} h := by
    cases h
    exact skipBlanks_suffix s

instance (word : String) : Steady (exactly word) where
  suffix {s a r} h := by
    unfold exactly at h
    split at h
    · rename_i t ht
      cases h
      rw [eq_append_of_dropWord? ht]
      exact List.suffix_append _ _
    · cases h

instance (c : Char) : Steady (char c) where
  suffix {s a r} h := by
    unfold char at h
    split at h
    · split at h
      · cases h
        exact List.suffix_cons _ _
      · cases h
    · cases h

instance (text : String) : Steady (sign text) := by unfold sign; infer_instance

instance : Steady wordEnd := by unfold wordEnd; infer_instance

instance (text : String) : Steady (keyword text) := by unfold keyword; infer_instance

instance {α : Type} (closing : String) (item : Parser α) [Steady item] : Steady (listUntil closing item) := by
  unfold listUntil; infer_instance

instance (p : Char → Bool) (missing : Element) : Steady (run p missing) where
  suffix {s a r} h := by
    unfold run at h
    split at h
    · cases h
    · cases h
      exact List.dropWhile_suffix p

instance : Steady word := by unfold word; infer_instance

instance (sigil : Char) : Steady (sigilName sigil) := by unfold sigilName; infer_instance

instance : Steady localName := by unfold localName; infer_instance

instance : Steady symbolName := by unfold symbolName; infer_instance

instance : Steady labelName := by unfold labelName; infer_instance

/-! ## Numbers -/

instance : Steady digits := by unfold digits; infer_instance

instance : Steady unsigned := by unfold unsigned; infer_instance

instance (signs : List Char) : Steady (signOf signs) where
  suffix {s a r} h := by
    unfold signOf at h
    split at h
    · split at h
      · cases h
        exact List.suffix_cons _ _
      · cases h
        exact List.suffix_refl _
    · cases h
      exact List.suffix_refl _

instance : Steady signed := by unfold signed; infer_instance

instance : Steady hexDigits where
  suffix {s a r} h := by
    unfold hexDigits at h
    simp only at h
    split at h
    · cases h
      exact List.drop_suffix 16 s
    · cases h

instance : Steady fraction where
  suffix {s a r} h := by
    unfold fraction at h
    split at h
    · cases h
      exact (List.dropWhile_suffix _).trans (List.suffix_cons _ _)
    · cases h
      exact List.suffix_refl _

instance : Steady power := by unfold power; infer_instance

instance : Steady exponent := by unfold exponent; infer_instance

instance : Steady decimal := by unfold decimal; infer_instance

instance : Steady float := by
  unfold float
  refine .bind fun _ => .bind fun place => .bind fun hex => ?_
  split
  · refine .bind fun ds => ?_
    split <;> infer_instance
  · infer_instance

/-! ## Types and values -/

instance : Steady simpleTy := by
  unfold simpleTy
  refine .bind fun place => .bind fun name => ?_
  split <;> infer_instance

instance (closing : String) (make : UInt64 → Ty → Ty) (inner : Parser Ty) [Steady inner] :
    Steady (elements closing make inner) := by
  unfold elements; infer_instance

instance (inner : Parser Ty) [Steady inner] : Steady (tyStep inner) := by
  unfold tyStep
  refine .bind fun _ => .bind fun array => ?_
  split
  · infer_instance
  · refine .bind fun vector => ?_
    split
    · infer_instance
    · refine .bind fun struct => ?_
      split <;> infer_instance

instance (depth : Nat) : Steady (tyWithin depth) := by
  induction depth with
  | zero => unfold tyWithin; infer_instance
  | succ depth ih => unfold tyWithin; infer_instance

-- The levels that are allowed depend on the text, so that unfolding does not help here.
instance : Steady ty where
  suffix {s _ _} h := (inferInstance : Steady (tyWithin (s.length + 1))).suffix h

instance (t : Ty) : Steady (literalWord t) := by
  unfold literalWord
  refine .bind fun name => ?_
  split <;> infer_instance

instance (t : Ty) : Steady (number t) := by
  unfold number
  split <;> infer_instance

instance (t : Ty) : Steady (literal t) := by
  unfold literal
  refine .bind fun c => ?_
  split <;> infer_instance

instance (t : Ty) : Steady (value t) := by
  unfold value
  refine .bind fun _ => .bind fun x => ?_
  split
  · infer_instance
  · refine .bind fun y => ?_
    split <;> infer_instance

instance : Steady typedValue := by unfold typedValue; infer_instance

instance : Steady operand := by unfold operand; infer_instance

instance {α : Type} (p : Parser α) [Steady p] : Steady (comma p) := by unfold comma; infer_instance

instance (t : Ty) : Steady (pair t) := by unfold pair; infer_instance

instance {α : Type} (item : Parser α) [Steady item] : Steady (commaItems item) := by
  unfold commaItems; infer_instance

instance : Steady target := by unfold target; infer_instance

/-! ## Instructions and terminators -/

instance : Steady alloca := by unfold alloca; infer_instance

instance : Steady load := by unfold load; infer_instance

instance : Steady store := by unfold store; infer_instance

instance (op : BinaryOp) : Steady (binary op) := by
  unfold binary
  refine .bind fun t => .bind fun x => ?_
  obtain ⟨lhs, rhs⟩ := x
  infer_instance

instance (op : CastOp) : Steady (cast op) := by unfold cast; infer_instance

instance {P : Type} [Spelled P] (place : List Char) (unknown : Complaint)
    (make : P → Ty → NamedValue → NamedValue → Operation Mention Mention Mention) :
    Steady (compare place unknown make) := by
  unfold compare
  refine .bind fun _ => .bind fun pred => .bind fun t => .bind fun x => ?_
  obtain ⟨lhs, rhs⟩ := x
  dsimp only
  split <;> infer_instance

instance (t : Ty) : Steady (incoming t) := by unfold incoming; infer_instance

instance : Steady phi := by unfold phi; infer_instance

instance : Steady select := by
  unfold select
  refine .bind fun cond => .bind fun x => ?_
  obtain ⟨t, v⟩ := x
  infer_instance

instance : Steady elementPtr := by unfold elementPtr; infer_instance

instance : Steady getElementPtr := by unfold getElementPtr; infer_instance

instance : Steady pathStep := by unfold pathStep; infer_instance

instance : Steady path := by
  unfold path
  refine .bind fun indices => ?_
  split <;> infer_instance

instance (place : List Char) : Steady (extractValue place) := by
  unfold extractValue
  refine .bind fun x => ?_
  obtain ⟨t, aggregate⟩ := x
  refine .bind fun indices => ?_
  split <;> infer_instance

instance : Steady insertValue := by
  unfold insertValue
  refine .bind fun x => ?_
  obtain ⟨t, aggregate⟩ := x
  infer_instance

instance (place : List Char) : Steady (extractElement place) := by
  unfold extractElement
  refine .bind fun x => ?_
  obtain ⟨t, vector⟩ := x
  refine .bind fun index => ?_
  split <;> infer_instance

instance : Steady insertElement := by
  unfold insertElement
  refine .bind fun x => ?_
  obtain ⟨t, vector⟩ := x
  infer_instance

instance : Steady call := by unfold call; infer_instance

theorem of_operationOf? {place : List Char} {opcode : String} {p : Parser TypedOperation}
    (h : operationOf? place opcode = some p) : Steady p := by
  unfold operationOf? at h
  split at h
  case h_14 =>
    rw [Option.orElse_eq_orElse, Option.orElse_eq_or, Option.or_eq_some_iff] at h
    rcases h with h | ⟨-, h⟩
    · obtain ⟨op, -, rfl⟩ := Option.map_eq_some_iff.1 h
      infer_instance
    · obtain ⟨op, -, rfl⟩ := Option.map_eq_some_iff.1 h
      infer_instance
  all_goals
    cases h
    infer_instance

instance : Steady branch := by
  unfold branch
  refine .bind fun b => ?_
  split <;> infer_instance

instance : Steady switchCase := by
  unfold switchCase
  refine .bind fun place => .bind fun closed => ?_
  split
  · infer_instance
  · refine .bind fun v => ?_
    split <;> infer_instance

instance : Steady switch := by unfold switch; infer_instance

instance : Steady indirectBranch := by unfold indirectBranch; infer_instance

instance : Steady ret := by unfold ret; infer_instance

theorem of_terminatorOf? {opcode : String} {p : Parser NamedTerminator}
    (h : terminatorOf? opcode = some p) : Steady p := by
  unfold terminatorOf? at h
  split at h
  case h_6 => cases h
  all_goals
    cases h
    infer_instance

instance : Steady resultName := by
  unfold resultName
  refine .bind fun name => ?_
  split <;> infer_instance

instance (name : Option Mention) : Steady (lineBehind name) := by
  unfold lineBehind
  refine .bind fun _ => .bind fun place => .bind fun opcode => ?_
  split
  · rename_i terminator _ hterminator
    have := of_terminatorOf? hterminator
    dsimp only
    infer_instance
  · rename_i operation hoperation
    have := of_operationOf? hoperation
    refine .bind fun result => ?_
    split <;> infer_instance
  · infer_instance

instance : Steady line := by unfold line; infer_instance

/-! ## Programs -/

instance : Steady param := by unfold param; infer_instance

instance (p : NamedParam) : Steady (paramEnd p) := by unfold paramEnd; infer_instance

instance : Steady paramStep := by unfold paramStep; infer_instance

instance : Steady params := by
  unfold params
  refine .bind fun _ => .bind fun none => ?_
  split
  · infer_instance
  · refine .bind fun x => ?_
    obtain ⟨ps, last, variadic⟩ := x
    infer_instance

instance : Steady head := by
  unfold head
  refine .bind fun ret => .bind fun name => .bind fun x => ?_
  obtain ⟨ps, variadic⟩ := x
  infer_instance

instance : Steady openLine := by
  unfold openLine
  refine .bind fun before => .bind fun _ => .bind fun closed => ?_
  dsimp only
  split <;> infer_instance

instance (label : Option Mention) : Steady (block label) := by
  unfold block
  refine .bind fun x => ?_
  obtain ⟨instrs, terminator⟩ := x
  infer_instance

instance : Steady laterBlock := by
  unfold laterBlock
  refine .bind fun _ => .bind fun closed => ?_
  split
  · infer_instance
  · refine .bind fun label => ?_
    split <;> infer_instance

instance (label : Option Mention) : Steady (blocks label) := by unfold blocks; infer_instance

instance : Steady body := by
  unfold body
  refine .bind fun _ => .bind fun _ => .bind fun closed => ?_
  dsimp only
  split <;> infer_instance

instance (name : Mention) : Steady (globalBehind name) := by
  unfold globalBehind
  refine .bind fun external => .bind fun _ => .bind fun t => ?_
  split
  · infer_instance
  · refine .bind fun place => .bind fun v => ?_
    split <;> infer_instance

instance (name : Mention) : Steady (global name) := by unfold global; infer_instance

instance : Steady itemBehind := by
  unfold itemBehind
  refine .bind fun define => ?_
  split
  · infer_instance
  · refine .bind fun declare => ?_
    split
    · infer_instance
    · refine .bind fun name => ?_
      split <;> infer_instance

instance : Steady item := by unfold item; infer_instance

instance : Steady program := by unfold program; infer_instance

end Parser.Steady
end SSALint.Source
