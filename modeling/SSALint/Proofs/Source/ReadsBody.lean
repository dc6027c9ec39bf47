/-
Bodies that were written. The lines of a body are read with the end of the line before them, so that what follows
a line is the end of it; so are the blocks, each a label, instructions and a terminator (`reads_body`).
-/
import SSALint.Proofs.Source.ReadsLine
import SSALint.Source.Program

namespace SSALint.Source

variable {n : Names}

theorem newline : Blanks ['\n'] := by simp [Blanks, isBlank]

/-! ## Lines of a block -/

/-- A text that is neither a label nor the end of a body, and does not go on with the line before it. -/
structure IsLine (text : List Char) : Prop where
  begins : ∃ c r, text = c :: r ∧ IsVisible c ∧ c ≠ '\x7d' ∧ c ≠ ','
  noLabel : ∀ rest, EndsLine rest → Fails labelName (text ++ rest)

theorem isLine_word {word : String} (hword : IsWord word) {text : List Char}
    (h : ∀ rest, EndsLine rest → Stops (text ++ rest) ∧ (text ++ rest).head? ≠ some ':') :
    IsLine (word.toList ++ text) where
  begins := by
    obtain ⟨c, r, hc, hcword⟩ := hword.beginsWord
    refine ⟨c, r ++ text, by rw [hc]; rfl, isVisible_of_isWordChar hcword, ?_, ?_⟩ <;>
      (rintro rfl; cases hcword)
  noLabel rest hrest := by
    obtain ⟨hstops, hcolon⟩ := h rest hrest
    rw [List.append_assoc]
    exact fails_labelName_of_word hword hstops hcolon

theorem isLine_local (text : List Char) : IsLine ('%' :: text) where
  begins := ⟨'%', text, rfl, by decide, by decide, by decide⟩
  noLabel rest _ := by
    refine fails_labelName ?_
    rw [List.cons_append, IsVisible.skipBlanks (by decide)]
    exact stops_cons rfl

/-- A line behind the end of the one before it. -/
def indented (text : List Char) : List Char := '\n' :: ' ' :: ' ' :: text

theorem IsLine.endsLine {text : List Char} (h : IsLine text) (rest : List Char) : EndsLine (indented text ++ rest) := by
  refine ⟨rfl, ?_⟩
  obtain ⟨c, r, rfl, hvisible, -, hcomma⟩ := h.begins
  show (skipBlanks ('\n' :: ' ' :: ' ' :: c :: _)).head? ≠ _
  rw [skipBlanks_blank rfl, skipBlanks_blank rfl, skipBlanks_blank rfl, hvisible.skipBlanks]
  exact fun hhead => hcomma (Option.some.inj hhead)

theorem reads_openLine {text : List Char} {Q : NamedInstr ⊕ NamedTerminator → Prop} (hline : IsLine text)
    (h : Reads line text EndsLine Q) : Reads openLine (indented text) EndsLine Q := by
  obtain ⟨c, r, hc, hvisible, hbrace, -⟩ := hline.begins
  have hindent : Blanks ['\n', ' ', ' '] := by simp [Blanks, isBlank]
  refine (Reads.here (F := Anything)).nil_bind (fun before _ => ?_) fun _ _ => trivial
  refine (reads_lead hindent).bind (fun _ _ => ?_) fun rest _ => Shows.append ⟨c, r, hc, hvisible⟩ rest
  refine (Reads.accepts_false fun rest hrest => fails_exactly hrest).nil_bind ?_ fun rest _ => ?_
  · rintro _ rfl
    refine (Reads.accepts_false fun rest hrest => hrest).nil_bind ?_ hline.noLabel
    rintro _ rfl
    exact h
  · rw [hc]
    exact dropWord?_of_head fun hhead => hbrace (Option.some.inj hhead)

section

variable (hn : n.Spelled)

include hn

theorem isLine_instr {i : Instr} (h : i.Typed n.typeOf) : IsLine (n.instr i).toList := by
  obtain ⟨result, o⟩ := i
  cases result with
  | none =>
    obtain ⟨text, htext, -⟩ := reads_arguments hn [] h.1
    have htext : (n.instr ⟨none, o⟩).toList = o.opcode.toList ++ ' ' :: text := htext
    rw [htext]
    exact isLine_word (isWord_opcode o) fun rest _ => ⟨stops_cons rfl, by simp⟩
  | some x =>
    have htext : (n.instr ⟨some x, o⟩).toList =
        '%' :: ((n.localText x).toList ++ (" = ".toList ++ (n.operation o).toList)) := by
      simp [Names.instr, n.toList_localName]
    rw [htext]
    exact isLine_local _

theorem isLine_terminator {t : Terminator LocalId Symbol BlockId} (h : t.Typed n.typeOf)
    (hdistinct : t.Distinct n.typeOf) : IsLine (n.terminator t).toList := by
  obtain ⟨opcode, text, -, htext, hopcode, hends, -⟩ := reads_terminator hn h hdistinct
  rw [htext]
  exact isLine_word hopcode hends

/-! ## Blocks -/

omit hn in
/-- The lines of a block behind its label. -/
def linesText (n : Names) (b : Block) : List Char :=
  b.instrs.flatMap (fun i => indented (n.instr i).toList) ++ indented (n.terminator b.terminator).toList

omit hn in
/-- The text of a block behind the end of the line before it. -/
def blockText (n : Names) (b : Block) : List Char :=
  ['\n'] ++ (((n.label b.id).toList ++ [':']) ++ linesText n b)

omit hn in
/-- What ends with a character may as well begin with it. -/
theorem cons_flatMap {α : Type} {c : Char} {f g : α → List Char} {xs : List α}
    (h : ∀ x ∈ xs, c :: f x = g x ++ [c]) (rest : List Char) :
    c :: (xs.flatMap f ++ rest) = xs.flatMap g ++ c :: rest := by
  induction xs with
  | nil => rfl
  | cons x xs ih =>
    obtain ⟨hx, hxs⟩ := List.forall_mem_cons.1 h
    rw [List.flatMap_cons, List.flatMap_cons, List.append_assoc, List.append_assoc, ← List.cons_append, hx,
      List.append_assoc, ← ih hxs]
    rfl

omit hn in
theorem toList_block (b : Block) : '\n' :: (n.block b).toList = blockText n b ++ ['\n'] := by
  have hline : ∀ i ∈ b.instrs, '\n' :: (Names.line (n.instr i)).toList = indented (n.instr i).toList ++ ['\n'] := by
    intro i _
    simp [Names.line, indented]
  have hrotate := cons_flatMap hline (Names.line (n.terminator b.terminator)).toList
  unfold blockText linesText Names.block
  rw [String.toList_append, String.toList_append, String.toList_append, String.toList_join, List.flatMap_map]
  have hcolon : ":\n".toList = [':'] ++ ['\n'] := rfl
  simp only [hcolon, List.append_assoc, List.cons_append, List.nil_append]
  rw [hrotate]
  simp [Names.line, indented]

theorem reads_block {b : Block} (h : b.Typed n.typeOf) (hdistinct : b.terminator.Distinct n.typeOf)
    {label : Mention} (hlabel : label.name = n.label b.id) :
    Reads (block (some label)) (linesText n b) EndsLine fun c => c.bare = n.namedBlock b := by
  have hterminator := isLine_terminator hn h.terminator hdistinct
  have hlines : Reads (Parser.collect openLine) (linesText n b) EndsLine
      fun x => x.1.map NamedInstr.bare = b.instrs.map n.namedInstr ∧
        bareTerminator x.2 = n.namedTerminator b.terminator := by
    refine Reads.collect (fun i hi => ?_) (fun _ _ => List.cons_ne_nil _ _) (fun i hi rest => ?_)
      (reads_openLine hterminator (reads_line_terminator hn h.terminator hdistinct))
      fun rest _ => hterminator.endsLine rest
    · obtain ⟨htyped, hresult⟩ := h.instrs i hi
      exact reads_openLine (isLine_instr hn ⟨htyped, hresult⟩) (reads_line_instr hn htyped hresult)
    · exact (isLine_instr hn (h.instrs i (List.mem_of_mem_tail hi))).endsLine rest
  refine hlines.map ?_
  rintro ⟨instrs, u⟩ ⟨hinstrs, hu⟩
  show NamedBlock.mk (some label.bare) (instrs.map NamedInstr.bare) (bareTerminator u) = _
  rw [hinstrs, hu, Mention.bare, hlabel]
  rfl

theorem reads_blockLabel (b : Block) :
    Reads (Parser.attempt labelName) ((n.label b.id).toList ++ [':']) Anything
      fun m => ∃ label, m = some label ∧ label.name = n.label b.id :=
  (reads_labelName (hn.label b.id)).attempt_some

theorem beginsWord_block (b : Block) (rest : List Char) :
    BeginsWord (((n.label b.id).toList ++ [':']) ++ linesText n b ++ rest) :=
  (((hn.label b.id).beginsWord.append _).append _).append rest

theorem endsLine_block (b : Block) (rest : List Char) : EndsLine (blockText n b ++ rest) := by
  have hword := beginsWord_block hn b rest
  refine ⟨rfl, ?_⟩
  rw [blockText, List.append_assoc, newline.skipBlanks, hword.shows.skipBlanks]
  exact hword.head?_ne rfl

theorem reads_laterBlock {b : Block} (h : b.Typed n.typeOf) (hdistinct : b.terminator.Distinct n.typeOf) :
    Reads laterBlock (blockText n b) EndsLine fun o => ∃ c, o = some c ∧ c.bare = n.namedBlock b := by
  refine (reads_lead newline).bind (fun _ _ => ?_) fun rest _ => (beginsWord_block hn b rest).shows
  refine (Reads.accepts_false fun rest hrest => fails_exactly hrest).nil_bind ?_ fun rest _ => ?_
  · rintro _ rfl
    refine (reads_blockLabel hn b).bind ?_ fun _ _ => trivial
    rintro _ ⟨label, rfl, hlabel⟩
    exact (reads_block hn h hdistinct hlabel).map fun c hc => ⟨c, rfl, hc⟩
  · exact dropWord?_of_head ((beginsWord_block hn b rest).head?_ne rfl)

omit hn in
/-- The bracket that closes a body ends a line. -/
theorem endsLine_bodyEnd (rest : List Char) : EndsLine (['\n', '\x7d'] ++ rest) := by
  refine ⟨rfl, ?_⟩
  show (skipBlanks ('\n' :: '\x7d' :: rest)).head? ≠ _
  rw [skipBlanks_blank rfl, IsVisible.skipBlanks (by decide)]
  simp

omit hn in
theorem reads_bodyEnd : Reads laterBlock ['\n', '\x7d'] Anything (· = none) := by
  refine (reads_lead newline).bind (fun _ _ => ?_) fun _ _ => ⟨'\x7d', _, rfl, by decide⟩
  refine (reads_exactly "\x7d").accepts_true.bind_nil ?_
  rintro _ rfl
  exact .pure rfl

theorem reads_laterBlocks {bs : List Block} (h : ∀ c ∈ bs, c.Typed n.typeOf)
    (hdistinct : ∀ c ∈ bs, c.terminator.Distinct n.typeOf) :
    Reads (Parser.many laterBlock) (bs.flatMap (blockText n) ++ ['\n', '\x7d']) Anything
      fun cs => cs.map NamedBlock.bare = bs.map n.namedBlock :=
  Reads.many (fun c hc => reads_laterBlock hn (h c hc) (hdistinct c hc)) (fun _ _ => List.cons_ne_nil _ _)
    (fun c _ => endsLine_block hn c) reads_bodyEnd fun rest _ => endsLine_bodyEnd rest

/-- The blocks of a body are read back to the bracket that closes it. -/
theorem reads_body {b : Block} {bs : List Block} (h : ∀ c ∈ b :: bs, c.Typed n.typeOf)
    (hdistinct : ∀ c ∈ b :: bs, c.terminator.Distinct n.typeOf) :
    Reads body (" \x7b".toList ++ ((b :: bs).flatMap (blockText n) ++ ['\n', '\x7d'])) Anything
      fun cs => cs.map NamedBlock.bare = (b :: bs).map n.namedBlock := by
  obtain ⟨hb, hbs⟩ := List.forall_mem_cons.1 h
  obtain ⟨hbdistinct, hbsdistinct⟩ := List.forall_mem_cons.1 hdistinct
  have hword := (hn.label b.id).beginsWord
  have htext : (b :: bs).flatMap (blockText n) ++ ['\n', '\x7d'] =
      ['\n'] ++ (((n.label b.id).toList ++ [':']) ++
        (linesText n b ++ (bs.flatMap (blockText n) ++ ['\n', '\x7d']))) := by
    simp [blockText]
  rw [htext]
  refine ((@reads_sign "\x7b" ⟨'\x7b', [], rfl, by decide⟩).blank rfl).bind (fun _ _ => ?_) fun _ _ => trivial
  refine (reads_lead newline).bind (fun _ _ => ?_) fun rest _ => ((hword.append _).append _).append rest |>.shows
  refine (Reads.accepts_false fun rest hrest => fails_exactly hrest).nil_bind ?_ fun rest _ => ?_
  · rintro _ rfl
    refine (reads_blockLabel hn b).bind ?_ fun _ _ => trivial
    rintro _ ⟨label, rfl, hlabel⟩
    refine (reads_block hn hb hbdistinct hlabel).bind (fun c hc => ?_) fun rest _ => ?_
    · refine (reads_laterBlocks hn hbs hbsdistinct).map fun cs hcs => ?_
      rw [List.map_cons, List.map_cons, hc, hcs]
    · cases bs with
      | nil => exact endsLine_bodyEnd rest
      | cons d ds =>
        rw [List.flatMap_cons, List.append_assoc, List.append_assoc]
        exact endsLine_block hn d _
  · exact dropWord?_of_head ((((hword.append _).append _).append rest).head?_ne rfl)

end

end SSALint.Source
