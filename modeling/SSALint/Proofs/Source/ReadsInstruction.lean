/-
Instructions that were written. What each opcode calls for is read back from the text behind the opcode, with the
type of the result (`reads_arguments`), provided that the operation is in typed form.
-/
import SSALint.Proofs.IR.Operands
import SSALint.Proofs.Source.ReadsValue
import SSALint.Source.Instruction

namespace SSALint.Source

/-! ## Opcodes and predicates -/

/-- An enumeration whose members are words that tell them apart. -/
class Worded (α : Type) [Spelled α] : Prop where
  isWord : ∀ a : α, IsWord (Spelled.spelling a)
  ofWord? : ∀ a : α, Spelled.ofWord? (Spelled.spelling a) = some a

instance : Worded BinaryOp where
  isWord op := by cases op <;> exact isWord_of_all (by decide) (by decide)
  ofWord? op := by cases op <;> rfl

instance : Worded CastOp where
  isWord op := by cases op <;> exact isWord_of_all (by decide) (by decide)
  ofWord? op := by cases op <;> rfl

instance : Worded IntPredicate where
  isWord pred := by cases pred <;> exact isWord_of_all (by decide) (by decide)
  ofWord? pred := by cases pred <;> rfl

instance : Worded FloatPredicate where
  isWord pred := by cases pred <;> exact isWord_of_all (by decide) (by decide)
  ofWord? pred := by cases pred <;> rfl

theorem isWord_opcode (o : Operation LocalId Symbol BlockId) : IsWord o.opcode := by
  cases o with
  | binary op => exact Worded.isWord op
  | cast op => exact Worded.isWord op
  | _ => exact isWord_of_all (by dsimp only [Operation.opcode]; decide) (by dsimp only [Operation.opcode]; decide)

theorem operationOf?_binary (place : List Char) (op : BinaryOp) :
    operationOf? place (Spelled.spelling op) = some (binary op) := by
  cases op <;> rfl

theorem operationOf?_cast (place : List Char) (op : CastOp) :
    operationOf? place (Spelled.spelling op) = some (cast op) := by
  cases op <;> rfl

theorem terminatorOf?_opcode (o : Operation LocalId Symbol BlockId) : terminatorOf? o.opcode = none := by
  cases o with
  | binary op => cases op <;> rfl
  | cast op => cases op <;> rfl
  | _ => rfl

/-- What is read of an operation means it, and its result has the type that follows. -/
def Means (n : Names) (o : Operation LocalId Symbol BlockId) (x : TypedOperation) : Prop :=
  bareOperation x.1 = n.namedOperation o ∧ x.2 = o.resultType? n.typeOf

variable {n : Names}

theorem reads_alloca {t : Ty} (ht : t.Writable) :
    Reads alloca (' ' :: t.print.toList) Stops (Means n (.alloca t)) := by
  refine (reads_ty blanks_one ht).map ?_
  rintro _ rfl
  exact ⟨rfl, rfl⟩

section

variable (hn : n.Spelled)

include hn

/-! ## Memory -/

theorem reads_load {t : Ty} {ptr : Value} (ht : t.Writable) (hptr : ptr.Typed n.typeOf) :
    Reads load (' ' :: t.print.toList ++ ',' :: ' ' :: (n.typed ptr).toList) Stops (Means n (.load t ptr)) := by
  refine (reads_ty blanks_one ht).bind ?_ fun _ _ => stops_cons rfl
  rintro t rfl
  refine (reads_commaOperand hn hptr).map fun w hw => ⟨?_, rfl⟩
  exact congrArg (Operation.load _) hw

theorem reads_store {v ptr : Value} (hv : v.Typed n.typeOf) (hptr : ptr.Typed n.typeOf) :
    Reads store (' ' :: (n.typed v).toList ++ ',' :: ' ' :: (n.typed ptr).toList) Stops (Means n (.store v ptr)) := by
  refine (reads_operand hn blanks_one hv).bind (fun w hw => ?_) fun _ _ => stops_cons rfl
  refine (reads_commaOperand hn hptr).map fun u hu => ⟨?_, rfl⟩
  exact congrArg₂ Operation.store hw hu

theorem reads_getElementPtr {t : Ty} {ptr : Value} {indices : List Value} (ht : t.Writable)
    (hptr : ptr.Typed n.typeOf) (hindices : ∀ v ∈ indices, v.Typed n.typeOf) :
    Reads getElementPtr
      (' ' :: t.print.toList ++ (',' :: ' ' :: (n.typed ptr).toList ++
        indices.flatMap fun v => [','] ++ ' ' :: (n.typed v).toList))
      EndsLine (Means n (.getElementPtr t ptr indices)) := by
  have hinbounds : ∀ rest, dropWord? "inbounds".toList (skipBlanks ([' '] ++ t.print.toList ++ rest)) = none := by
    intro rest
    by_cases hint : ∃ bits, t = .int bits
    · obtain ⟨bits, rfl⟩ := hint
      -- The second letter tells the word from an integer type, which has a digit there.
      have htext : (Ty.int bits).print.toList = 'i' :: Nat.toDigits 10 bits.toNat := by
        rw [Ty.print, String.toList_append, toList_toString_nat]
        rfl
      obtain ⟨c, r, hc, hnumber⟩ := beginsNumber_toDigits bits.toNat
      rw [htext, hc]
      show dropWord? ('n' :: _) (c :: _) = none
      refine dropWord?_of_head fun h => ?_
      obtain rfl : c = 'n' := Option.some.inj h
      exact absurd hnumber (by decide)
    · have hinitial : t.initial ≠ 'i' := by
        intro h
        cases t with
        | int bits => exact hint ⟨bits, rfl⟩
        | _ => simp [Ty.initial] at h
      exact dropWord?_print hinitial blanks_one rest
  refine (Reads.accepts_false fun rest hrest => fails_keyword hrest).nil_bind ?_ fun rest _ => ?_
  · rintro _ rfl
    refine (reads_ty blanks_one ht).bind ?_ fun _ _ => stops_cons rfl
    rintro _ rfl
    refine (reads_commaOperand hn hptr).bind (fun w hw => ?_) fun rest hrest => ?_
    · refine (reads_commaOperands hn hindices).map fun ws hws => ⟨?_, rfl⟩
      show Operation.getElementPtr _ (bareValue w) (ws.mapIdx fun _ => bareValue) =
        .getElementPtr _ (n.namedValue ptr) (indices.mapIdx fun _ => n.namedValue)
      rw [mapIdx_const, mapIdx_const, hw, hws]
    · cases indices with
      | nil => exact hrest.stops
      | cons v vs => exact stops_cons rfl
  · rw [List.append_assoc]
    exact hinbounds _

/-! ## Two values under one type -/

theorem reads_binary (op : BinaryOp) {t : Ty} {lhs rhs : Value} (ht : t.Writable) (hlhs : lhs.Fits t)
    (hrhs : rhs.Fits t) : Reads (binary op) (' ' :: t.print.toList ++ (' ' :: (n.value lhs).toList ++
      ',' :: ' ' :: (n.value rhs).toList)) Stops (Means n (.binary op t lhs rhs)) := by
  refine (reads_ty blanks_one ht).bind ?_ fun _ _ => stops_cons rfl
  rintro t rfl
  refine ((reads_pair hn hlhs hrhs).blank rfl).map ?_
  rintro ⟨w, u⟩ ⟨hw, hu⟩
  exact ⟨congrArg₂ (Operation.binary op t) hw hu, rfl⟩

theorem reads_compare {P : Type} [Spelled P] [Worded P] {pred : P} (place : List Char) (unknown : Complaint)
    {make : P → Ty → NamedValue → NamedValue → Operation Mention Mention Mention} {t : Ty} {lhs rhs : Value}
    {Q : TypedOperation → Prop} (ht : t.Writable) (hlhs : lhs.Fits t) (hrhs : rhs.Fits t)
    (hmake : ∀ w u, bareValue w = n.namedValue lhs → bareValue u = n.namedValue rhs →
      Q (make pred t w u, some (.int 1))) :
    Reads (compare place unknown make) (' ' :: (Spelled.spelling pred).toList ++ (' ' :: t.print.toList ++
      (' ' :: (n.value lhs).toList ++ ',' :: ' ' :: (n.value rhs).toList))) Stops Q := by
  have hpred : IsWord (Spelled.spelling pred) := Worded.isWord pred
  refine (reads_lead blanks_one).bind (fun _ _ => ?_) fun rest _ => (hpred.shows.append _).append rest
  refine (reads_word hpred).bind ?_ fun _ _ => stops_cons rfl
  rintro _ rfl
  refine (reads_ty blanks_one ht).bind ?_ fun _ _ => stops_cons rfl
  rintro t rfl
  refine ((reads_pair hn hlhs hrhs).blank rfl).bind_nil ?_
  rintro ⟨w, u⟩ ⟨hw, hu⟩
  simp only [Worded.ofWord?]
  exact .pure (hmake w u hw hu)

/-! ## Choices -/

omit hn in
theorem toList_incoming (alt : Value × BlockId) : (n.incoming alt).toList = (' ' :: "[".toList) ++
    (' ' :: (n.value alt.1).toList ++ (',' :: ' ' :: '%' :: (n.label alt.2).toList ++ [' ', ']'])) := by
  simp [Names.incoming, String.toList_append]

theorem reads_incoming {t : Ty} {alt : Value × BlockId} (h : alt.1.Fits t) :
    Reads (incoming t) (n.incoming alt).toList Anything
      fun x => (bareValue x.1, x.2.bare) = (n.namedValue alt.1, n.namedLabel alt.2) := by
  rw [toList_incoming]
  refine ((@reads_sign "[" ⟨'[', [], rfl, by decide⟩).blank rfl).bind (fun _ _ => ?_) fun _ _ => trivial
  refine ((reads_value hn h).blank rfl).bind (fun w hw => ?_) fun _ _ => stops_cons rfl
  have hlabel : Reads (comma localName) (',' :: ' ' :: '%' :: (n.label alt.2).toList) Stops _ :=
    reads_comma ((reads_sigilName (by decide) (hn.label alt.2)).blank rfl)
  refine hlabel.bind (fun m hm => ?_) fun _ _ => stops_cons rfl
  refine ((@reads_sign "]" ⟨']', [], rfl, by decide⟩).blank rfl).map fun _ _ => ?_
  exact congrArg₂ Prod.mk hw (congrArg Mention.of hm)

theorem reads_phi {t : Ty} {alts : List (Value × BlockId)} (ht : t.Writable) (hne : alts ≠ [])
    (halts : ∀ alt ∈ alts, alt.1.Fits t) :
    Reads phi (' ' :: t.print.toList ++ (",".intercalate (alts.map n.incoming)).toList) EndsLine
      (Means n (.phi t alts)) := by
  cases alts with
  | nil => exact absurd rfl hne
  | cons alt alts =>
    obtain ⟨halt, halts⟩ := List.forall_mem_cons.1 halts
    rw [toList_intercalate_cons]
    refine (reads_ty blanks_one ht).bind ?_ fun rest _ => ?_
    · rintro t rfl
      have hitems : Reads (Parser.sepBy1 (sign ",") (incoming t))
          ((n.incoming alt).toList ++ alts.flatMap fun x => ",".toList ++ (n.incoming x).toList) EndsLine
          fun xs => xs.map (fun x => (bareValue x.1, x.2.bare)) =
            (alt :: alts).map fun x => (n.namedValue x.1, n.namedLabel x.2) :=
        Reads.sepBy1 (@reads_sign "," ⟨',', [], rfl, by decide⟩) (by decide) (fun _ => trivial)
          (fun rest hrest => ⟨trivial, fails_sign (dropWord?_of_head hrest.noComma)⟩) (reads_incoming hn halt)
          fun x hx => reads_incoming hn (halts x hx)
      refine hitems.map fun xs hxs => ⟨?_, rfl⟩
      simp only [bareOperation, Names.namedOperation, Operation.mapOperands, Operation.mapTargets, mapIdx_const,
        List.map_map]
      exact congrArg (Operation.phi t) hxs
    · rw [toList_incoming]
      exact stops_cons rfl

theorem reads_select {cond whenTrue whenFalse : Value} (hcond : cond.Typed n.typeOf)
    (htrue : whenTrue.Typed n.typeOf) (hfalse : whenFalse.Typed n.typeOf) :
    Reads select (' ' :: (n.typed cond).toList ++ (',' :: ' ' :: (n.typed whenTrue).toList ++
      ',' :: ' ' :: (n.typed whenFalse).toList)) Stops (Means n (.select cond whenTrue whenFalse)) := by
  refine (reads_operand hn blanks_one hcond).bind (fun w hw => ?_) fun _ _ => stops_cons rfl
  refine (reads_comma (reads_typedValue hn blanks_one htrue)).bind ?_ fun _ _ => stops_cons rfl
  rintro ⟨t, u⟩ ⟨ht, hu⟩
  refine (reads_commaOperand hn hfalse).map fun x hx => ⟨?_, congrArg some ht⟩
  show Operation.select (bareValue w) (bareValue u) (bareValue x) = _
  rw [hw, hu, hx]
  rfl

/-! ## Casts and calls -/

theorem reads_cast (op : CastOp) {v : Value} {t : Ty} (hv : v.Typed n.typeOf) (ht : t.Writable) :
    Reads (cast op) (' ' :: (n.typed v).toList ++ (' ' :: "to".toList ++ ' ' :: t.print.toList)) Stops
      (Means n (.cast op v t)) := by
  refine (reads_operand hn blanks_one hv).bind (fun w hw => ?_) fun _ _ => stops_cons rfl
  refine ((@reads_keyword "to" ⟨'t', _, rfl, by decide⟩).blank rfl).bind (fun _ _ => ?_) fun _ _ => stops_cons rfl
  refine (reads_ty blanks_one ht).map ?_
  rintro t rfl
  exact ⟨congrArg (Operation.cast op · t) hw, rfl⟩

theorem reads_call {ret : Ty} {callee : Value} {args : List Value} (hret : ret.Writable) (hcallee : callee.Fits .ptr)
    (hargs : ∀ v ∈ args, v.Typed n.typeOf) :
    Reads call (' ' :: ret.print.toList ++ (' ' :: (n.value callee).toList ++ ("(".toList ++
      ((", ".intercalate (args.map n.typed)).toList ++ [')'])))) EndsLine (Means n (.call ret callee args)) := by
  refine (reads_ty blanks_one hret).bind ?_ fun _ _ => stops_cons rfl
  rintro ret rfl
  refine ((reads_value hn hcallee).blank rfl).bind (fun w hw => ?_) fun _ _ => stops_cons rfl
  refine (@reads_sign "(" ⟨'(', [], rfl, by decide⟩).bind (fun _ _ => ?_) fun _ _ => trivial
  have hlist : Reads (listUntil ")" operand) ((", ".intercalate (args.map n.typed)).toList ++ [')']) Anything
      fun ws => ws.map bareValue = args.map n.namedValue := by
    refine reads_listUntil rfl (by decide) rfl (by decide) (fun v hv => ?_)
      fun lead hlead v hv => reads_operand hn hlead (hargs v hv)
    obtain ⟨cs, hcs⟩ := (n.typeOf v).toList_print
    refine ⟨(n.typeOf v).initial, _, by rw [toList_typed, hcs]; rfl, isVisible_initial _, ?_⟩
    cases n.typeOf v <;> simp [Ty.initial]
  refine (hlist.weaken (fun _ _ => trivial) fun _ h => h).map fun ws hws => ⟨?_, rfl⟩
  show Operation.call ret (bareValue w) (ws.mapIdx fun _ => bareValue) =
    .call ret (n.namedValue callee) (args.mapIdx fun _ => n.namedValue)
  rw [mapIdx_const, mapIdx_const, hw, hws]

/-! ## Aggregates and vectors -/

omit hn in
theorem toList_path (indices : List UInt32) :
    (Names.path indices).toList = indices.flatMap fun i => ',' :: ' ' :: (toString i.toNat).toList := by
  unfold Names.path
  rw [String.toList_join, List.flatMap_map]
  exact List.flatMap_congr fun i _ => by simp [String.toList_append]

omit hn in
theorem reads_pathStep (i : UInt32) :
    Reads pathStep (',' :: ' ' :: (toString i.toNat).toList) Stops fun o => ∃ j, o = some j ∧ j = i := by
  have hnumber := reads_unsigned i.toUInt64
  rw [UInt32.toNat_toUInt64] at hnumber
  refine (Reads.here (F := Anything)).nil_bind (fun place _ => ?_) fun _ _ => trivial
  refine (@reads_sign "," ⟨',', [], rfl, by decide⟩).accepts_true.bind ?_ fun _ _ => trivial
  rintro _ rfl
  refine (hnumber.blank rfl).bind_nil ?_
  rintro _ rfl
  show Reads (if i.toUInt64.toNat < UInt32.size then pure (some i.toUInt64.toUInt32) else _) [] Stops _
  rw [UInt32.toNat_toUInt64, if_pos i.toNat_lt_size]
  exact .pure ⟨_, rfl, by simp⟩

omit hn in
theorem reads_path {indices : List UInt32} (hne : indices ≠ []) :
    Reads path (Names.path indices).toList EndsLine (· = indices) := by
  have hmany : Reads (Parser.many pathStep)
      ((indices.flatMap fun i => ',' :: ' ' :: (toString i.toNat).toList) ++ []) EndsLine
      fun is => is.map id = indices.map id := by
    refine Reads.many (fun i _ => reads_pathStep i) (fun _ _ => List.cons_ne_nil _ _) (fun _ _ _ => stops_cons rfl) ?_
      fun rest hrest => hrest.stops
    refine (Reads.here (F := EndsLine)).nil_bind (fun place _ => ?_) fun _ h => h
    refine (Reads.accepts_false fun rest hrest => fails_sign ?_).bind_nil ?_
    · exact dropWord?_of_head (EndsLine.noComma hrest)
    · rintro _ rfl
      exact .pure rfl
  rw [toList_path, ← List.append_nil (List.flatMap _ _)]
  refine hmany.bind_nil fun is his => ?_
  rw [List.map_id, List.map_id] at his
  subst his
  cases is with
  | nil => exact absurd rfl hne
  | cons i is => exact .pure rfl

omit hn in
theorem stops_path {indices : List UInt32} (hne : indices ≠ []) (rest : List Char) :
    Stops ((Names.path indices).toList ++ rest) := by
  rw [toList_path]
  cases indices with
  | nil => exact absurd rfl hne
  | cons i is => exact stops_cons rfl

theorem reads_extractValue (place : List Char) {aggregate : Value} {indices : List UInt32}
    (haggregate : aggregate.Typed n.typeOf) (hne : indices ≠ [])
    (hfield : ((n.typeOf aggregate).at? indices).isSome = true) :
    Reads (extractValue place) (' ' :: (n.typed aggregate).toList ++ (Names.path indices).toList) EndsLine
      (Means n (.extractValue aggregate indices)) := by
  refine (reads_typedValue hn blanks_one haggregate).bind ?_ fun rest _ => stops_path hne rest
  rintro ⟨t, w⟩ ⟨rfl, hw⟩
  refine (reads_path hne).bind_nil ?_
  rintro indices rfl
  obtain ⟨field, hfield⟩ := Option.isSome_iff_exists.1 hfield
  simp only [hfield]
  exact .pure ⟨congrArg (Operation.extractValue · indices) hw, hfield.symm⟩

theorem reads_insertValue {aggregate v : Value} {indices : List UInt32} (haggregate : aggregate.Typed n.typeOf)
    (hv : v.Typed n.typeOf) (hne : indices ≠ []) :
    Reads insertValue (' ' :: (n.typed aggregate).toList ++ (',' :: ' ' :: (n.typed v).toList ++
      (Names.path indices).toList)) EndsLine (Means n (.insertValue aggregate v indices)) := by
  refine (reads_typedValue hn blanks_one haggregate).bind ?_ fun _ _ => stops_cons rfl
  rintro ⟨t, w⟩ ⟨ht, hw⟩
  refine (reads_commaOperand hn hv).bind (fun u hu => ?_) fun rest _ => stops_path hne rest
  refine (reads_path hne).map ?_
  rintro indices rfl
  exact ⟨congrArg₂ (Operation.insertValue · · indices) hw hu, congrArg some ht⟩

theorem reads_extractElement (place : List Char) {vector index : Value} (hvector : vector.Typed n.typeOf)
    (hindex : index.Typed n.typeOf) (helem : (n.typeOf vector).vectorElem?.isSome = true) :
    Reads (extractElement place) (' ' :: (n.typed vector).toList ++ ',' :: ' ' :: (n.typed index).toList) Stops
      (Means n (.extractElement vector index)) := by
  refine (reads_typedValue hn blanks_one hvector).bind ?_ fun _ _ => stops_cons rfl
  rintro ⟨t, w⟩ ⟨rfl, hw⟩
  refine (reads_commaOperand hn hindex).bind_nil fun u hu => ?_
  obtain ⟨elem, helem⟩ := Option.isSome_iff_exists.1 helem
  simp only [helem]
  exact .pure ⟨congrArg₂ Operation.extractElement hw hu, helem.symm⟩

theorem reads_insertElement {vector v index : Value} (hvector : vector.Typed n.typeOf) (hv : v.Typed n.typeOf)
    (hindex : index.Typed n.typeOf) :
    Reads insertElement (' ' :: (n.typed vector).toList ++ (',' :: ' ' :: (n.typed v).toList ++
      ',' :: ' ' :: (n.typed index).toList)) Stops (Means n (.insertElement vector v index)) := by
  refine (reads_typedValue hn blanks_one hvector).bind ?_ fun _ _ => stops_cons rfl
  rintro ⟨t, w⟩ ⟨ht, hw⟩
  refine (reads_commaOperand hn hv).bind (fun u hu => ?_) fun _ _ => stops_cons rfl
  refine (reads_commaOperand hn hindex).map fun x hx => ⟨?_, congrArg some ht⟩
  show Operation.insertElement (bareValue w) (bareValue u) (bareValue x) = _
  rw [hw, hu, hx]
  rfl

/-! ## Operations -/

/-- What an opcode calls for reads the text behind the opcode. -/
def ReadsBehind (n : Names) (place : List Char) (o : Operation LocalId Symbol BlockId) (text : List Char) : Prop :=
  ∃ p, operationOf? place o.opcode = some p ∧ Reads p text EndsLine (Means n o)

omit hn in
theorem ReadsBehind.of_stops {place : List Char} {o : Operation LocalId Symbol BlockId} {text : List Char}
    {p : Parser TypedOperation} (hp : operationOf? place o.opcode = some p) (h : Reads p text Stops (Means n o)) :
    ReadsBehind n place o text :=
  ⟨p, hp, h.weaken (fun _ hrest => hrest.stops) fun _ hx => hx⟩

/-- The text of an operation in typed form is its opcode and what the opcode calls for. -/
theorem reads_arguments (place : List Char) {o : Operation LocalId Symbol BlockId} (h : o.Typed n.typeOf) :
    ∃ text, (n.operation o).toList = o.opcode.toList ++ ' ' :: text ∧ ReadsBehind n place o (' ' :: text) := by
  cases o with
  | alloca t =>
    refine ⟨_, ?_, .of_stops rfl (reads_alloca h)⟩
    unfold Names.operation Operation.opcode
    simp
  | store v ptr =>
    refine ⟨_, ?_, .of_stops rfl (reads_store hn h.1 h.2)⟩
    unfold Names.operation Operation.opcode
    simp
  | load t ptr =>
    refine ⟨_, ?_, .of_stops rfl (reads_load hn h.1 h.2)⟩
    unfold Names.operation Operation.opcode
    simp
  | binary op t lhs rhs =>
    refine ⟨_, ?_, .of_stops (operationOf?_binary place op) (reads_binary hn op h.1 h.2.1 h.2.2)⟩
    unfold Names.operation Operation.opcode
    simp [Names.pair]
  | icmp pred t lhs rhs =>
    refine ⟨_, ?_, .of_stops rfl (reads_compare hn place _ h.1 h.2.1 h.2.2
      fun w u hw hu => ⟨congrArg₂ (Operation.icmp pred t) hw hu, rfl⟩)⟩
    unfold Names.operation Operation.opcode
    simp [Names.pair]
  | fcmp pred t lhs rhs =>
    refine ⟨_, ?_, .of_stops rfl (reads_compare hn place _ h.1 h.2.1 h.2.2
      fun w u hw hu => ⟨congrArg₂ (Operation.fcmp pred t) hw hu, rfl⟩)⟩
    unfold Names.operation Operation.opcode
    simp [Names.pair]
  | cast op v t =>
    refine ⟨_, ?_, .of_stops (operationOf?_cast place op) (reads_cast hn op h.1 h.2)⟩
    unfold Names.operation Operation.opcode
    simp
  | phi t alts =>
    refine ⟨_, ?_, phi, rfl, reads_phi hn h.1 h.2.1 h.2.2⟩
    unfold Names.operation Operation.opcode
    simp
  | select cond whenTrue whenFalse =>
    refine ⟨_, ?_, .of_stops rfl (reads_select hn h.1 h.2.1 h.2.2)⟩
    unfold Names.operation Operation.opcode
    simp [Names.typedList]
  | getElementPtr t ptr indices =>
    refine ⟨_, ?_, getElementPtr, rfl, reads_getElementPtr hn h.1 h.2.1 h.2.2⟩
    unfold Names.operation Operation.opcode Names.typedList
    rw [String.toList_append, toList_intercalate_cons]
    simp
  | extractValue aggregate indices =>
    refine ⟨_, ?_, extractValue place, rfl, reads_extractValue hn place h.1 h.2.1 h.2.2⟩
    unfold Names.operation Operation.opcode
    simp
  | insertValue aggregate v indices =>
    refine ⟨_, ?_, insertValue, rfl, reads_insertValue hn h.1 h.2.1 h.2.2⟩
    unfold Names.operation Operation.opcode
    simp [Names.typedList]
  | extractElement vector index =>
    refine ⟨_, ?_, .of_stops rfl (reads_extractElement hn place h.1 h.2.1 h.2.2)⟩
    unfold Names.operation Operation.opcode
    simp [Names.typedList]
  | insertElement vector v index =>
    refine ⟨_, ?_, .of_stops rfl (reads_insertElement hn h.1 h.2.1 h.2.2)⟩
    unfold Names.operation Operation.opcode
    simp [Names.typedList]
  | call ret callee args =>
    refine ⟨_, ?_, call, rfl, reads_call hn h.1 h.2.1 h.2.2⟩
    unfold Names.operation Operation.opcode
    simp [Names.typedList]

end

end SSALint.Source
