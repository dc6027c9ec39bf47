/-
Types that were written. A type is read back wherever a word ends behind it (`reads_ty`), unless it has an
integer without bits in it, which no text names.
-/
import SSALint.Proofs.IR.Typed
import SSALint.Proofs.Source.ReadsToken

namespace SSALint

namespace Ty

/-- The character that the text of a type begins with. -/
def initial : Ty → Char
  | .void => 'v'
  | .int _ => 'i'
  | .half => 'h'
  | .float => 'f'
  | .double => 'd'
  | .ptr => 'p'
  | .label => 'l'
  | .array .. => '['
  | .vector .. => '<'
  | .struct _ => '\x7b'

theorem toList_print (t : Ty) : ∃ cs, t.print.toList = t.initial :: cs := by
  cases t <;> simp [print, initial, String.toList_append]

end Ty

namespace Source

theorem reads_lead {lead : List Char} (h : Blanks lead) : Reads blanks lead Shows fun _ => True := by
  intro rest hrest
  refine ⟨(), ?_, trivial⟩
  show Except.ok ((), Source.skipBlanks (lead ++ rest)) = _
  rw [h.skipBlanks, hrest.skipBlanks]

theorem toList_intercalate_cons {α : Type} (sep : String) (x : α) (xs : List α) (f : α → String) :
    (sep.intercalate ((x :: xs).map f)).toList = (f x).toList ++ xs.flatMap fun y => sep.toList ++ (f y).toList := by
  rw [String.toList_intercalate, List.map_map]
  induction xs generalizing x with
  | nil => simp
  | cons y ys ih =>
    rw [List.map_cons, List.map_cons, List.intercalate_cons_cons, ← List.map_cons, ih]
    simp

theorem isVisible_initial (t : Ty) : IsVisible t.initial := by
  cases t <;> exact ⟨rfl, by simp [Ty.initial]⟩

/-- A word that begins otherwise is not at the front of a type. -/
theorem dropWord?_print {t : Ty} {w : Char} {word : List Char} (h : t.initial ≠ w) {lead : List Char}
    (hlead : Blanks lead) (rest : List Char) :
    dropWord? (w :: word) (skipBlanks (lead ++ t.print.toList ++ rest)) = none := by
  obtain ⟨cs, hcs⟩ := t.toList_print
  rw [List.append_assoc, hlead.skipBlanks, hcs, List.cons_append, (isVisible_initial t).skipBlanks]
  exact dropWord?_of_head fun hhead => h (Option.some.inj hhead)

/-! ## Lists -/

/-- Items with commas between them and a bracket behind them. -/
theorem reads_listUntil {α γ δ : Type} {closing : String} {c : Char} (hclosing : closing.toList = [c])
    (hvisible : IsVisible c) (hword : isWordChar c = false) (hcomma : c ≠ ',') {item : Parser α} {xs : List γ}
    {write : γ → String} {name : α → δ} {named : γ → δ}
    (hfirst : ∀ x ∈ xs, ∃ d r, (write x).toList = d :: r ∧ IsVisible d ∧ d ≠ c)
    (hitem : ∀ lead, Blanks lead → ∀ x ∈ xs, Reads item (lead ++ (write x).toList) Stops fun a => name a = named x) :
    Reads (listUntil closing item) ((", ".intercalate (xs.map write)).toList ++ [c]) Anything
      fun as => as.map name = xs.map named := by
  have hclose := @reads_sign closing ⟨c, [], hclosing, hvisible⟩
  rw [hclosing] at hclose
  cases xs with
  | nil =>
    refine hclose.accepts_true.bind_nil ?_
    rintro _ rfl
    exact .pure rfl
  | cons x xs =>
    obtain ⟨d, r, hd, hdvisible, hdc⟩ := hfirst x List.mem_cons_self
    rw [toList_intercalate_cons]
    refine (Reads.accepts_false fun rest hrest => fails_sign hrest).nil_bind ?_ fun rest _ => ?_
    · rintro _ rfl
      have hitems : Reads (Parser.sepBy1 (sign ",") item)
          ((write x).toList ++ xs.flatMap fun y => [','] ++ ' ' :: (write y).toList) (fun rest => rest.head? = some c)
          fun as => as.map name = (x :: xs).map named := by
        refine Reads.sepBy1 (@reads_sign "," ⟨',', [], rfl, by decide⟩) (by decide) (fun _ => stops_cons rfl)
          (fun rest hrest => ?_) (hitem [] blanks_nil x List.mem_cons_self)
          fun y hy => hitem [' '] blanks_one y (List.mem_cons_of_mem _ hy)
        cases rest with
        | nil => cases hrest
        | cons e rest =>
          obtain rfl : e = c := Option.some.inj hrest
          refine ⟨stops_cons hword, fails_sign ?_⟩
          rw [hvisible.skipBlanks]
          exact dropWord?_of_head fun h => hcomma (Option.some.inj h)
      exact hitems.bind (fun as has => hclose.map fun _ _ => has) fun _ _ => rfl
    · rw [hd, hclosing]
      show dropWord? [c] (skipBlanks (d :: _)) = none
      rw [hdvisible.skipBlanks]
      exact dropWord?_of_head fun h => hdc (Option.some.inj h)

/-! ## Simple types -/

theorem isWord_of_all {name : String} (hne : name.toList ≠ [])
    (h : name.toList.all isWordChar = true) : IsWord name :=
  ⟨hne, List.all_eq_true.1 h⟩

/-- The name of an integer type is read as the type. -/
theorem simpleTy?_int {bits : UInt32} (h : bits ≠ 0) : simpleTy? ("i" ++ toString bits.toNat) = some (.int bits) := by
  have hlist : ("i" ++ toString bits.toNat).toList = 'i' :: Nat.toDigits 10 bits.toNat := by
    rw [String.toList_append, toList_toString_nat]
    rfl
  have hne : ∀ word : String, word.toList.head? ≠ some 'i' → "i" ++ toString bits.toNat ≠ word := by
    rintro word hword rfl
    rw [hlist] at hword
    exact hword rfl
  have hpos : 0 < bits.toNat := Nat.pos_of_ne_zero fun hz => h (UInt32.toNat_inj.1 hz)
  unfold simpleTy?
  split
  case h_7 =>
    rw [hlist]
    simp only [digitsValue_toDigits]
    rw [if_pos ⟨Nat.toDigits_ne_nil, List.all_eq_true.2 (isDigit_toDigits _), hpos, bits.toNat_lt_size⟩]
    rw [UInt32.ofNat_toNat]
  all_goals
    rename_i hword
    exact absurd hword (hne _ (by decide))

theorem isWord_int (bits : UInt32) : IsWord ("i" ++ toString bits.toNat) := by
  have hlist : ("i" ++ toString bits.toNat).toList = 'i' :: Nat.toDigits 10 bits.toNat := by
    rw [String.toList_append, toList_toString_nat]
    rfl
  constructor
  · rw [hlist]
    exact List.cons_ne_nil _ _
  · rw [hlist]
    intro c hc
    rcases List.mem_cons.1 hc with rfl | hc
    · rfl
    · exact isWordChar_of_isDigit (isDigit_toDigits _ c hc)

theorem reads_simpleTy {name : String} (hname : IsWord name) {t : Ty} (h : simpleTy? name = some t) :
    Reads simpleTy name.toList Stops (· = t) := by
  refine (Reads.here (F := Anything)).nil_bind (fun place _ => ?_) fun _ _ => trivial
  refine (reads_word hname).bind_nil ?_
  rintro _ rfl
  rw [h]
  exact .pure rfl

/-! ## Aggregates -/

instance (depth : Nat) : Lead (tyWithin (depth + 1)) := inferInstanceAs (Lead (blanks >>= fun _ => _))

/-- What stands inside the brackets of an array or a vector, and the closing one. -/
theorem reads_elements {p : Parser Ty} [Lead p] {elem : Ty} (hp : Reads p elem.print.toList Stops (· = elem))
    (length : UInt64) (make : UInt64 → Ty → Ty) {closing : String} {c : Char} (hclosing : closing.toList = [c])
    (hvisible : IsVisible c) (hword : isWordChar c = false) :
    Reads (elements closing make p)
      ((toString length.toNat).toList ++ ([' ', 'x'] ++ (' ' :: elem.print.toList ++ [c])))
      Anything (· = make length elem) := by
  have hx : Reads (keyword "x") [' ', 'x'] Stops fun _ => True :=
    (@reads_keyword "x" ⟨'x', [], rfl, by decide⟩).blank rfl
  have hclose := @reads_sign closing ⟨c, [], hclosing, hvisible⟩
  rw [hclosing] at hclose
  refine (reads_unsigned length).bind ?_ fun _ _ => stops_cons rfl
  rintro _ rfl
  refine hx.bind (fun _ _ => ?_) fun _ _ => stops_cons rfl
  refine (hp.blank rfl).bind ?_ fun rest _ => stops_cons hword
  rintro _ rfl
  exact hclose.map fun _ _ => rfl

/-- The bracket that opens an aggregate is none of those that are asked for before it. -/
theorem reads_opening {α : Type} {other : String} {p q : Parser α} {c d : Char} {text : List Char}
    {F : List Char → Prop} {Q : α → Prop} (hother : other.toList = [d]) (hne : c ≠ d)
    (h : Reads q (c :: text) F Q) :
    Reads (do if ← Parser.accepts (exactly other) then p else q) (c :: text) F Q := by
  refine (Reads.accepts_false fun rest hrest => fails_exactly hrest).nil_bind (fun b hb => ?_) fun rest _ => ?_
  · rw [hb]
    exact h
  · rw [hother]
    exact dropWord?_of_head fun hhead => hne (Option.some.inj hhead)

theorem reads_opened {α : Type} {opening : String} {p q : Parser α} {text : List Char} {F : List Char → Prop}
    {Q : α → Prop} (h : Reads p text F Q) :
    Reads (do if ← Parser.accepts (exactly opening) then p else q) (opening.toList ++ text) F Q := by
  refine (reads_exactly opening).accepts_true.bind ?_ fun _ _ => trivial
  rintro _ rfl
  exact h

theorem toList_printFields_cons (t : Ty) (ts : List Ty) :
    (Ty.printFields (t :: ts)).toList = t.print.toList ++ ts.flatMap fun u => [','] ++ ' ' :: u.print.toList := by
  induction ts generalizing t with
  | nil => simp [Ty.printFields]
  | cons u us ih =>
    rw [Ty.printFields, String.toList_append, String.toList_append, ih, List.flatMap_cons]
    simp

theorem length_print_le {t : Ty} {ts : List Ty} (h : t ∈ ts) :
    t.print.toList.length ≤ (Ty.printFields ts).toList.length := by
  induction ts with
  | nil => cases h
  | cons u us ih =>
    cases us with
    | nil =>
      rw [List.mem_singleton.1 h]
      exact Nat.le_refl _
    | cons v vs =>
      rw [Ty.printFields, String.toList_append, String.toList_append, List.length_append, List.length_append]
      rcases List.mem_cons.1 h with rfl | h
      · omega
      · have := ih h
        omega

theorem printFields_eq (ts : List Ty) : Ty.printFields ts = ", ".intercalate (ts.map Ty.print) := by
  cases ts with
  | nil => rfl
  | cons t ts =>
    rw [← String.toList_inj, toList_intercalate_cons, toList_printFields_cons]
    rfl

theorem reads_fields {p : Parser Ty} [Lead p] {fields : List Ty}
    (hp : ∀ t ∈ fields, Reads p t.print.toList Stops (· = t)) :
    Reads (listUntil "\x7d" p) ((Ty.printFields fields).toList ++ ['\x7d']) Anything (· = fields) := by
  rw [printFields_eq]
  have hfields : Reads (listUntil "\x7d" p) ((", ".intercalate (fields.map Ty.print)).toList ++ ['\x7d']) Anything
      fun ts => ts.map id = fields.map id := by
    refine reads_listUntil rfl (by decide) rfl (by decide) (fun t _ => ?_) fun lead hlead t ht => (hp t ht).lead hlead
    obtain ⟨cs, hcs⟩ := t.toList_print
    exact ⟨t.initial, cs, hcs, isVisible_initial t, by cases t <;> simp [Ty.initial]⟩
  exact hfields.weaken (fun _ h => h) fun ts hts => by rwa [List.map_id, List.map_id] at hts

/-! ## Types -/

theorem reads_tyWithin_simple {name : String} (hname : IsWord name) {t : Ty} (h : simpleTy? name = some t)
    (n : Nat) : Reads (tyWithin (n + 1)) name.toList Stops (· = t) := by
  refine reads_blanks.nil_bind (fun _ _ => ?_) fun rest _ => hname.shows.append rest
  have hsimple := reads_simpleTy hname h
  cases hcs : name.toList with
  | nil => exact absurd hcs hname.ne_nil
  | cons c cs =>
    have hne : ∀ d, isWordChar d = false → c ≠ d := by
      rintro _ hd rfl
      have hc := hname.wordChar c (by rw [hcs]; exact List.mem_cons_self)
      rw [hd] at hc
      cases hc
    rw [hcs] at hsimple
    exact reads_opening rfl (hne '[' rfl) (reads_opening rfl (hne '<' rfl) (reads_opening rfl (hne '\x7b' rfl) hsimple))

mutual

theorem reads_tyWithin : ∀ (t : Ty), t.Writable → ∀ n, t.print.toList.length < n →
    Reads (tyWithin n) t.print.toList Stops (· = t)
  | _, _, 0, hn => absurd hn (Nat.not_lt_zero _)
  | .void, _, n + 1, _ => reads_tyWithin_simple (isWord_of_all (by decide) (by decide)) rfl n
  | .half, _, n + 1, _ => reads_tyWithin_simple (isWord_of_all (by decide) (by decide)) rfl n
  | .float, _, n + 1, _ => reads_tyWithin_simple (isWord_of_all (by decide) (by decide)) rfl n
  | .double, _, n + 1, _ => reads_tyWithin_simple (isWord_of_all (by decide) (by decide)) rfl n
  | .ptr, _, n + 1, _ => reads_tyWithin_simple (isWord_of_all (by decide) (by decide)) rfl n
  | .label, _, n + 1, _ => reads_tyWithin_simple (isWord_of_all (by decide) (by decide)) rfl n
  | .int bits, ht, n + 1, _ => reads_tyWithin_simple (isWord_int bits) (simpleTy?_int ht) n
  | .array length elem, ht, n + 1, hn => by
    have htext : (Ty.array length elem).print.toList = "[".toList ++ ((toString length.toNat).toList ++
        ([' ', 'x'] ++ (' ' :: elem.print.toList ++ [']']))) := by
      simp [Ty.print, String.toList_append]
    rw [htext] at hn ⊢
    simp only [List.length_append, List.length_cons, List.cons_append] at hn
    obtain ⟨k, rfl⟩ : ∃ k, n = k + 1 := ⟨n - 1, by omega⟩
    have helem := reads_tyWithin elem ht (k + 1) (by omega)
    refine reads_blanks.nil_bind (fun _ _ => ?_) fun rest _ => ⟨'[', _, rfl, by decide⟩
    exact (reads_opened (reads_elements helem length .array rfl (by decide) rfl)).weaken
      (fun _ _ => trivial) fun _ h => h
  | .vector length elem, ht, n + 1, hn => by
    have htext : (Ty.vector length elem).print.toList = "<".toList ++ ((toString length.toNat).toList ++
        ([' ', 'x'] ++ (' ' :: elem.print.toList ++ ['>']))) := by
      simp [Ty.print, String.toList_append]
    rw [htext] at hn ⊢
    simp only [List.length_append, List.length_cons, List.cons_append] at hn
    obtain ⟨k, rfl⟩ : ∃ k, n = k + 1 := ⟨n - 1, by omega⟩
    have helem := reads_tyWithin elem ht (k + 1) (by omega)
    refine reads_blanks.nil_bind (fun _ _ => ?_) fun rest _ => ⟨'<', _, rfl, by decide⟩
    refine reads_opening rfl (by decide) ?_
    exact (reads_opened (reads_elements helem length .vector rfl (by decide) rfl)).weaken
      (fun _ _ => trivial) fun _ h => h
  | .struct fields, ht, n + 1, hn => by
    have htext : (Ty.struct fields).print.toList = "\x7b".toList ++ ((Ty.printFields fields).toList ++ ['\x7d']) := by
      simp [Ty.print, String.toList_append]
    rw [htext] at hn ⊢
    simp only [List.length_append, List.length_cons, List.length_nil] at hn
    obtain ⟨k, rfl⟩ : ∃ k, n = k + 1 := ⟨n - 1, by omega⟩
    have hfields := reads_fieldsWithin fields ht (k + 1) fun t h => by
      have := length_print_le h
      omega
    refine reads_blanks.nil_bind (fun _ _ => ?_) fun rest _ => ⟨'\x7b', _, rfl, by decide⟩
    refine reads_opening rfl (by decide) (reads_opening rfl (by decide) ?_)
    have hstruct := (reads_fields hfields).map (f := Ty.struct) (R := (· = Ty.struct fields)) fun _ h => congrArg _ h
    exact (reads_opened hstruct).weaken (fun _ _ => trivial) fun _ h => h

theorem reads_fieldsWithin : ∀ (ts : List Ty), Ty.WritableFields ts → ∀ n, (∀ t ∈ ts, t.print.toList.length < n) →
    ∀ t ∈ ts, Reads (tyWithin n) t.print.toList Stops (· = t)
  | [], _, _, _ => fun _ h => absurd h List.not_mem_nil
  | t :: ts, h, n, hn => List.forall_mem_cons.2 ⟨reads_tyWithin t h.1 n (hn t List.mem_cons_self),
      reads_fieldsWithin ts h.2 n fun u hu => hn u (List.mem_cons_of_mem _ hu)⟩

end

/-- A type is read back as it was written. -/
theorem reads_ty {lead : List Char} (hlead : Blanks lead) {t : Ty} (ht : t.Writable) :
    Reads ty (lead ++ t.print.toList) Stops (· = t) := by
  intro rest hrest
  have hlength : t.print.toList.length < (lead ++ (t.print.toList ++ rest)).length + 1 := by
    simp only [List.length_append]
    omega
  have hskip : ∀ depth s, tyWithin (depth + 1) (lead ++ s) = tyWithin (depth + 1) s := fun _ s => Lead.lead hlead s
  unfold ty
  rw [List.append_assoc, hskip]
  exact reads_tyWithin t ht _ hlength rest hrest

end Source
end SSALint
