/-
Modules that can be written: every name is a word, every type can be written, and every literal fits the type it
stands under. If besides no terminator looks like another, the text of the module is the program of the module
(`Module.Writable.reads`).
-/
import SSALint.Proofs.Outcome
import SSALint.Proofs.Source.ReadsProgram
import SSALint.Proofs.Table

namespace SSALint

open Source

/-! ## Names -/

theorem isWord_number (k : Nat) : IsWord (toString k) := by
  constructor <;> rw [toList_toString_nat]
  · exact Nat.toDigits_ne_nil
  · exact fun c hc => isWordChar_of_isDigit (isDigit_toDigits k c hc)

theorem isWord_append {word other : String} (h : word.toList.all isWordChar = true) (hother : IsWord other) :
    IsWord (word ++ other) := by
  constructor <;> rw [String.toList_append]
  · exact List.append_ne_nil_of_right_ne_nil _ hother.ne_nil
  · intro c hc
    rcases List.mem_append.1 hc with hc | hc
    · exact List.all_eq_true.1 h c hc
    · exact hother.wordChar c hc

instance (name : String) : Decidable (IsWord name) :=
  decidable_of_iff (name.toList ≠ [] ∧ name.toList.all isWordChar = true)
    ⟨fun h => ⟨h.1, List.all_eq_true.1 h.2⟩, fun h => ⟨h.1, List.all_eq_true.2 h.2⟩⟩

/-- The globals and the functions of a module have names that can be written. -/
def Module.Named (m : Module) : Prop :=
  (∀ v ∈ m.globals.values, IsWord v.name) ∧ ∀ f ∈ m.funcs.values, IsWord f.name

instance (m : Module) : Decidable m.Named := inferInstanceAs (Decidable (_ ∧ _))

theorem Module.Named.symbolText {m : Module} (h : m.Named) (f : Option Func) (s : Symbol) :
    IsWord (Names.symbolText ⟨m, f⟩ s) := by
  cases s with
  | global g =>
    show IsWord (((m.globals.get? g).map (·.name)).getD _)
    cases hv : m.globals.get? g with
    | none => exact isWord_append (by decide) (isWord_number g)
    | some v => exact h.1 v (Table.mem_values.2 ⟨g, hv⟩)
  | func k =>
    show IsWord (((m.funcs.get? k).map (·.name)).getD _)
    cases hf : m.funcs.get? k with
    | none => exact isWord_append (by decide) (isWord_number k)
    | some f => exact h.2 f (Table.mem_values.2 ⟨k, hf⟩)

/-- Outside of functions local values and blocks are known by number alone. -/
theorem Module.Named.spelled {m : Module} (h : m.Named) : Names.Spelled ⟨m, none⟩ where
  localText := isWord_number
  symbolText := h.symbolText none
  label b := isWord_append (by decide) (isWord_number b)

/-! ## Functions -/

/-- A function can be written, its name apart. -/
structure Func.Writable (f : Func) : Prop where
  ret : f.ret.Writable
  params : ∀ x ∈ f.params, f.locals.contains x = true ∧ (f.typeOf (.var x)).Writable
  localNames : ∀ x ∈ f.locals.values, ∀ name ∈ x.name, IsWord name
  labels : ∀ b ∈ f.blocks.values, ∀ label ∈ b.label, IsWord label
  blocks : ∀ b ∈ f.blocks.values, b.Typed f.typeOf

instance (f : Func) : Decidable f.Writable :=
  decidable_of_iff (f.ret.Writable ∧ (∀ x ∈ f.params, f.locals.contains x = true ∧ (f.typeOf (.var x)).Writable) ∧
      (∀ x ∈ f.locals.values, ∀ name ∈ x.name, IsWord name) ∧
      (∀ b ∈ f.blocks.values, ∀ label ∈ b.label, IsWord label) ∧ ∀ b ∈ f.blocks.values, b.Typed f.typeOf)
    ⟨fun h => ⟨h.1, h.2.1, h.2.2.1, h.2.2.2.1, h.2.2.2.2⟩, fun h => ⟨h.1, h.2, h.3, h.4, h.5⟩⟩

/-- No terminator of a function looks like another one. -/
def Func.Distinct (f : Func) : Prop := ∀ b ∈ f.blocks.values, b.terminator.Distinct f.typeOf

instance (f : Func) : Decidable f.Distinct := List.decidableBAll _ _

theorem Func.Writable.spelled {m : Module} {f : Func} (hf : f.Writable) (hm : m.Named) : Names.Spelled ⟨m, f⟩ where
  localText x := by
    show IsWord (((f.locals.get? x).bind (·.name)).getD _)
    cases hx : f.locals.get? x with
    | none => exact isWord_number x
    | some l =>
      show IsWord (l.name.getD _)
      cases hname : l.name with
      | none => exact isWord_number x
      | some name => exact hf.localNames l (Table.mem_values.2 ⟨x, hx⟩) name hname
  symbolText := hm.symbolText f
  label b := by
    have hnumber : IsWord ("bb" ++ toString b) := isWord_append (by decide) (isWord_number b)
    rw [Names.label_eq_getD]
    show IsWord (((f.blocks.get? b).bind (·.label)).getD _)
    cases hb : f.blocks.get? b with
    | none => exact hnumber
    | some c =>
      show IsWord (c.label.getD _)
      cases hlabel : c.label with
      | none => exact hnumber
      | some label => exact hf.labels c (Table.mem_values.2 ⟨b, hb⟩) label hlabel

/-- The text of a function, its last newline apart. -/
def Func.itemText (m : Module) (f : Func) : List Char :=
  if f.isDeclaration then "declare".toList ++ ' ' :: headText (f.head m)
  else "define".toList ++ (' ' :: headText (f.head m) ++ (" \x7b".toList ++
    (f.blocks.values.flatMap (blockText ⟨m, f⟩) ++ ['\n', '\x7d'])))

theorem Func.Writable.head {m : Module} {f : Func} (hf : f.Writable) (hname : IsWord f.name) (hm : m.Named) :
    (f.head m).Writable where
  ret := hf.ret
  name := hname
  params := by
    intro p hp
    obtain ⟨x, hx, rfl⟩ := List.mem_map.1 hp
    refine ⟨(hf.params x hx).2, fun k hk => ?_⟩
    cases hdecl : f.isDeclaration with
    | true => simp [hdecl] at hk
    | false =>
      rw [hdecl] at hk
      cases hk
      exact (hf.spelled hm).localText x

/-- The text of a parameter: its type, and its name where there is a body to use it. -/
def Func.paramString (m : Module) (f : Func) (x : LocalId) : String :=
  if f.isDeclaration then (f.typeOf (.var x)).print else Names.typed ⟨m, f⟩ (.var x)

theorem Func.mapM_printParam (m : Module) {f : Func} (hparams : ∀ x ∈ f.params, f.locals.contains x = true) :
    f.params.mapM (f.printParam m) = .ok (f.params.map (f.paramString m)) := by
  refine Outcome.mapM_eq_ok fun x hx => ?_
  obtain ⟨l, hl⟩ := Table.contains_iff.1 (hparams x hx)
  unfold printParam paramString
  cases f.isDeclaration with
  | true =>
    rw [if_pos rfl, Table.get_eq_ok_iff.2 hl, if_pos rfl, Func.typeOf_of_get? hl]
    rfl
  | false => rfl

theorem Func.toList_paramString (m : Module) (f : Func) (x : LocalId) :
    (f.paramString m x).toList = paramText ⟨f.typeOf (.var x),
      if f.isDeclaration then none else some (.of (Names.localText ⟨m, f⟩ x))⟩ := by
  unfold paramString
  cases f.isDeclaration with
  | true => simp [paramText]
  | false =>
    show (Names.typed ⟨m, f⟩ (.var x)).toList = _ ++ ' ' :: '%' :: _
    rw [toList_typed]
    show _ ++ ' ' :: (Names.localName ⟨m, f⟩ x).toList = _
    rw [Names.toList_localName]
    rfl

/-- The text of the parameters of a function, as it is made in `Func.print`. -/
theorem toList_params (m : Module) (f : Func) :
    (", ".intercalate (if f.variadic then f.params.map (f.paramString m) ++ ["..."]
      else f.params.map (f.paramString m))).toList = paramsText (f.head m).params (f.head m).variadic := by
  have hparams : (f.params.map (f.paramString m)).map String.toList = (f.head m).params.map paramText := by
    unfold Func.head
    rw [List.map_map, List.map_map]
    exact List.map_congr_left fun x _ => f.toList_paramString m x
  unfold paramsText
  rw [String.toList_intercalate, ← hparams]
  show _ = [',', ' '].intercalate (_ ++ if f.variadic then ["...".toList] else [])
  cases f.variadic <;> simp

/-- The text of the head of a function, as it is made in `Func.print`. -/
theorem toList_head (m : Module) (f : Func) :
    (f.ret.print ++ " @" ++ f.name ++ "(" ++ ", ".intercalate (if f.variadic then
      f.params.map (f.paramString m) ++ ["..."] else f.params.map (f.paramString m)) ++ ")").toList =
      headText (f.head m) := by
  show _ = f.ret.print.toList ++ (' ' :: '@' :: f.name.toList ++ ("(".toList ++ (_ ++ [')'])))
  simp only [String.toList_append, List.append_assoc, toList_params]
  rfl

/-- The text of the blocks of a function, as it is made in `Func.print`. -/
theorem toList_blocks (n : Names) (blocks : List Block) :
    '\n' :: ((String.join (blocks.map n.block)).toList ++ ['\x7d', '\n']) =
      blocks.flatMap (blockText n) ++ ['\n', '\x7d', '\n'] := by
  rw [String.toList_join, List.flatMap_map]
  exact cons_flatMap (fun b _ => toList_block b) _

/-- A function whose parameters have types is written as its item. -/
theorem print_func (m : Module) {f : Func} (hparams : ∀ x ∈ f.params, f.locals.contains x = true) :
    ∃ s, f.print m = .ok s ∧ s.toList = f.itemText m ++ ['\n'] := by
  unfold Func.print
  rw [Func.mapM_printParam m hparams]
  cases hdecl : f.isDeclaration with
  | true =>
    refine ⟨_, rfl, ?_⟩
    rw [Func.itemText, hdecl, String.toList_append, String.toList_append, toList_head]
    rfl
  | false =>
    refine ⟨_, rfl, ?_⟩
    rw [Func.itemText, hdecl, String.toList_append, String.toList_append, String.toList_append, String.toList_append,
      toList_head]
    show "define".toList ++ [' '] ++ headText (f.head m) ++ (" \x7b".toList ++ ['\n']) ++
      (String.join (f.blocks.values.map (Names.block ⟨m, f⟩))).toList ++ ['\x7d', '\n'] =
      "define".toList ++ (' ' :: headText (f.head m) ++ (" \x7b".toList ++ (_ ++ ['\n', '\x7d']))) ++ ['\n']
    simp only [List.append_assoc, List.cons_append, List.nil_append, toList_blocks]

/-! ## Modules -/

/-- A module can be written. -/
structure Module.Writable (m : Module) : Prop where
  named : m.Named
  globals : ∀ v ∈ m.globals.values, v.Writable
  funcs : ∀ f ∈ m.funcs.values, f.Writable

instance (v : Global) : Decidable v.Writable :=
  decidable_of_iff (IsWord v.name ∧ v.type.Writable ∧ (∀ w ∈ v.init, w.Fits v.type ∧ w.isConstant = true) ∧
      (v.init = none ↔ v.external = true))
    ⟨fun h => ⟨h.1, h.2.1, h.2.2.1, h.2.2.2⟩, fun h => ⟨h.1, h.2, h.3, h.4⟩⟩

instance (m : Module) : Decidable m.Writable :=
  decidable_of_iff (m.Named ∧ (∀ v ∈ m.globals.values, v.Writable) ∧ ∀ f ∈ m.funcs.values, f.Writable)
    ⟨fun h => ⟨h.1, h.2.1, h.2.2⟩, fun h => ⟨h.1, h.2, h.3⟩⟩

/-- No terminator of a module looks like another one. -/
def Module.Distinct (m : Module) : Prop := ∀ f ∈ m.funcs.values, f.Distinct

instance (m : Module) : Decidable m.Distinct := List.decidableBAll _ _

namespace Module

/-- A global or a function. -/
abbrev Entry := Global ⊕ Func

variable (m : Module)

/-- The globals of a module, then its functions. -/
def entries : List Entry := m.globals.values.map .inl ++ m.funcs.values.map .inr

/-- The item that the text of an entry writes. -/
def entryItem : Entry → Item
  | .inl v => .global (Names.namedGlobal ⟨m, none⟩ v)
  | .inr f => f.item m

/-- The text of an entry, its last newline apart. -/
def entryText : Entry → List Char
  | .inl v => (Names.global ⟨m, none⟩ v).toList
  | .inr f => f.itemText m

/-- What stands between an entry and the one before it: functions have an empty line before them. -/
def gap : Entry → List Char
  | .inl _ => ['\n']
  | .inr _ => ['\n', '\n']

theorem items_eq_map_entries : m.items = m.entries.map m.entryItem := by
  simp [items, entries, entryItem, Function.comp_def]

/-- The text of the entries of a module. -/
def entriesText : List Entry → List Char
  | [] => []
  | x :: xs => m.entryText x ++ (xs.flatMap (fun y => gap y ++ m.entryText y) ++ ['\n'])

theorem toList_funcs {fs : List Func} {text : Func → String}
    (htext : ∀ f ∈ fs, (text f).toList = f.itemText m ++ ['\n']) :
    '\n' :: (fs.flatMap fun f => '\n' :: (text f).toList) =
      (fs.map Sum.inr).flatMap (fun y => gap y ++ m.entryText y) ++ ['\n'] := by
  have hrotate : '\n' :: (fs.flatMap (fun f => '\n' :: (text f).toList) ++ []) =
      fs.flatMap (fun f => gap (.inr f) ++ m.entryText (.inr f)) ++ '\n' :: [] := by
    refine cons_flatMap (fun f hf => ?_) []
    rw [htext f hf]
    rfl
  rw [List.append_nil] at hrotate
  rw [hrotate, List.flatMap_map]

/-- The text of a module is that of its entries. -/
theorem print_eq {m : Module} (h : ∀ f ∈ m.funcs.values, ∀ x ∈ f.params, f.locals.contains x = true) :
    ∃ s, m.print = .ok s ∧ s.toList = m.entriesText m.entries := by
  choose! text hprint htext using fun f hf => print_func m (h f hf)
  have hmap : m.funcs.values.mapM (Func.print · m) = .ok (m.funcs.values.map text) := Outcome.mapM_eq_ok hprint
  unfold Module.print
  rw [hmap, entries]
  generalize m.funcs.values = fs at htext
  generalize m.globals.values = gs
  cases gs with
  | nil =>
    refine ⟨_, rfl, ?_⟩
    cases fs with
    | nil => rfl
    | cons f fs =>
      obtain ⟨hf, hfs⟩ := List.forall_mem_cons.1 htext
      rw [toList_intercalate_cons, hf]
      show _ = f.itemText m ++ ((fs.map Sum.inr).flatMap (fun y => gap y ++ m.entryText y) ++ ['\n'])
      rw [← m.toList_funcs hfs, List.append_assoc]
      rfl
  | cons v gs =>
    refine ⟨_, rfl, ?_⟩
    have hglobals : ∀ w ∈ gs, '\n' :: (Names.global ⟨m, none⟩ w ++ "\n").toList =
        gap (.inl w) ++ m.entryText (.inl w) ++ ['\n'] := by
      intro w _
      simp [gap, entryText]
    show _ = (Names.global ⟨m, none⟩ v).toList ++
      ((gs.map Sum.inl ++ fs.map Sum.inr).flatMap (fun y => gap y ++ m.entryText y) ++ ['\n'])
    rw [List.flatMap_append, List.append_assoc, ← m.toList_funcs htext, List.flatMap_map, ← cons_flatMap hglobals]
    simp [String.toList_join, List.flatMap_map]

theorem bare_head (f : Func) : (f.head m).bare = f.head m := by
  have hparam : ∀ x, NamedParam.bare ⟨f.typeOf (.var x),
      if f.isDeclaration then none else some (.of (Names.localText ⟨m, f⟩ x))⟩ =
      ⟨f.typeOf (.var x), if f.isDeclaration then none else some (.of (Names.localText ⟨m, f⟩ x))⟩ := by
    intro x
    cases f.isDeclaration <;> rfl
  unfold Head.bare Func.head
  rw [List.map_map]
  exact congrArg (fun ps => Head.mk f.ret (.of f.name) ps f.variadic) (List.map_congr_left fun x _ => hparam x)

theorem reads_func {m : Module} (hm : m.Named) {f : Func} (hname : IsWord f.name) (hf : f.Writable)
    (hd : f.Distinct) :
    Reads itemBehind (f.itemText m) Anything fun o => ∃ i, o = some i ∧ i.bare = f.item m := by
  have hhead := hf.head hname hm
  cases hdecl : f.isDeclaration with
  | true =>
    have hreads := reads_declaration hhead
    rw [bare_head] at hreads
    unfold Func.itemText Func.item
    rw [hdecl]
    exact hreads
  | false =>
    cases hblocks : f.blocks.values with
    | nil =>
      rw [Func.isDeclaration, Table.isEmpty, Table.size, hblocks] at hdecl
      cases hdecl
    | cons b bs =>
      have htyped := hf.blocks
      unfold Func.Distinct at hd
      rw [hblocks] at htyped hd
      have hreads := reads_definition hhead (hf.spelled hm) htyped hd
      rw [bare_head] at hreads
      unfold Func.itemText Func.item
      rw [hdecl, hblocks]
      exact hreads

theorem Writable.reads_entry {m : Module} (hm : m.Writable) (hd : m.Distinct) {x : Entry} (hx : x ∈ m.entries) :
    Reads itemBehind (m.entryText x) Stops fun o => ∃ i, o = some i ∧ i.bare = m.entryItem x := by
  rcases List.mem_append.1 hx with hx | hx
  · obtain ⟨v, hv, rfl⟩ := List.mem_map.1 hx
    exact reads_global hm.named.spelled (hm.globals v hv)
  · obtain ⟨f, hf, rfl⟩ := List.mem_map.1 hx
    exact (reads_func hm.named (hm.named.2 f hf) (hm.funcs f hf) (hd f hf)).weaken (fun _ _ => trivial) fun _ h => h

theorem shows_entryText (x : Entry) : Shows (m.entryText x) := by
  cases x with
  | inl v =>
    have htext : ∃ text, (Names.global ⟨m, none⟩ v).toList = '@' :: text := by
      unfold Names.global
      split <;> exact ⟨_, by simp; rfl⟩
    obtain ⟨text, htext⟩ := htext
    exact ⟨'@', text, htext, by decide⟩
  | inr f =>
    show Shows (f.itemText m)
    unfold Func.itemText
    split
    · exact ⟨'d', _, rfl, by decide⟩
    · exact ⟨'d', _, rfl, by decide⟩

/-- The end of a program. -/
theorem reads_end {lead : List Char} (hlead : Blanks lead) : Reads item lead (· = []) (· = none) := by
  rintro _ rfl
  have hskip : skipBlanks (lead ++ []) = [] := hlead.skipBlanks []
  refine ⟨none, ?_, rfl⟩
  refine Parser.bind_eq_ok_iff.2 ⟨(), [], ?_, rfl⟩
  unfold blanks
  rw [hskip]

theorem blanks_gap (x : Entry) : Blanks (gap x) := by
  cases x <;> simp [gap, Blanks, isBlank]

theorem stops_gap (x : Entry) (rest : List Char) : Stops (gap x ++ rest) := by
  cases x <;> exact stops_cons rfl

/-- The text of a module that can be written, and has no terminators that look alike, is read as its program. -/
theorem Writable.reads {m : Module} (hm : m.Writable) (hd : m.Distinct) :
    ∃ text items, m.print = .ok text ∧ program text.toList = .ok (items, []) ∧ items.map Item.bare = m.items := by
  obtain ⟨text, hprint, htext⟩ := print_eq fun f hf x hx => ((hm.funcs f hf).params x hx).1
  have hreads : Reads program (m.entriesText m.entries) (· = []) fun is => is.map Item.bare = m.items := by
    rw [items_eq_map_entries]
    have hall : ∀ x ∈ m.entries,
        Reads itemBehind (m.entryText x) Stops fun o => ∃ i, o = some i ∧ i.bare = m.entryItem x :=
      fun x hx => hm.reads_entry hd hx
    generalize m.entries = xs at hall ⊢
    cases xs with
    | nil =>
      refine (Reads.many_nil (reads_end blanks_nil)).weaken (fun _ h => h) ?_
      rintro _ rfl
      rfl
    | cons x xs =>
      obtain ⟨hx, hxs⟩ := List.forall_mem_cons.1 hall
      have hfirst : Reads item (m.entryText x) Stops fun o => ∃ i, o = some i ∧ i.bare = m.entryItem x :=
        reads_item blanks_nil (m.shows_entryText x) hx
      refine Reads.manyFrom hfirst (fun y hy => ?_) ?_ (fun y _ => ?_) (fun y _ rest => ?_) (reads_end newline)
        fun _ _ => stops_cons rfl
      · exact reads_item (blanks_gap y) (m.shows_entryText y) (hxs y hy)
      · obtain ⟨c, r, hc, -⟩ := m.shows_entryText x
        rw [hc]
        exact List.cons_ne_nil _ _
      · cases y <;> exact List.cons_ne_nil _ _
      · rw [List.append_assoc]
        exact stops_gap y _
  obtain ⟨items, hitems, hbare⟩ := hreads [] rfl
  rw [List.append_nil, ← htext] at hitems
  exact ⟨text, items, hprint, hitems, hbare⟩

end Module

end SSALint
