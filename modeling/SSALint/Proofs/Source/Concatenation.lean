/-
Reading is compositional. Two texts that are modules without a name in common are, one behind the other, the first
module followed by the second one (`parseModule_append`): nothing that is read of the first text depends on what stands
behind it, and the names of the second one only resolve to greater ids.
-/
import SSALint.Proofs.Source.AlikeItems
import SSALint.Proofs.Source.Relocation

namespace SSALint

/-! ## Modules behind one another -/

/-- The names of the globals and the functions of a module. -/
def Module.definedNames (m : Module) : List String :=
  m.globals.values.map (·.name) ++ m.funcs.values.map (·.name)

/-- A table whose keys go on with those of another one. -/
def Table.followedBy {α : Type} (t u : Table α) : Table α := ⟨t.slots ++ u.slots⟩

/-- The definitions of a module, and behind them those of another one with their ids shifted. -/
def Module.followedBy (m n : Module) : Module where
  globals := m.globals.followedBy (n.globals.map (Global.shift m.globals.size m.funcs.size))
  funcs := m.funcs.followedBy (n.funcs.map (Func.shift m.globals.size m.funcs.size))

section
variable {α : Type}

theorem Table.get?_followedBy_of_lt {t u : Table α} {k : Nat} (h : k < t.next) :
    (t.followedBy u).get? k = t.get? k := by
  show (t.slots ++ u.slots).getD k none = t.slots.getD k none
  rw [List.getD_append _ _ _ _ h]

theorem Table.get?_followedBy_add (t u : Table α) (k : Nat) : (t.followedBy u).get? (t.next + k) = u.get? k := by
  show (t.slots ++ u.slots).getD (t.next + k) none = u.slots.getD k none
  rw [List.getD_append_right _ _ _ _ (Nat.le_add_right t.next k)]
  exact congrArg (u.slots.getD · none) (Nat.add_sub_cancel_left t.next k)

theorem Table.followedBy_ofValues (vs ws : List α) : (ofValues vs).followedBy (ofValues ws) = ofValues (vs ++ ws) := by
  unfold followedBy ofValues
  rw [List.map_append]

theorem Table.map_ofValues {β : Type} (f : α → β) (vs : List α) : (ofValues vs).map f = ofValues (vs.map f) := by
  unfold map ofValues
  rw [List.map_map, List.map_map]
  rfl

end

namespace Source

/-! ## Items behind one another -/

section
variable (symbols : NameTable) (order : List Symbol)

theorem globalsFrom_append {xs : List (Item × Scope)} (ys : List (Item × Scope)) {n next : GlobalId}
    (hnext : n + (globalsFrom symbols order n xs).length = next) :
    globalsFrom symbols order n (xs ++ ys) = globalsFrom symbols order n xs ++ globalsFrom symbols order next ys := by
  induction xs generalizing n with
  | nil => exact congrArg (globalsFrom symbols order · ys) hnext
  | cons x xs ih =>
    obtain ⟨item, s⟩ := x
    cases item with
    | global v => exact congrArg (resolvedGlobal _ n v :: ·) (ih ((Nat.succ_add_eq_add_succ n _).trans hnext))
    | declaration h => exact ih hnext
    | definition h blocks => exact ih hnext

theorem funcsFrom_append {xs : List (Item × Scope)} (ys : List (Item × Scope)) {k next : FuncId}
    (hnext : k + (funcsFrom symbols order k xs).length = next) :
    funcsFrom symbols order k (xs ++ ys) = funcsFrom symbols order k xs ++ funcsFrom symbols order next ys := by
  induction xs generalizing k with
  | nil => exact congrArg (funcsFrom symbols order · ys) hnext
  | cons x xs ih =>
    obtain ⟨item, s⟩ := x
    cases item with
    | global v => exact ih hnext
    | declaration h => exact congrArg (declaredFunc k h :: ·) (ih ((Nat.succ_add_eq_add_succ k _).trans hnext))
    | definition h blocks =>
      exact congrArg (definedFunc _ k h blocks :: ·) (ih ((Nat.succ_add_eq_add_succ k _).trans hnext))

/-- Behind further items symbols go on where those stopped. -/
theorem symbolsFrom_append {items : List Item} {ss : List Scope} (hlength : items.length = ss.length)
    (items' : List Item) {n nextGlobal : GlobalId} {k nextFunc : FuncId}
    (hglobal : n + (globalsFrom symbols order n (items.zip ss)).length = nextGlobal)
    (hfunc : k + (funcsFrom symbols order k (items.zip ss)).length = nextFunc) :
    symbolsFrom n k (items ++ items') = symbolsFrom n k items ++ symbolsFrom nextGlobal nextFunc items' := by
  induction items generalizing ss n k with
  | nil => exact congrArg₂ (symbolsFrom · · items') hglobal hfunc
  | cons item items ih =>
    cases ss with
    | nil => cases hlength
    | cons s ss =>
      have htail : items.length = ss.length := Nat.succ.inj hlength
      cases item with
      | global v =>
        exact congrArg (Symbol.global n :: ·) (ih htail ((Nat.succ_add_eq_add_succ n _).trans hglobal) hfunc)
      | declaration h =>
        exact congrArg (Symbol.func k :: ·) (ih htail hglobal ((Nat.succ_add_eq_add_succ k _).trans hfunc))
      | definition h blocks =>
        exact congrArg (Symbol.func k :: ·) (ih htail hglobal ((Nat.succ_add_eq_add_succ k _).trans hfunc))

end

theorem symbolsFrom_shift (globals funcs n k : Nat) (items : List Item) :
    symbolsFrom (globals + n) (funcs + k) items = (symbolsFrom n k items).map (Symbol.shift globals funcs) := by
  induction items generalizing n k with
  | nil => rfl
  | cons item items ih =>
    cases item with
    | global v => exact congrArg (Symbol.global (globals + n) :: ·) (ih (n + 1) k)
    | declaration h => exact congrArg (Symbol.func (funcs + k) :: ·) (ih n (k + 1))
    | definition h blocks => exact congrArg (Symbol.func (funcs + k) :: ·) (ih n (k + 1))

theorem length_symbolsFrom (items : List Item) (n : GlobalId) (k : FuncId) :
    (symbolsFrom n k items).length = items.length := by
  induction items generalizing n k with
  | nil => rfl
  | cons item items ih =>
    cases item with
    | global v => exact congrArg (· + 1) (ih (n + 1) k)
    | declaration h => exact congrArg (· + 1) (ih n (k + 1))
    | definition h blocks => exact congrArg (· + 1) (ih n (k + 1))

theorem Closed.append {items items' : List Item} (hc : Closed items) (hc' : Closed items')
    (hnames : (items.map (·.name.name)).Disjoint (items'.map (·.name.name))) : Closed (items ++ items') := by
  refine ⟨?_, fun item hitem m hm => ?_, fun h blocks hitem => ?_⟩
  · rw [List.map_append]
    exact hc.names.append hc'.names hnames
  · rw [List.map_append]
    rcases List.mem_append.1 hitem with hitem | hitem
    · exact List.mem_append_left _ (hc.symbols item hitem m hm)
    · exact List.mem_append_right _ (hc'.symbols item hitem m hm)
  · rcases List.mem_append.1 hitem with hitem | hitem
    · exact hc.bodies h blocks hitem
    · exact hc'.bodies h blocks hitem

/-- Scopes stay as they are, so that only what symbols stand for can differ. -/
theorem forall₂_shifts {symbols symbols' : NameTable} {order order' : List Symbol} {globals funcs : Nat}
    {items : List Item} {ss : List Scope} (hsymbol : ∀ item ∈ items, ∀ m, .symbol m ∈ item.operands →
      order'.getD (symbols'.rank m.name) default = (order.getD (symbols.rank m.name) default).shift globals funcs) :
    List.Forall₂ (Shifts symbols order symbols' order' globals funcs) (items.zip ss) (items.zip ss) := by
  refine List.forall₂_same.2 fun x hx => ⟨rfl, rfl, rfl, fun m hm => ?_⟩
  exact hsymbol x.1 (List.of_mem_zip hx).1 m hm

theorem rightUnique_scope : Relator.RightUnique fun (item : Item) (s : Scope) => item.scope = .ok s := by
  intro item s s' hs hs'
  rw [hs] at hs'
  exact Except.ok.inj hs'

section
variable {items : List Item} {symbols : NameTable} {ss : List Scope} {m : Module} (hr : Resolved items symbols ss m)

include hr

theorem Resolved.length_globalsFrom :
    (globalsFrom symbols (symbolsFrom 0 0 items) 0 (items.zip ss)).length = m.globals.size := by
  rw [hr.globals, Table.size_ofValues]

theorem Resolved.length_funcsFrom :
    (funcsFrom symbols (symbolsFrom 0 0 items) 0 (items.zip ss)).length = m.funcs.size := by
  rw [hr.funcs, Table.size_ofValues]

/-- A name that is defined ranks among the symbols. -/
theorem Resolved.rank_lt {name : String} (hname : name ∈ symbols.defined) :
    symbols.rank name < (symbolsFrom 0 0 items).length := by
  rw [length_symbolsFrom, ← List.length_map (·.name.name), ← hr.defined]
  exact NameTable.rank_lt hr.wf hname

/-- The symbols of items behind a program are those that they have alone, moved past its module. -/
theorem Resolved.symbolsFrom_append (items' : List Item) : symbolsFrom 0 0 (items ++ items') =
    symbolsFrom 0 0 items ++ (symbolsFrom 0 0 items').map (Symbol.shift m.globals.size m.funcs.size) := by
  rw [Source.symbolsFrom_append _ _ hr.scopes.length_eq items' ((Nat.zero_add _).trans hr.length_globalsFrom)
    ((Nat.zero_add _).trans hr.length_funcsFrom)]
  exact congrArg (symbolsFrom 0 0 items ++ ·) (symbolsFrom_shift m.globals.size m.funcs.size 0 0 items')

end

section
variable {items items' : List Item} {symbols symbols' both : NameTable} {ss ss' sss : List Scope} {m m' n : Module}
  (hr : Resolved items symbols ss m) (hr' : Resolved items' symbols' ss' m')
  (hboth : Resolved (items ++ items') both sss n)

include hr hr' hboth

theorem Resolved.defined_append : both.defined = symbols.defined ++ symbols'.defined := by
  rw [hboth.defined, hr.defined, hr'.defined, List.map_append]

/-- A name of the first program keeps its rank. -/
theorem Resolved.rank_left {name : String} (hname : name ∈ symbols.defined) : both.rank name = symbols.rank name := by
  rw [NameTable.rank_eq_idxOf hboth.wf, NameTable.rank_eq_idxOf hr.wf, hr.defined_append hr' hboth,
    List.idxOf_append_of_mem hname]

/-- A name of the second program that the first one does not have comes behind those of the first one. -/
theorem Resolved.rank_right {name : String} (hname : name ∉ symbols.defined) :
    both.rank name = items.length + symbols'.rank name := by
  have hlength : symbols.defined.length = items.length := by rw [hr.defined, List.length_map]
  rw [NameTable.rank_eq_idxOf hboth.wf, NameTable.rank_eq_idxOf hr'.wf, hr.defined_append hr' hboth,
    List.idxOf_append_of_notMem hname, hlength]

/-- The symbols of the first program stand for what they stood for. -/
theorem Resolved.shifts_left :
    List.Forall₂ (Shifts symbols (symbolsFrom 0 0 items) both (symbolsFrom 0 0 (items ++ items')) 0 0)
      (items.zip ss) (items.zip ss) := by
  refine forall₂_shifts fun item hitem s hs => ?_
  have hdefined := hr.used item hitem s hs
  rw [hr.rank_left hr' hboth hdefined, hr.symbolsFrom_append, List.getD_append _ _ _ _ (hr.rank_lt hdefined),
    Symbol.shift_zero]

/-- Those of the second one, which are not among them, stand for what they stood for, moved past the first module. -/
theorem Resolved.shifts_right (hnames : (items.map (·.name.name)).Disjoint (items'.map (·.name.name))) :
    List.Forall₂ (Shifts symbols' (symbolsFrom 0 0 items') both (symbolsFrom 0 0 (items ++ items'))
      m.globals.size m.funcs.size) (items'.zip ss') (items'.zip ss') := by
  refine forall₂_shifts fun item hitem s hs => ?_
  have hdefined := hr'.used item hitem s hs
  have hnew : s.name ∉ symbols.defined := fun hold => hnames (hr.defined ▸ hold) (hr'.defined ▸ hdefined)
  have hlength := length_symbolsFrom items 0 0
  rw [hr.rank_right hr' hboth hnew, hr.symbolsFrom_append, List.getD_append_right _ _ _ _ (by omega), hlength,
    Nat.add_sub_cancel_left, List.getD_eq_getElem?_getD, List.getD_eq_getElem?_getD, List.getElem?_map,
    List.getElem?_eq_getElem (hr'.rank_lt hdefined)]
  rfl

end

/-- A program behind another one resolves to the one module followed by the other. -/
theorem resolve_append {items items' : List Item} {m m' : Module} (h : resolve items = .ok m)
    (h' : resolve items' = .ok m') (hnames : (items.map (·.name.name)).Disjoint (items'.map (·.name.name))) :
    resolve (items ++ items') = .ok (m.followedBy m') := by
  have hclosed : Closed (items ++ items') :=
    .append (exists_resolve_iff.1 ⟨m, h⟩) (exists_resolve_iff.1 ⟨m', h'⟩) hnames
  obtain ⟨n, hn⟩ := exists_resolve_iff.2 hclosed
  obtain ⟨symbols, ss, hr⟩ := resolved_of_resolve h
  obtain ⟨symbols', ss', hr'⟩ := resolved_of_resolve h'
  obtain ⟨both, sss, hboth⟩ := resolved_of_resolve hn
  obtain rfl : sss = ss ++ ss' := rightUnique_scope.forall₂ hboth.scopes (List.rel_append hr.scopes hr'.scopes)
  have hleft := hr.shifts_left hr' hboth
  have hright := hr.shifts_right hr' hboth hnames
  have hzip : (items ++ items').zip (ss ++ ss') = items.zip ss ++ items'.zip ss' := List.zip_append hr.scopes.length_eq
  have hglobals' : n.globals = (m.followedBy m').globals := by
    have hfirst := globalsFrom_shift hleft 0
    rw [funext Global.shift_zero, List.map_id'] at hfirst
    have hsecond := globalsFrom_shift hright 0
    have htable := Table.followedBy_ofValues (globalsFrom symbols (symbolsFrom 0 0 items) 0 (items.zip ss))
      ((globalsFrom symbols' (symbolsFrom 0 0 items') 0 (items'.zip ss')).map
        (Global.shift m.globals.size m.funcs.size))
    rw [← Table.map_ofValues, ← hr.globals, ← hr'.globals] at htable
    rw [hboth.globals, hzip,
      globalsFrom_append _ _ _ (hfirst.symm ▸ (Nat.zero_add _).trans hr.length_globalsFrom), hfirst]
    exact (congrArg (fun vs => Table.ofValues (_ ++ vs)) hsecond).trans htable.symm
  have hfuncs' : n.funcs = (m.followedBy m').funcs := by
    have hfirst := funcsFrom_shift hleft 0
    rw [funext Func.shift_zero, List.map_id'] at hfirst
    have hsecond := funcsFrom_shift hright 0
    have htable := Table.followedBy_ofValues (funcsFrom symbols (symbolsFrom 0 0 items) 0 (items.zip ss))
      ((funcsFrom symbols' (symbolsFrom 0 0 items') 0 (items'.zip ss')).map (Func.shift m.globals.size m.funcs.size))
    rw [← Table.map_ofValues, ← hr.funcs, ← hr'.funcs] at htable
    rw [hboth.funcs, hzip, funcsFrom_append _ _ _ (hfirst.symm ▸ (Nat.zero_add _).trans hr.length_funcsFrom), hfirst]
    exact (congrArg (fun vs => Table.ofValues (_ ++ vs)) hsecond).trans htable.symm
  rw [hn]
  obtain ⟨gs, fs⟩ := n
  exact congrArg₂ (fun gs fs => Except.ok (Module.mk gs fs)) hglobals' hfuncs'

/-! ## Texts behind one another -/

mutual

/-- Blanks end where the first text does only if nothing else is left of it. -/
theorem skipBlanks_append (t : List Char) : ∀ s, skipBlanks (s ++ '\n' :: t) =
    if skipBlanks s = [] then skipBlanks t else skipBlanks s ++ '\n' :: t
  | [] => skipBlanks_blank rfl t
  | c :: s => by
    rw [List.cons_append]
    by_cases hc : c = ';'
    · rw [skipBlanks, skipBlanks, if_pos hc, if_pos hc]
      exact skipComment_append t s
    · by_cases hblank : isBlank c = true
      · rw [skipBlanks_blank hblank, skipBlanks_blank hblank]
        exact skipBlanks_append t s
      · rw [skipBlanks_of_not (Bool.eq_false_iff.2 hblank) hc, skipBlanks_of_not (Bool.eq_false_iff.2 hblank) hc,
          if_neg (List.cons_ne_nil c s)]
        rfl

theorem skipComment_append (t : List Char) : ∀ s, skipComment (s ++ '\n' :: t) =
    if skipComment s = [] then skipBlanks t else skipComment s ++ '\n' :: t
  | [] => if_pos rfl
  | c :: s => by
    rw [List.cons_append, skipComment, skipComment]
    by_cases hc : c = '\n'
    · rw [if_pos hc, if_pos hc]
      exact skipBlanks_append t s
    · rw [if_neg hc, if_neg hc]
      exact skipComment_append t s

end

/-- A text, and the same text with a line behind it. -/
def Extended (t s s' : List Char) : Prop := s' = s ++ '\n' :: t

theorem alike_extended {t : List Char} (ht : Opens (skipBlanks t)) : Alike (Extended t) where
  head {s s'} h := by
    obtain rfl : s' = s ++ '\n' :: t := h
    cases s with
    | nil =>
      refine .inr ⟨nofun, fun c hc => ?_⟩
      cases hc
      decide
    | cons c s =>
      by_cases hc : IsVisible c
      · exact .inl ⟨c, s, _, hc, rfl, rfl, rfl⟩
      · refine .inr ⟨fun d hd => ?_, fun d hd => ?_⟩ <;> cases hd <;> exact hc
  blanks {s s'} h := by
    obtain rfl : s' = s ++ '\n' :: t := h
    rw [skipBlanks_append]
    by_cases hnil : skipBlanks s = []
    · rw [if_pos hnil]
      exact .inr ⟨hnil, ht⟩
    · rw [if_neg hnil]
      exact .inl rfl

/-- What is read as items begins like one. -/
theorem opens_of_item {s r : List Char} {o : Option Item} (h : item s = .ok (o, r)) : Opens (skipBlanks s) := by
  intro c hc
  by_contra hother
  obtain ⟨hat, hd⟩ := not_or.1 hother
  have hshows : Shows (skipBlanks s) := by
    refine (skipBlanks_shows s).resolve_left fun hnil => ?_
    rw [hnil] at hc
    cases hc
  have hword : ∀ word : List Char, dropWord? ('d' :: word) (skipBlanks (skipBlanks s)) = none := fun word => by
    rw [skipBlanks_skipBlanks]
    refine dropWord?_of_head fun hhead => hd ?_
    exact Option.some.inj (hc.symm.trans hhead)
  have hsigil : (skipBlanks (skipBlanks s)).head? ≠ some '@' := fun hhead => by
    rw [skipBlanks_skipBlanks] at hhead
    exact hat (Option.some.inj (hc.symm.trans hhead))
  obtain ⟨e₁, hdefine⟩ : Fails (keyword "define") (skipBlanks s) := fails_keyword (hword _)
  obtain ⟨e₂, hdeclare⟩ : Fails (keyword "declare") (skipBlanks s) := fails_keyword (hword _)
  obtain ⟨e₃, hname⟩ : Fails symbolName (skipBlanks s) := fails_sigilName hsigil
  rw [item_of_shows hshows] at h
  obtain ⟨define, t, hb, h⟩ := Parser.bind_eq_ok_iff.1 h
  rw [Parser.accepts_of_error hdefine] at hb
  cases hb
  obtain ⟨declare, t, hb, h⟩ := Parser.bind_eq_ok_iff.1 h
  rw [Parser.accepts_of_error hdeclare] at hb
  cases hb
  obtain ⟨name, t, hb, h⟩ := Parser.bind_eq_ok_iff.1 h
  rw [Parser.attempt_eq_none_iff.2 ⟨rfl, e₃, hname⟩] at hb
  cases hb
  cases h

theorem opens_of_program {s r : List Char} {items : List Item} (h : program s = .ok (items, r)) :
    Opens (skipBlanks s) := by
  cases items with
  | nil => exact opens_of_item ((Parser.many_nil_iff advances_item).1 h)
  | cons i items =>
    obtain ⟨t, hi, -⟩ := (Parser.many_cons_iff advances_item).1 h
    exact opens_of_item hi

instance : Lead item := inferInstanceAs (Lead (blanks >>= fun _ => _))

/-- Where only blanks are left of the first text, the items are those of the second one. -/
theorem program_of_nil {s t r : List Char} {items : List Item} (hs : skipBlanks s = [])
    (ht : program t = .ok (items, r)) : program (s ++ '\n' :: t) = .ok (items, r) := by
  have hitem : item (s ++ '\n' :: t) = item t := by
    rw [← Lead.skip (p := item), skipBlanks_append, if_pos hs, Lead.skip (p := item)]
  cases items with
  | nil => exact (Parser.many_nil_iff advances_item).2 (hitem.trans ((Parser.many_nil_iff advances_item).1 ht))
  | cons i items =>
    obtain ⟨u, hi, hitems⟩ := (Parser.many_cons_iff advances_item).1 ht
    exact (Parser.many_cons_iff advances_item).2 ⟨u, hitem.trans hi, hitems⟩

/-- The items of a text and of the lines behind it are the items of both. -/
theorem program_append {s t r r' : List Char} {items items' : List Item} (hs : program s = .ok (items, r))
    (ht : program t = .ok (items', r')) :
    ∃ before, program (s ++ '\n' :: t) = .ok (before ++ items', r') ∧ items.map Item.bare = before.map Item.bare := by
  have halike : Alike (Extended t) := alike_extended (opens_of_program ht)
  -- By the items of the first text; behind the last one only blanks are left before the second text.
  induction items generalizing s with
  | nil =>
    have hnil := skipBlanks_of_item_none ((Parser.many_nil_iff advances_item).1 hs)
    exact ⟨[], program_of_nil hnil ht, rfl⟩
  | cons i items ih =>
    obtain ⟨u, hi, hs⟩ := (Parser.many_cons_iff advances_item).1 hs
    obtain ⟨before, hbefore, hbare⟩ := ih hs
    obtain ⟨i', u', hi', hbare', rfl⟩ := item_of_alike (R := Extended t) rfl hi
    refine ⟨i' :: before, (Parser.many_cons_iff advances_item).2 ⟨_, hi', hbefore⟩, ?_⟩
    rw [List.map_cons, List.map_cons, hbare, hbare']

end Source

open Source

theorem mem_definedNames {items : List Item} {symbols : NameTable} {ss : List Scope} {m : Module}
    (hr : Resolved items symbols ss m) {name : String} (h : name ∈ items.map (·.name.name)) :
    name ∈ m.definedNames := by
  unfold Module.definedNames
  rw [hr.globals, hr.funcs, Table.values_ofValues, Table.values_ofValues]
  refine (names_perm symbols (symbolsFrom 0 0 items) (items.zip ss) 0 0).mem_iff.2 ?_
  have hzip : (items.zip ss).map (·.1) = items := List.map_fst_zip (Nat.le_of_eq hr.scopes.length_eq)
  rw [← hzip, List.map_map] at h
  exact h

/-- Two texts that are modules without a name in common are, one behind the other, the first module followed by the
second one: globals and functions of the first one keep their ids, those of the second one have theirs shifted by the
numbers of globals and functions before, and so have the references to them. -/
theorem parseModule_append {s₁ s₂ : String} {m₁ m₂ : Module} (h₁ : parseModule s₁ = .ok m₁)
    (h₂ : parseModule s₂ = .ok m₂) (hnames : m₁.definedNames.Disjoint m₂.definedNames) :
    parseModule (s₁ ++ "\n" ++ s₂) = .ok (m₁.followedBy m₂) ∧
      (∀ k < m₁.globals.size, (m₁.followedBy m₂).globals.get? k = m₁.globals.get? k) ∧
      (∀ k, (m₁.followedBy m₂).globals.get? (m₁.globals.size + k) =
        (m₂.globals.get? k).map (Global.shift m₁.globals.size m₁.funcs.size)) ∧
      (∀ k < m₁.funcs.size, (m₁.followedBy m₂).funcs.get? k = m₁.funcs.get? k) ∧
      ∀ k, (m₁.followedBy m₂).funcs.get? (m₁.funcs.size + k) =
        (m₂.funcs.get? k).map (Func.shift m₁.globals.size m₁.funcs.size) := by
  obtain ⟨items, r, hprogram, hresolve⟩ := read_eq_ok_iff.1 (parseModule_eq_ok_iff.1 h₁)
  obtain ⟨items', r', hprogram', hresolve'⟩ := read_eq_ok_iff.1 (parseModule_eq_ok_iff.1 h₂)
  obtain ⟨symbols, ss, hr⟩ := resolved_of_resolve hresolve
  obtain ⟨symbols', ss', hr'⟩ := resolved_of_resolve hresolve'
  have hglobals : m₁.globals.next = m₁.globals.size := by rw [hr.globals, Table.next_ofValues, Table.size_ofValues]
  have hfuncs : m₁.funcs.next = m₁.funcs.size := by rw [hr.funcs, Table.next_ofValues, Table.size_ofValues]
  refine ⟨?_, fun k hk => ?_, fun k => ?_, fun k hk => ?_, fun k => ?_⟩
  · obtain ⟨before, hboth, hbare⟩ := program_append hprogram hprogram'
    have hdisjoint : (items.map (·.name.name)).Disjoint (items'.map (·.name.name)) := fun name hname hname' =>
      hnames (mem_definedNames hr hname) (mem_definedNames hr' hname')
    have hresolved := resolve_append hresolve hresolve' hdisjoint
    have htext : (s₁ ++ "\n" ++ s₂).toList = s₁.toList ++ '\n' :: s₂.toList := by
      rw [String.toList_append, String.toList_append, List.append_assoc]
      rfl
    rw [parseModule_eq_ok_iff, htext]
    refine read_eq_ok_iff.2 ⟨before ++ items', r', hboth, resolve_of_bare ?_ hresolved⟩
    rw [List.map_append, List.map_append, hbare]
  · exact Table.get?_followedBy_of_lt (hglobals.symm ▸ hk)
  · rw [← hglobals, ← Table.get?_map]
    exact hglobals ▸ Table.get?_followedBy_add m₁.globals _ k
  · exact Table.get?_followedBy_of_lt (hfuncs.symm ▸ hk)
  · rw [← hfuncs, ← Table.get?_map]
    exact hfuncs ▸ Table.get?_followedBy_add m₁.funcs _ k

/-- Two functions that call one another, the first one through a global. -/
def cycleText : String :=
  "@g = global ptr @f\ndefine void @f() \x7b\n  call void @h(ptr @g)\n  ret void\n\x7d\n" ++
    "define void @h(ptr %p) \x7b\n  call void @f()\n  ret void\n\x7d"

/-- A global further up than the function it refers to, which calls itself. -/
def loopText : String :=
  "@k = global ptr @loop\ndefine ptr @loop() \x7b\n  %p = call ptr @loop()\n  store i8 1, ptr @k\n" ++
    "  ret ptr %p\n\x7d ; end"

/-- The module of `cycleText`. -/
def cycleModule : Module where
  globals := .ofValues [⟨0, "g", .ptr, some (.symbol (.func 0)), false⟩]
  funcs := .ofValues [
    { id := 0, name := "f", ret := .void, params := [], variadic := false, locals := .empty
      blocks := .ofValues [⟨0, none, [⟨none, .call .void (.symbol (.func 1)) [.symbol (.global 0)]⟩], .ret none⟩] },
    { id := 1, name := "h", ret := .void, params := [0], variadic := false
      locals := .ofValues [⟨0, .ptr, some "p"⟩]
      blocks := .ofValues [⟨0, none, [⟨none, .call .void (.symbol (.func 0)) []⟩], .ret none⟩] }]

/-- The module of `loopText`, given the ids that its global and its function have. -/
def loopModule (g f : Nat) : Module where
  globals := .ofValues [⟨g, "k", .ptr, some (.symbol (.func f)), false⟩]
  funcs := .ofValues [
    { id := f, name := "loop", ret := .ptr, params := [], variadic := false
      locals := .ofValues [⟨0, .ptr, some "p"⟩]
      blocks := .ofValues [⟨0, none, [⟨some 0, .call .ptr (.symbol (.func f)) []⟩,
        ⟨none, .store (.const (.int 8 1)) (.symbol (.global g))⟩], .ret (some (.var 0))⟩] }]

theorem parseModule_append_cycle : parseModule cycleText = .ok cycleModule ∧
    parseModule loopText = .ok (loopModule 0 0) ∧ cycleModule.definedNames.Disjoint (loopModule 0 0).definedNames ∧
      parseModule (cycleText ++ "\n" ++ loopText) =
        .ok ⟨cycleModule.globals.followedBy (loopModule 1 2).globals,
          cycleModule.funcs.followedBy (loopModule 1 2).funcs⟩ := by
  have h₁ : parseModule cycleText = .ok cycleModule := Outcome.toOption_eq_some_iff.1 (by decide +kernel)
  have h₂ : parseModule loopText = .ok (loopModule 0 0) := Outcome.toOption_eq_some_iff.1 (by decide +kernel)
  have hnames : ∀ name ∈ cycleModule.definedNames, name ∉ (loopModule 0 0).definedNames := by decide +kernel
  have hnames : cycleModule.definedNames.Disjoint (loopModule 0 0).definedNames := fun name => hnames name
  exact ⟨h₁, h₂, hnames, (parseModule_append h₁ h₂ hnames).1⟩

end SSALint
