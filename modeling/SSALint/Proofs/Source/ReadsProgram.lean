/-
Items that were written: the heads of functions, definitions with their bodies, declarations and globals. Each is read
back as it was written (`reads_definition`, `reads_declaration`, `reads_global`).
-/
import SSALint.Proofs.Source.ReadsBody

namespace SSALint.Source

/-! ## Parameters -/

/-- The text of a parameter: a type and, if it has one, a name. -/
def paramText (p : NamedParam) : List Char :=
  p.type.print.toList ++ match p.name with
    | none => []
    | some m => ' ' :: '%' :: m.name.toList

/-- A parameter can be written. -/
def NamedParam.Writable (p : NamedParam) : Prop := p.type.Writable ∧ ∀ m ∈ p.name, IsWord m.name

/-- A parameter ends here. -/
def EndsParam (rest : List Char) : Prop := ∃ c r, rest = c :: r ∧ (c = ',' ∨ c = ')')

theorem EndsParam.stops {rest : List Char} (h : EndsParam rest) : Stops rest := by
  obtain ⟨c, r, rfl, rfl | rfl⟩ := h <;> exact stops_cons rfl

theorem reads_param {lead : List Char} (hlead : Blanks lead) {p : NamedParam} (hp : p.Writable) :
    Reads param (lead ++ paramText p) EndsParam fun q => q.bare = p.bare := by
  obtain ⟨t, name⟩ := p
  show Reads param (lead ++ (t.print.toList ++ _)) _ _
  rw [← List.append_assoc]
  cases name with
  | none =>
    refine (reads_ty hlead hp.1).bind ?_ fun rest hrest => hrest.stops
    rintro t rfl
    refine (Reads.attempt_none fun rest hrest => fails_sigilName ?_).map ?_
    · obtain ⟨c, r, rfl, hc⟩ := hrest
      have hvisible : IsVisible c := by rcases hc with rfl | rfl <;> decide
      rw [hvisible.skipBlanks]
      rcases hc with rfl | rfl <;> simp
    · rintro _ rfl
      rfl
  | some m =>
    refine (reads_ty hlead hp.1).bind ?_ fun _ _ => stops_cons rfl
    rintro t rfl
    have hname : Reads localName (' ' :: '%' :: m.name.toList) Stops fun k => k.name = m.name :=
      (reads_sigilName (by decide) (hp.2 m rfl)).blank rfl
    refine (hname.attempt_some.weaken (fun _ h => EndsParam.stops h) fun _ h => h).map ?_
    rintro _ ⟨k, rfl, hk⟩
    exact congrArg (fun name => (⟨t, some (.of name)⟩ : NamedParam)) hk

theorem reads_close : Reads (sign ")") [')'] Anything fun _ => True := @reads_sign ")" ⟨')', [], rfl, by decide⟩

theorem reads_paramStep_variadic {lead : List Char} (hlead : Blanks lead) :
    Reads paramStep (lead ++ "...".toList ++ [')']) Anything (· = .inr ([], true)) := by
  refine ((@reads_sign "..." ⟨'.', _, rfl, by decide⟩).lead hlead).accepts_true.bind ?_ fun _ _ => trivial
  rintro _ rfl
  exact reads_close.map fun _ _ => rfl

theorem reads_paramStep {lead : List Char} (hlead : Blanks lead) {p : NamedParam} (hp : p.Writable)
    {text : List Char} {F : List Char → Prop} {Q : NamedParam ⊕ (List NamedParam × Bool) → Prop}
    (hends : ∀ rest, F rest → EndsParam (text ++ rest))
    (h : ∀ q : NamedParam, q.bare = p.bare → Reads (paramEnd q) text F Q) :
    Reads paramStep (lead ++ paramText p ++ text) F Q := by
  have hinitial : p.type.initial ≠ '.' := by cases p.type <;> simp [Ty.initial]
  refine (Reads.accepts_false fun rest hrest => fails_sign hrest).nil_bind ?_ fun rest _ => ?_
  · rintro _ rfl
    exact (reads_param hlead hp).bind h hends
  · show dropWord? ('.' :: _) (skipBlanks (lead ++ (p.type.print.toList ++ _) ++ text ++ rest)) = none
    simp only [List.append_assoc]
    rw [← List.append_assoc]
    exact dropWord?_print hinitial hlead _

theorem reads_paramStep_more {lead : List Char} (hlead : Blanks lead) {p : NamedParam} (hp : p.Writable) :
    Reads paramStep (lead ++ paramText p ++ [',']) Anything fun x => ∃ q, x = .inl q ∧ q.bare = p.bare := by
  refine reads_paramStep hlead hp (fun rest _ => ⟨',', rest, rfl, .inl rfl⟩) fun q hq => ?_
  refine (@reads_sign "," ⟨',', [], rfl, by decide⟩).accepts_true.bind_nil ?_
  rintro _ rfl
  exact .pure ⟨q, rfl, hq⟩

theorem reads_paramStep_last {lead : List Char} (hlead : Blanks lead) {p : NamedParam} (hp : p.Writable) :
    Reads paramStep (lead ++ paramText p ++ [')']) Anything
      fun x => ∃ q, x = .inr ([q], false) ∧ q.bare = p.bare := by
  refine reads_paramStep hlead hp (fun rest _ => ⟨')', rest, rfl, .inr rfl⟩) fun q hq => ?_
  refine (Reads.accepts_false fun rest hrest => fails_sign hrest).nil_bind ?_ fun rest _ => ?_
  · rintro _ rfl
    exact reads_close.map fun _ _ => ⟨q, rfl, hq⟩
  · show dropWord? [','] (skipBlanks (')' :: rest)) = none
    rw [IsVisible.skipBlanks (by decide)]
    exact dropWord?_of_head (by simp)

/-- Parameters with commas between them, and dots behind them if there may be more. -/
def paramsText (ps : List NamedParam) (variadic : Bool) : List Char :=
  [',', ' '].intercalate (ps.map paramText ++ if variadic then ["...".toList] else [])

theorem paramsText_cons (p : NamedParam) {ps : List NamedParam} {variadic : Bool} (h : ps ≠ [] ∨ variadic = true) :
    paramsText (p :: ps) variadic = paramText p ++ ([','] ++ ([' '] ++ paramsText ps variadic)) := by
  have hne : ps.map paramText ++ (if variadic then ["...".toList] else []) ≠ [] := by
    rcases h with h | rfl <;> simp [*]
  obtain ⟨text, texts, htexts⟩ := List.exists_cons_of_ne_nil hne
  unfold paramsText
  rw [List.map_cons, List.cons_append, htexts, List.intercalate_cons_cons]
  simp

theorem paramsText_begins (p : NamedParam) (ps : List NamedParam) (variadic : Bool) :
    ∃ text, paramsText (p :: ps) variadic = paramText p ++ text := by
  by_cases h : ps ≠ [] ∨ variadic = true
  · exact ⟨_, paramsText_cons p h⟩
  · rw [not_or, not_not, Bool.not_eq_true] at h
    obtain ⟨rfl, rfl⟩ := h
    exact ⟨[], by simp [paramsText]⟩

/-- Parameters are read back one by one, to the bracket behind them. -/
theorem reads_paramsFrom (variadic : Bool) : ∀ ps : List NamedParam, (∀ p ∈ ps, p.Writable) →
    ps ≠ [] ∨ variadic = true → ∀ lead, Blanks lead →
      Reads (Parser.collect paramStep) (lead ++ paramsText ps variadic ++ [')']) Anything
        fun x => (x.1 ++ x.2.1).map NamedParam.bare = ps.map NamedParam.bare ∧ x.2.2 = variadic
  | [], _, h, lead, hlead => by
    obtain rfl : variadic = true := h.resolve_left fun hne => hne rfl
    have hlast : Reads paramStep (lead ++ paramsText [] true ++ [')']) Anything
        fun x => ∃ b, x = .inr b ∧ b = ([], true) :=
      (reads_paramStep_variadic hlead).weaken (fun _ h => h) fun x hx => ⟨_, hx, rfl⟩
    refine (Reads.collect_inr hlast).weaken (fun _ h => h) ?_
    rintro ⟨_, _⟩ ⟨rfl, rfl⟩
    exact ⟨rfl, rfl⟩
  | p :: ps, hps, _, lead, hlead => by
    obtain ⟨hp, hps⟩ := List.forall_mem_cons.1 hps
    by_cases hmore : ps ≠ [] ∨ variadic = true
    · have hrest := reads_paramsFrom variadic ps hps hmore [' '] blanks_one
      have htext : lead ++ paramsText (p :: ps) variadic ++ [')'] =
          (lead ++ paramText p ++ [',']) ++ ([' '] ++ paramsText ps variadic ++ [')']) := by
        rw [paramsText_cons p hmore]
        simp
      rw [htext]
      refine (Reads.collect_inl (reads_paramStep_more hlead hp) (by simp) hrest fun _ _ => trivial).weaken
        (fun _ h => h) ?_
      rintro ⟨_, x⟩ ⟨q, qs, rfl, hq, hqs, hvariadic⟩
      refine ⟨?_, hvariadic⟩
      rw [List.cons_append, List.map_cons, List.map_cons, hq, hqs]
    · obtain ⟨rfl, rfl⟩ : ps = [] ∧ variadic = false := by
        rw [not_or, not_not, Bool.not_eq_true] at hmore
        exact hmore
      have htext : lead ++ paramsText [p] false ++ [')'] = lead ++ paramText p ++ [')'] := by simp [paramsText]
      have hlast : Reads paramStep (lead ++ paramText p ++ [')']) Anything
          fun x => ∃ b, x = .inr b ∧ b.1.map NamedParam.bare = [p.bare] ∧ b.2 = false := by
        refine (reads_paramStep_last hlead hp).weaken (fun _ h => h) ?_
        rintro _ ⟨q, rfl, hq⟩
        exact ⟨_, rfl, congrArg (fun x => [x]) hq, rfl⟩
      rw [htext]
      refine (Reads.collect_inr hlast).weaken (fun _ h => h) ?_
      rintro ⟨_, _⟩ ⟨rfl, h⟩
      exact h

theorem reads_params {ps : List NamedParam} {variadic : Bool} (hps : ∀ p ∈ ps, p.Writable) :
    Reads params ("(".toList ++ (paramsText ps variadic ++ [')'])) Anything
      fun x => x.1.map NamedParam.bare = ps.map NamedParam.bare ∧ x.2 = variadic := by
  refine (@reads_sign "(" ⟨'(', [], rfl, by decide⟩).bind (fun _ _ => ?_) fun _ _ => trivial
  by_cases hmore : ps ≠ [] ∨ variadic = true
  · refine (Reads.accepts_false fun rest hrest => fails_sign hrest).nil_bind ?_ fun rest _ => ?_
    · rintro _ rfl
      refine (reads_paramsFrom variadic ps hps hmore [] blanks_nil).bind_nil ?_
      rintro ⟨qs, last, v⟩ h
      exact .pure h
    · cases ps with
      | nil =>
        obtain rfl : variadic = true := hmore.resolve_left fun hne => hne rfl
        rfl
      | cons p ps =>
        have hinitial : p.type.initial ≠ ')' := by cases p.type <;> simp [Ty.initial]
        obtain ⟨text, htext⟩ := paramsText_begins p ps variadic
        rw [htext, paramText]
        simp only [List.append_assoc]
        exact dropWord?_print hinitial blanks_nil _
  · obtain ⟨rfl, rfl⟩ : ps = [] ∧ variadic = false := by
      rw [not_or, not_not, Bool.not_eq_true] at hmore
      exact hmore
    refine reads_close.accepts_true.bind_nil ?_
    rintro _ rfl
    exact .pure ⟨rfl, rfl⟩

/-! ## Heads -/

/-- The text of a head, from the type of the result to the bracket behind the parameters. -/
def headText (h : Head) : List Char :=
  h.ret.print.toList ++ (' ' :: '@' :: h.name.name.toList ++ ("(".toList ++ (paramsText h.params h.variadic ++ [')'])))

/-- A head can be written. -/
structure Head.Writable (h : Head) : Prop where
  ret : h.ret.Writable
  name : IsWord h.name.name
  params : ∀ p ∈ h.params, p.Writable

theorem reads_head {h : Head} (hh : h.Writable) :
    Reads head (' ' :: headText h) Anything fun g => g.bare = h.bare := by
  refine (reads_ty blanks_one hh.ret).bind (fun t ht => ?_) fun _ _ => stops_cons rfl
  have hname : Reads symbolName (' ' :: '@' :: h.name.name.toList) Stops fun m => m.name = h.name.name :=
    (reads_sigilName (by decide) hh.name).blank rfl
  refine hname.bind (fun m hm => ?_) fun _ _ => stops_cons rfl
  refine (reads_params hh.params).map ?_
  rintro ⟨ps, variadic⟩ ⟨hps, hvariadic⟩
  show Head.mk t (.of m.name) (ps.map NamedParam.bare) variadic = _
  obtain rfl : variadic = h.variadic := hvariadic
  rw [ht, hm, hps]
  rfl

/-! ## Items -/

theorem reads_item {lead text : List Char} {F : List Char → Prop} {Q : Option Item → Prop} (hlead : Blanks lead)
    (hshows : Shows text) (h : Reads itemBehind text F Q) : Reads item (lead ++ text) F Q := by
  refine (reads_lead hlead).bind (fun _ _ => ?_) fun rest _ => hshows.append rest
  refine (Reads.here_of (F := Shows)).nil_bind (fun s hs => ?_) fun rest _ => hshows.append rest
  obtain ⟨c, r, rfl, -⟩ := hs
  exact h

/-- An item begins with `define`, with `declare` or with a symbol. -/
theorem reads_definition {h : Head} (hh : h.Writable) {n : Names} (hn : n.Spelled) {b : Block} {bs : List Block}
    (hblocks : ∀ c ∈ b :: bs, c.Typed n.typeOf) (hdistinct : ∀ c ∈ b :: bs, c.terminator.Distinct n.typeOf) :
    Reads itemBehind ("define".toList ++ (' ' :: headText h ++ (" \x7b".toList ++
      ((b :: bs).flatMap (blockText n) ++ ['\n', '\x7d'])))) Anything
      fun o => ∃ i, o = some i ∧ i.bare = .definition h.bare ((b :: bs).map n.namedBlock) := by
  refine (@reads_keyword "define" ⟨'d', _, rfl, by decide⟩).accepts_true.bind ?_ fun _ _ => stops_cons rfl
  rintro _ rfl
  refine (reads_head hh).bind (fun g hg => ?_) fun _ _ => trivial
  exact (reads_body hn hblocks hdistinct).map fun cs hcs => ⟨_, rfl, congrArg₂ Item.definition hg hcs⟩

theorem reads_declaration {h : Head} (hh : h.Writable) :
    Reads itemBehind ("declare".toList ++ ' ' :: headText h) Anything
      fun o => ∃ i, o = some i ∧ i.bare = .declaration h.bare := by
  refine (Reads.accepts_false fun rest hrest => fails_keyword hrest).nil_bind ?_ fun _ _ => rfl
  rintro _ rfl
  refine (@reads_keyword "declare" ⟨'d', _, rfl, by decide⟩).accepts_true.bind ?_ fun _ _ => stops_cons rfl
  rintro _ rfl
  exact (reads_head hh).map fun g hg => ⟨_, rfl, congrArg Item.declaration hg⟩

end SSALint.Source

namespace SSALint

open Source

/-- A global can be written: its initial value is no local value and fits its type, and it has one unless it is
external. -/
structure Global.Writable (v : Global) : Prop where
  name : IsWord v.name
  type : v.type.Writable
  init : ∀ w ∈ v.init, w.Fits v.type ∧ w.isConstant = true
  external : v.init = none ↔ v.external = true

end SSALint

namespace SSALint.Source

theorem reads_externalGlobal (name : Mention) {t : Ty} (ht : t.Writable) :
    Reads (globalBehind name) (' ' :: "external".toList ++ (' ' :: "global".toList ++ ' ' :: t.print.toList)) Stops
      (· = ⟨name, t, none⟩) := by
  refine ((@reads_keyword "external" ⟨'e', _, rfl, by decide⟩).blank rfl).accepts_true.bind ?_ fun _ _ => stops_cons rfl
  rintro _ rfl
  refine ((@reads_keyword "global" ⟨'g', _, rfl, by decide⟩).blank rfl).bind (fun _ _ => ?_) fun _ _ => stops_cons rfl
  refine (reads_ty blanks_one ht).bind_nil ?_
  rintro _ rfl
  exact .pure rfl

theorem isConstant_bareValue (w : NamedValue) : (bareValue w).isConstant = w.isConstant := by
  cases w <;> rfl

theorem isConstant_namedValue (n : Names) (v : Value) : (n.namedValue v).isConstant = v.isConstant := by
  cases v <;> rfl

theorem reads_initializedGlobal {n : Names} (hn : n.Spelled) (name : Mention) {t : Ty} (ht : t.Writable) {w : Value}
    (hfits : w.Fits t) (hconstant : w.isConstant = true) :
    Reads (globalBehind name) (' ' :: "global".toList ++ (' ' :: t.print.toList ++ ' ' :: (n.value w).toList)) Stops
      fun g => ∃ u, g = ⟨name, t, some u⟩ ∧ bareValue u = n.namedValue w := by
  refine (Reads.accepts_false fun rest hrest => fails_keyword hrest).nil_bind ?_ fun _ _ => rfl
  rintro _ rfl
  refine ((@reads_keyword "global" ⟨'g', _, rfl, by decide⟩).blank rfl).bind (fun _ _ => ?_) fun _ _ => stops_cons rfl
  refine (reads_ty blanks_one ht).bind ?_ fun _ _ => stops_cons rfl
  rintro _ rfl
  refine (Reads.here (F := Anything)).nil_bind (fun place _ => ?_) fun _ _ => trivial
  refine ((reads_value hn hfits).blank rfl).bind_nil fun u hu => ?_
  have huconstant : u.isConstant = true := by
    rw [← isConstant_bareValue, hu, isConstant_namedValue, hconstant]
  cases u with
  | var m => cases huconstant
  | symbol m => exact .pure ⟨_, rfl, hu⟩
  | const c => exact .pure ⟨_, rfl, hu⟩

/-- The text of a global is its name and what stands behind the sign, which tells the rest of it. -/
theorem reads_globalText {n : Names} (hn : n.Spelled) {v : Global} (hv : v.Writable) :
    ∃ text, (n.global v).toList = '@' :: v.name.toList ++ ([' ', '='] ++ text) ∧
      ∀ name : Mention, name.name = v.name →
        Reads (globalBehind name) text Stops fun g => g.bare = n.namedGlobal v := by
  cases hinit : v.init with
  | none =>
    have hexternal := hv.external.1 hinit
    refine ⟨_, ?_, fun name hname => (reads_externalGlobal name hv.type).weaken (fun _ h => h) ?_⟩
    · simp [Names.global, hexternal]
    · rintro _ rfl
      show NamedGlobal.mk (.of name.name) v.type none = ⟨.of v.name, v.type, v.init.map n.namedValue⟩
      rw [hname, hinit]
      rfl
  | some w =>
    have hexternal : v.external = false := by
      rw [Bool.eq_false_iff]
      intro h
      rw [hv.external.2 h] at hinit
      cases hinit
    obtain ⟨hfits, hconstant⟩ := hv.init w hinit
    refine ⟨_, ?_, fun name hname => (reads_initializedGlobal hn name hv.type hfits hconstant).weaken (fun _ h => h) ?_⟩
    · simp [Names.global, hexternal, hinit]
    · rintro _ ⟨u, rfl, hu⟩
      show NamedGlobal.mk (.of name.name) v.type (some (bareValue u)) = ⟨.of v.name, v.type, v.init.map n.namedValue⟩
      rw [hname, hinit, hu]
      rfl

/-- A global is read back as it was written. -/
theorem reads_global {n : Names} (hn : n.Spelled) {v : Global} (hv : v.Writable) :
    Reads itemBehind (n.global v).toList Stops fun o => ∃ i, o = some i ∧ i.bare = .global (n.namedGlobal v) := by
  obtain ⟨text, htext, hreads⟩ := reads_globalText hn hv
  rw [htext]
  refine (Reads.accepts_false fun rest hrest => fails_keyword hrest).nil_bind ?_ fun _ _ => rfl
  rintro _ rfl
  refine (Reads.accepts_false fun rest hrest => fails_keyword hrest).nil_bind ?_ fun _ _ => rfl
  rintro _ rfl
  have hname : Reads symbolName ('@' :: v.name.toList) Stops fun m => m.name = v.name :=
    reads_sigilName (by decide) hv.name
  refine hname.attempt_some.bind ?_ fun _ _ => stops_cons rfl
  rintro _ ⟨m, rfl, hm⟩
  have hglobal : Reads (global m) ([' ', '='] ++ text) Stops fun g => g.bare = n.namedGlobal v :=
    ((@reads_sign "=" ⟨'=', [], rfl, by decide⟩).blank rfl).bind (fun _ _ => hreads m hm) fun _ _ => trivial
  exact hglobal.map fun g hg => ⟨_, rfl, congrArg Item.global hg⟩

end SSALint.Source
