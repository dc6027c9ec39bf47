/-
Reading text that was written. `Reads p text F Q` says that `p` takes `text` off the front of whatever begins
with it, provided that `F` holds of what follows, and answers a value of which `Q` holds. There is a rule for
each way to build parsers, so that a printed text is taken apart as the grammar is put together.
-/
import SSALint.Proofs.Source.Parser
import SSALint.Source.Value

namespace SSALint.Source

/-! ## What follows -/

/-- Nothing is asked of what follows. -/
def Anything (_ : List Char) : Prop := True

/-- A word ends here. -/
def Stops (rest : List Char) : Prop := ∀ c ∈ rest.head?, isWordChar c = false

theorem stops_cons {c : Char} {rest : List Char} (h : isWordChar c = false) : Stops (c :: rest) := by
  intro d hd
  cases hd
  exact h

/-- A line ends here, and what stands in the lines behind it does not begin with a comma. -/
structure EndsLine (rest : List Char) : Prop where
  newline : rest.head? = some '\n'
  noComma : (skipBlanks rest).head? ≠ some ','

theorem EndsLine.stops {rest : List Char} (h : EndsLine rest) : Stops rest := by
  intro c hc
  have hnewline := h.newline
  rw [hc] at hnewline
  cases hnewline
  decide

/-! ## Blanks -/

theorem skipBlanks_blank {c : Char} (hc : isBlank c = true) (s : List Char) :
    skipBlanks (c :: s) = skipBlanks s := by
  have hsemicolon : c ≠ ';' := by rintro rfl; cases hc
  rw [skipBlanks, if_neg hsemicolon, if_pos hc]

theorem skipBlanks_of_not {c : Char} (hc : isBlank c = false) (hsemicolon : c ≠ ';') (s : List Char) :
    skipBlanks (c :: s) = c :: s := by
  rw [skipBlanks, if_neg hsemicolon, if_neg (by rw [hc]; exact Bool.false_ne_true)]

/-- Blanks that may stand before a token. -/
def Blanks (lead : List Char) : Prop := ∀ c ∈ lead, isBlank c = true

theorem blanks_nil : Blanks [] := by simp [Blanks]

theorem blanks_one : Blanks [' '] := by simp [Blanks, isBlank]

theorem Blanks.skipBlanks {lead : List Char} (h : Blanks lead) (s : List Char) :
    Source.skipBlanks (lead ++ s) = Source.skipBlanks s := by
  induction lead with
  | nil => rfl
  | cons c lead ih =>
    obtain ⟨hc, hlead⟩ := List.forall_mem_cons.1 h
    rw [List.cons_append, skipBlanks_blank hc, ih hlead]

mutual

theorem skipBlanks_skipBlanks : ∀ s : List Char, skipBlanks (skipBlanks s) = skipBlanks s
  | [] => rfl
  | c :: s => by
    rw [skipBlanks]
    split
    · exact skipBlanks_skipComment s
    · split
      · exact skipBlanks_skipBlanks s
      · rename_i hsemicolon hblank
        exact skipBlanks_of_not (Bool.eq_false_iff.2 hblank) hsemicolon s

theorem skipBlanks_skipComment : ∀ s : List Char, skipBlanks (skipComment s) = skipComment s
  | [] => rfl
  | c :: s => by
    rw [skipComment]
    split
    · exact skipBlanks_skipBlanks s
    · exact skipBlanks_skipComment s

end

variable {α β γ δ : Type}

/-- A parser that passes over blanks first. -/
class Lead (p : Parser α) : Prop where
  skip : ∀ s, p (skipBlanks s) = p s

namespace Lead

instance (f : Unit → Parser α) : Lead (blanks >>= f) where
  skip s := by
    show f () (skipBlanks (skipBlanks s)) = f () (skipBlanks s)
    rw [skipBlanks_skipBlanks]

instance {p : Parser α} {f : α → Parser β} [hp : Lead p] : Lead (p >>= f) where
  skip s := by
    show p (skipBlanks s) >>= _ = p s >>= _
    rw [hp.skip]

theorem lead {p : Parser α} [hp : Lead p] {lead : List Char} (h : Blanks lead) (s : List Char) :
    p (lead ++ s) = p s := by
  rw [← hp.skip, h.skipBlanks, hp.skip]

theorem cons {p : Parser α} [Lead p] {c : Char} (hc : isBlank c = true) (s : List Char) : p (c :: s) = p s :=
  lead (fun _ hd => List.mem_singleton.1 hd ▸ hc) s

end Lead

/-! ## Reading and failing -/

/-- A parser takes a text off the front and answers a value of which `Q` holds, if `F` holds of the rest. -/
def Reads (p : Parser α) (text : List Char) (F : List Char → Prop) (Q : α → Prop) : Prop :=
  ∀ rest, F rest → ∃ a, p (text ++ rest) = .ok (a, rest) ∧ Q a

/-- A parser fails on a text. -/
def Fails (p : Parser α) (s : List Char) : Prop := ∃ e, p s = .error e

theorem Fails.bind {p : Parser α} {s : List Char} (h : Fails p s) (f : α → Parser β) : Fails (p >>= f) s := by
  obtain ⟨e, he⟩ := h
  refine ⟨e, ?_⟩
  show p s >>= _ = _
  rw [he]
  rfl

theorem fails_blanks_bind {f : Unit → Parser α} {s : List Char} (h : Fails (f ()) (skipBlanks s)) :
    Fails (blanks >>= f) s := h

theorem fails_here_bind {f : List Char → Parser α} {s : List Char} (h : Fails (f s) s) :
    Fails (Parser.here >>= f) s := h

theorem Fails.blank {p : Parser α} [Lead p] {s : List Char} (h : Fails p s) {c : Char}
    (hc : isBlank c = true) : Fails p (c :: s) := by
  obtain ⟨e, he⟩ := h
  exact ⟨e, (Lead.cons (p := p) hc s).trans he⟩

namespace Reads

variable {p : Parser α} {text : List Char} {F F' : List Char → Prop} {Q Q' : α → Prop}

theorem weaken (h : Reads p text F Q) (hF : ∀ rest, F' rest → F rest) (hQ : ∀ a, Q a → Q' a) :
    Reads p text F' Q' := by
  intro rest hrest
  obtain ⟨a, ha, hq⟩ := h rest (hF rest hrest)
  exact ⟨a, ha, hQ a hq⟩

theorem pure {a : α} (h : Q a) : Reads (pure a) [] F Q := fun _ _ => ⟨a, rfl, h⟩

theorem bind {f : α → Parser β} {text' : List Char} {G : List Char → Prop} {R : β → Prop}
    (hp : Reads p text F Q) (hf : ∀ a, Q a → Reads (f a) text' G R)
    (hF : ∀ rest, G rest → F (text' ++ rest)) : Reads (p >>= f) (text ++ text') G R := by
  intro rest hrest
  obtain ⟨a, ha, hq⟩ := hp _ (hF rest hrest)
  obtain ⟨b, hb, hr⟩ := hf a hq rest hrest
  refine ⟨b, ?_, hr⟩
  rw [List.append_assoc]
  exact Parser.bind_eq_ok_iff.2 ⟨a, _, ha, hb⟩

/-- A parser before another one may take no text. -/
theorem nil_bind {f : α → Parser β} {G : List Char → Prop} {R : β → Prop} (hp : Reads p [] F Q)
    (hf : ∀ a, Q a → Reads (f a) text G R) (hF : ∀ rest, G rest → F (text ++ rest)) :
    Reads (p >>= f) text G R :=
  hp.bind hf hF

/-- A parser behind another one may take no text. -/
theorem bind_nil {f : α → Parser β} {R : β → Prop} (hp : Reads p text F Q)
    (hf : ∀ a, Q a → Reads (f a) [] F R) : Reads (p >>= f) text F R := by
  have h := hp.bind hf fun _ hrest => hrest
  rwa [List.append_nil] at h

theorem map {f : α → β} {R : β → Prop} (hp : Reads p text F Q) (hf : ∀ a, Q a → R (f a)) :
    Reads (p >>= fun a => Pure.pure (f a)) text F R :=
  hp.bind_nil fun a ha => pure (hf a ha)

/-- What reads a text fails if what comes behind it does. -/
theorem bind_fails {f : α → Parser β} {rest : List Char} (hp : Reads p text F Q) (hrest : F rest)
    (hf : ∀ a, Q a → Fails (f a) rest) : Fails (p >>= f) (text ++ rest) := by
  obtain ⟨a, ha, hq⟩ := hp rest hrest
  obtain ⟨e, he⟩ := hf a hq
  refine ⟨e, ?_⟩
  show p (text ++ rest) >>= _ = _
  rw [ha]
  exact he

theorem nil_bind_fails {f : α → Parser β} {rest : List Char} (hp : Reads p [] F Q) (hrest : F rest)
    (hf : ∀ a, Q a → Fails (f a) rest) : Fails (p >>= f) rest :=
  hp.bind_fails hrest hf

theorem here : Reads Parser.here [] F fun _ => True := fun rest _ => ⟨rest, rfl, trivial⟩

/-- What is known of the text that is left. -/
theorem here_of : Reads Parser.here [] F F := fun rest h => ⟨rest, rfl, h⟩

theorem lead [Lead p] (h : Reads p text F Q) {lead : List Char} (hlead : Blanks lead) :
    Reads p (lead ++ text) F Q := by
  intro rest hrest
  obtain ⟨a, ha, hq⟩ := h rest hrest
  refine ⟨a, ?_, hq⟩
  rw [List.append_assoc, Lead.lead (p := p) hlead, ha]

theorem blank [Lead p] (h : Reads p text F Q) {c : Char} (hc : isBlank c = true) : Reads p (c :: text) F Q :=
  h.lead fun _ hd => List.mem_singleton.1 hd ▸ hc

/-! ## Attempts -/

theorem attempt_some (h : Reads p text F Q) : Reads (Parser.attempt p) text F fun o => ∃ a, o = some a ∧ Q a := by
  intro rest hrest
  obtain ⟨a, ha, hq⟩ := h rest hrest
  exact ⟨some a, Parser.attempt_eq_some_iff.2 ha, a, rfl, hq⟩

theorem attempt_none (h : ∀ rest, F rest → Fails p rest) : Reads (Parser.attempt p) [] F (· = none) := by
  intro rest hrest
  exact ⟨none, Parser.attempt_eq_none_iff.2 ⟨rfl, h rest hrest⟩, rfl⟩

theorem accepts_true (h : Reads p text F Q) : Reads (Parser.accepts p) text F (· = true) := by
  refine h.attempt_some.map ?_
  rintro _ ⟨a, rfl, -⟩
  rfl

theorem accepts_false (h : ∀ rest, F rest → Fails p rest) : Reads (Parser.accepts p) [] F (· = false) := by
  refine (attempt_none h).map ?_
  rintro _ rfl
  rfl

/-! ## Repetitions -/

theorem collect_inr {step : Parser (α ⊕ β)} {R : β → Prop}
    (h : Reads step text F fun a => ∃ b, a = .inr b ∧ R b) :
    Reads (Parser.collect step) text F fun a => a.1 = [] ∧ R a.2 := by
  intro rest hrest
  obtain ⟨_, hb, b, rfl, hr⟩ := h rest hrest
  refine ⟨([], b), ?_, rfl, hr⟩
  unfold Parser.collect
  rw [hb]

theorem collect_inl {step : Parser (α ⊕ β)} {text' : List Char} {G : List Char → Prop} {P : α → Prop}
    {R : List α × β → Prop} (h : Reads step text F fun a => ∃ x, a = .inl x ∧ P x) (hne : text ≠ [])
    (hrest : Reads (Parser.collect step) text' G R) (hF : ∀ rest, G rest → F (text' ++ rest)) :
    Reads (Parser.collect step) (text ++ text') G fun a => ∃ x xs, a.1 = x :: xs ∧ P x ∧ R (xs, a.2) := by
  intro rest hG
  obtain ⟨_, ha, x, rfl, hx⟩ := h _ (hF rest hG)
  obtain ⟨⟨xs, b⟩, hxs, hr⟩ := hrest rest hG
  refine ⟨(x :: xs, b), ?_, x, xs, rfl, hx, hr⟩
  have hlt : (text' ++ rest).length < (text ++ (text' ++ rest)).length := by
    have := List.length_pos_of_ne_nil hne
    rw [@List.length_append _ text]
    omega
  rw [List.append_assoc]
  unfold Parser.collect
  rw [ha]
  simp only [hlt, if_true, hxs]

/-- A repetition reads the texts of items one after the other and then the text that ends it. -/
theorem collect {step : Parser (α ⊕ β)} {xs : List γ} {write : γ → List Char} {name : α → δ}
    {named : γ → δ} {last : List Char} {F G : List Char → Prop} {R : β → Prop}
    (hstep : ∀ x ∈ xs, Reads step (write x) G fun a => ∃ b, a = .inl b ∧ name b = named x)
    (hne : ∀ x ∈ xs, write x ≠ []) (hG : ∀ x ∈ xs.tail, ∀ rest, G (write x ++ rest))
    (hlast : Reads step last F fun a => ∃ b, a = .inr b ∧ R b) (hGlast : ∀ rest, F rest → G (last ++ rest)) :
    Reads (Parser.collect step) (xs.flatMap write ++ last) F fun a => a.1.map name = xs.map named ∧ R a.2 := by
  induction xs with
  | nil =>
    refine (collect_inr hlast).weaken (fun _ h => h) ?_
    rintro ⟨_, b⟩ ⟨rfl, hr⟩
    exact ⟨rfl, hr⟩
  | cons x xs ih =>
    obtain ⟨hx, hxs⟩ := List.forall_mem_cons.1 hstep
    obtain ⟨hnex, hnexs⟩ := List.forall_mem_cons.1 hne
    have htail := ih hxs hnexs fun y hy => hG y (List.mem_of_mem_tail hy)
    rw [List.flatMap_cons, List.append_assoc]
    refine (collect_inl hx hnex htail fun rest hrest => ?_).weaken (fun _ h => h) ?_
    · -- What follows an item is the next item, or the end.
      cases xs with
      | nil => exact hGlast rest hrest
      | cons y ys =>
        rw [List.flatMap_cons, List.append_assoc, List.append_assoc]
        exact hG y List.mem_cons_self _
    · rintro ⟨_, b⟩ ⟨a, as, rfl, hname, hnames, hr⟩
      exact ⟨by rw [List.map_cons, List.map_cons, hname, hnames], hr⟩

theorem many {item : Parser (Option α)} {xs : List γ} {write : γ → List Char} {name : α → δ}
    {named : γ → δ} {last : List Char} {F G : List Char → Prop}
    (hitem : ∀ x ∈ xs, Reads item (write x) G fun o => ∃ a, o = some a ∧ name a = named x)
    (hne : ∀ x ∈ xs, write x ≠ []) (hG : ∀ x ∈ xs.tail, ∀ rest, G (write x ++ rest))
    (hlast : Reads item last F (· = none)) (hGlast : ∀ rest, F rest → G (last ++ rest)) :
    Reads (Parser.many item) (xs.flatMap write ++ last) F fun as => as.map name = xs.map named := by
  unfold Parser.many
  refine map (Q := fun x => x.1.map name = xs.map named ∧ True) ?_ fun x hx => hx.1
  refine collect (R := fun _ => True) (fun x hx => ?_) hne hG ?_ hGlast
  · unfold Parser.turn
    refine (hitem x hx).bind_nil ?_
    rintro _ ⟨a, rfl, ha⟩
    exact pure ⟨a, rfl, ha⟩
  · unfold Parser.turn
    refine hlast.bind_nil ?_
    rintro _ rfl
    exact pure ⟨(), rfl, trivial⟩

theorem many_nil {item : Parser (Option α)} {last : List Char} {F : List Char → Prop}
    (hlast : Reads item last F (· = none)) : Reads (Parser.many item) last F (· = []) := by
  have hitems : Reads (Parser.many item) (([] : List α).flatMap (fun _ => []) ++ last) F
      fun as => as.map id = ([] : List α).map id :=
    many (G := Anything) (by simp) (by simp) (by simp) hlast fun _ _ => trivial
  exact hitems.weaken (fun _ h => h) fun as has => by rwa [List.map_id] at has

/-- A repetition whose first item is written in another way than the later ones. -/
theorem manyFrom {item : Parser (Option α)} {x : γ} {xs : List γ} {first : List Char} {later : γ → List Char}
    {name : α → δ} {named : γ → δ} {last : List Char} {F G : List Char → Prop}
    (hfirst : Reads item first G fun o => ∃ a, o = some a ∧ name a = named x)
    (hlater : ∀ y ∈ xs, Reads item (later y) G fun o => ∃ a, o = some a ∧ name a = named y) (hne : first ≠ [])
    (hnes : ∀ y ∈ xs, later y ≠ []) (hG : ∀ y ∈ xs, ∀ rest, G (later y ++ rest))
    (hlast : Reads item last F (· = none)) (hGlast : ∀ rest, F rest → G (last ++ rest)) :
    Reads (Parser.many item) (first ++ (xs.flatMap later ++ last)) F fun as => as.map name = (x :: xs).map named := by
  let texts : List (List Char × γ) := (first, x) :: xs.map fun y => (later y, y)
  have hall : ∀ P : List Char × γ → Prop, P (first, x) → (∀ y ∈ xs, P (later y, y)) → ∀ p ∈ texts, P p := by
    intro P hx hxs p hp
    rcases List.mem_cons.1 hp with rfl | hp
    · exact hx
    · obtain ⟨y, hy, rfl⟩ := List.mem_map.1 hp
      exact hxs y hy
  have htexts : Reads (Parser.many item) ((texts.flatMap fun p => p.1) ++ last) F
      fun as => as.map name = texts.map fun p => named p.2 := by
    refine many (hall _ hfirst hlater) (hall _ hne hnes) (fun p hp rest => ?_) hlast hGlast
    obtain ⟨y, hy, rfl⟩ := List.mem_map.1 hp
    exact hG y hy rest
  rw [List.flatMap_cons, List.flatMap_map, List.append_assoc, List.map_cons, List.map_map] at htexts
  exact htexts

/-! ## Separators -/

section

variable {separator : Parser Unit} {item : Parser α} {sep : List Char}

theorem behind_some (hsep : Reads separator sep Anything fun _ => True) (hitem : Reads item text F Q) :
    Reads (Parser.behind separator item) (sep ++ text) F fun o => ∃ a, o = some a ∧ Q a := by
  unfold Parser.behind
  refine hsep.accepts_true.bind ?_ fun _ _ => trivial
  rintro _ rfl
  exact hitem.map fun a ha => ⟨a, rfl, ha⟩

theorem behind_none (hsep : ∀ rest, F rest → Fails separator rest) :
    Reads (Parser.behind separator item) [] F (· = none) := by
  unfold Parser.behind
  refine (accepts_false hsep).bind_nil ?_
  rintro _ rfl
  exact pure rfl

variable {name : α → δ} {named : γ → δ} {xs : List γ} {later : γ → List Char} {G : List Char → Prop}

/-- Items that stand behind a separator each. -/
theorem manyBehind (hsep : Reads separator sep Anything fun _ => True) (hne : sep ≠ [])
    (hG : ∀ rest, G (sep ++ rest)) (hF : ∀ rest, F rest → G rest ∧ Fails separator rest)
    (hlater : ∀ x ∈ xs, Reads item (later x) G fun a => name a = named x) :
    Reads (Parser.many (Parser.behind separator item)) (xs.flatMap fun x => sep ++ later x) F
      fun as => as.map name = xs.map named := by
  have hend : xs.flatMap (fun x => sep ++ later x) = xs.flatMap (fun x => sep ++ later x) ++ [] := by simp
  rw [hend]
  refine many (fun x hx => behind_some hsep (hlater x hx)) (fun x _ => by simp [hne])
    (fun x _ rest => ?_) (behind_none fun rest hrest => (hF rest hrest).2) fun rest hrest => (hF rest hrest).1
  rw [List.append_assoc]
  exact hG _

/-- One item or more, each after the first behind a separator. -/
theorem sepBy1 {x : γ} {first : List Char} (hsep : Reads separator sep Anything fun _ => True)
    (hne : sep ≠ []) (hG : ∀ rest, G (sep ++ rest)) (hF : ∀ rest, F rest → G rest ∧ Fails separator rest)
    (hfirst : Reads item first G fun a => name a = named x)
    (hlater : ∀ y ∈ xs, Reads item (later y) G fun a => name a = named y) :
    Reads (Parser.sepBy1 separator item) (first ++ xs.flatMap fun y => sep ++ later y) F
      fun as => as.map name = (x :: xs).map named := by
  unfold Parser.sepBy1
  refine hfirst.bind (fun a ha => ?_) fun rest hrest => ?_
  · refine (manyBehind hsep hne hG hF hlater).map fun as has => ?_
    rw [List.map_cons, List.map_cons, ha, has]
  · cases xs with
    | nil => exact (hF rest hrest).1
    | cons y ys =>
      rw [List.flatMap_cons, List.append_assoc, List.append_assoc]
      exact hG _

end

end Reads
end SSALint.Source
