/-
How parsers compose. `Ensures` carries an assertion about the text that is left through a parser, and `Yields` one
about what is answered, with a rule for each way to build a parser. A parser is steady if what it leaves is a suffix
of what it got; what is built from steady parsers is steady, and instances find this out.
-/
import SSALint.Source.Parser
import Mathlib.Data.List.Infix

namespace SSALint.Source.Parser

variable {α β : Type}

theorem pure_eq_ok_iff {a b : α} {s r : List Char} :
    (pure a : Parser α) s = .ok (b, r) ↔ a = b ∧ s = r := by
  show (Except.ok (a, s) : Except Failure _) = _ ↔ _
  rw [Except.ok.injEq, Prod.mk.injEq]

theorem bind_eq_ok_iff {p : Parser α} {f : α → Parser β} {s r : List Char} {b : β} :
    (p >>= f) s = .ok (b, r) ↔ ∃ a t, p s = .ok (a, t) ∧ f a t = .ok (b, r) := by
  show p s >>= (fun x => f x.1 x.2) = _ ↔ _
  cases p s with
  | error e => simp [bind, Except.bind]
  | ok x => obtain ⟨a, t⟩ := x; simp [bind, Except.bind]

theorem attempt_eq_some_iff {p : Parser α} {s r : List Char} {a : α} :
    attempt p s = .ok (some a, r) ↔ p s = .ok (a, r) := by
  unfold attempt
  split <;> simp [*]

theorem attempt_eq_none_iff {p : Parser α} {s r : List Char} :
    attempt p s = .ok (none, r) ↔ s = r ∧ ∃ e, p s = .error e := by
  unfold attempt
  split <;> simp [*]

/-! ## Assertions -/

/-- From a text for which `P` holds, a parser that succeeds gets to a value and a rest for which `Q`
holds. -/
def Ensures (P : List Char → Prop) (p : Parser α) (Q : α → List Char → Prop) : Prop :=
  ∀ s a r, P s → p s = .ok (a, r) → Q a r

namespace Ensures

variable {P P' : List Char → Prop} {Q Q' : α → List Char → Prop} {R : β → List Char → Prop}

theorem weaken {p : Parser α} (h : Ensures P p Q) (hP : ∀ s, P' s → P s) (hQ : ∀ a r, Q a r → Q' a r) :
    Ensures P' p Q' :=
  fun s a r hs hp => hQ a r (h s a r (hP s hs) hp)

theorem any {p : Parser α} : Ensures P p fun _ _ => True := fun _ _ _ _ _ => trivial

theorem pure {a : α} (h : ∀ s, P s → Q a s) : Ensures P (pure a) Q := by
  intro s b r hs hp
  obtain ⟨rfl, rfl⟩ := pure_eq_ok_iff.1 hp
  exact h s hs

theorem bind {p : Parser α} {f : α → Parser β} (hp : Ensures P p Q) (hf : ∀ a, Ensures (Q a) (f a) R) :
    Ensures P (p >>= f) R := by
  intro s b r hs h
  obtain ⟨a, t, ha, hb⟩ := bind_eq_ok_iff.1 h
  exact hf a t b r (hp s a t hs ha) hb

theorem here {Q : List Char → List Char → Prop} (h : ∀ s, P s → Q s s) : Ensures P here Q := by
  intro s a r hs hp
  cases hp
  exact h s hs

theorem fail {complaint : Complaint} : Ensures P (fail complaint) Q := by
  intro s a r _ hp
  cases hp

theorem failAt {complaint : Complaint} {place : List Char} : Ensures P (failAt complaint place) Q := by
  intro s a r _ hp
  cases hp

theorem attempt {p : Parser α} {Q : Option α → List Char → Prop} (hp : Ensures P p fun a => Q (some a))
    (hnone : ∀ s, P s → Q none s) : Ensures P (attempt p) Q := by
  intro s o r hs h
  cases o with
  | some a => exact hp s a r hs (attempt_eq_some_iff.1 h)
  | none =>
    obtain ⟨rfl, -⟩ := attempt_eq_none_iff.1 h
    exact hnone s hs

theorem accepts {p : Parser α} {Q : Bool → List Char → Prop} (hp : Ensures P p fun _ => Q true)
    (hnone : ∀ s, P s → Q false s) : Ensures P (accepts p) Q := by
  unfold Parser.accepts
  exact bind (Q := fun a => Q a.isSome) (attempt hp hnone) fun a => pure fun s hs => hs

/-- A repetition keeps an invariant that tells the items collected so far. -/
theorem collect {step : Parser (α ⊕ β)} {I : List α → List Char → Prop}
    {Q : List α × β → List Char → Prop}
    (hstep : ∀ as, Ensures (I as) step
      (Sum.elim (fun a => I (as ++ [a])) fun b => Q (as, b))) : Ensures (I []) (collect step) Q := by
  -- The recursion forgets the items so far, so they are generalized first.
  suffices h : ∀ s as x r, I as s → Parser.collect step s = .ok (x, r) → Q (as ++ x.1, x.2) r from
    fun s x r hs hx => h s [] x r hs hx
  intro s
  fun_induction Parser.collect step s with
  | case1 s e he => intro as x r hs hx; cases hx
  | case2 s b t hb =>
    intro as x r hs hx
    cases hx
    simpa using hstep as s (.inr b) _ hs hb
  | case3 s a t ha hlt e he ih => intro as x r hs hx; cases hx
  | case4 s a t ha hlt others b u hu ih =>
    intro as x r hs hx
    cases hx
    simpa using ih (as ++ [a]) _ _ (hstep as s (.inl a) t hs ha) hu
  | case5 s a t ha hlt => intro as x r hs hx; cases hx

theorem many {item : Parser (Option α)} {I Q : List α → List Char → Prop}
    (hitem : ∀ as, Ensures (I as) item fun a => a.elim (Q as) fun a => I (as ++ [a])) :
    Ensures (I []) (many item) Q := by
  unfold Parser.many
  refine bind (Q := fun x => Q x.1) (collect fun as => ?_) fun x => pure fun s hs => hs
  unfold turn
  refine bind (hitem as) fun a => ?_
  cases a with
  | none => exact pure fun s hs => hs
  | some a => exact pure fun s hs => hs

end Ensures

/-! ## Answers -/

/-- Whatever a parser answers has a property. -/
def Yields (p : Parser α) (Q : α → Prop) : Prop := ∀ s a r, p s = .ok (a, r) → Q a

namespace Yields

variable {Q Q' : α → Prop} {R : β → Prop}

theorem ensures {p : Parser α} (h : Yields p Q) {P : List Char → Prop} : Ensures P p fun a _ => Q a :=
  fun s a r _ hp => h s a r hp

theorem weaken {p : Parser α} (h : Yields p Q) (hQ : ∀ a, Q a → Q' a) : Yields p Q' :=
  fun s a r hp => hQ a (h s a r hp)

theorem any {p : Parser α} : Yields p fun _ => True := fun _ _ _ _ => trivial

theorem pure {a : α} (h : Q a) : Yields (pure a) Q := fun _ _ _ hp => (pure_eq_ok_iff.1 hp).1 ▸ h

theorem fail {complaint : Complaint} : Yields (fail complaint) Q := nofun

theorem failAt {complaint : Complaint} {place : List Char} : Yields (failAt complaint place) Q := nofun

theorem bind {p : Parser α} {f : α → Parser β} (hp : Yields p Q) (hf : ∀ a, Q a → Yields (f a) R) :
    Yields (p >>= f) R := by
  intro s b r h
  obtain ⟨a, t, ha, hb⟩ := bind_eq_ok_iff.1 h
  exact hf a (hp s a t ha) t b r hb

/-- Nothing needs to be known of what is answered first. -/
theorem skip {p : Parser α} {f : α → Parser β} (hf : ∀ a, Yields (f a) R) : Yields (p >>= f) R :=
  bind any fun a _ => hf a

/-- What fails is not gone on from. -/
theorem stop {p : Parser α} {f : α → Parser β} (hp : Yields p fun _ => False) : Yields (p >>= f) R :=
  bind hp fun _ h => h.elim

theorem attempt {p : Parser α} (hp : Yields p Q) : Yields (attempt p) fun o => ∀ a ∈ o, Q a := by
  rintro s o r h a rfl
  exact hp s a r (attempt_eq_some_iff.1 h)

theorem collect {step : Parser (α ⊕ β)} (hstep : Yields step (Sum.elim Q R)) :
    Yields (collect step) fun x => (∀ a ∈ x.1, Q a) ∧ R x.2 := by
  have hcollect : Ensures (fun _ => ∀ a ∈ [], Q a) (Parser.collect step) fun x _ => (∀ a ∈ x.1, Q a) ∧ R x.2 := by
    refine .collect (I := fun as _ => ∀ a ∈ as, Q a) fun as s x r has hx => ?_
    cases x with
    | inl a =>
      refine List.forall_mem_append.2 ⟨has, List.forall_mem_singleton.2 ?_⟩
      exact hstep s (.inl a) r hx
    | inr b => exact ⟨has, hstep s (.inr b) r hx⟩
  exact fun s x r hx => hcollect s x r (List.forall_mem_nil Q) hx

theorem many {item : Parser (Option α)} (hitem : Yields item fun o => ∀ a ∈ o, Q a) :
    Yields (many item) fun as => ∀ a ∈ as, Q a := by
  unfold Parser.many turn
  refine bind (collect (Q := Q) (R := fun _ => True) (bind hitem fun o ho => ?_)) fun x hx => pure hx.1
  cases o with
  | none => exact pure trivial
  | some a => exact pure (ho a rfl)

theorem behind {separator : Parser Unit} {item : Parser α} (hitem : Yields item Q) :
    Yields (behind separator item) fun o => ∀ a ∈ o, Q a := by
  unfold Parser.behind
  refine skip fun found => ?_
  split
  · exact bind hitem fun a ha => pure fun _ h => Option.some.inj h ▸ ha
  · exact pure nofun

/-- A row has one item or more, each of which is one that is answered. -/
theorem sepBy1 {separator : Parser Unit} {item : Parser α} (hitem : Yields item Q) :
    Yields (sepBy1 separator item) fun as => as ≠ [] ∧ ∀ a ∈ as, Q a :=
  bind hitem fun _ hfirst => bind (many (behind hitem)) fun _ hothers =>
    pure ⟨List.cons_ne_nil _ _, List.forall_mem_cons.2 ⟨hfirst, hothers⟩⟩

end Yields

/-! ## Steady parsers -/

/-- What a parser leaves is a suffix of what it got. -/
class Steady (p : Parser α) : Prop where
  suffix : ∀ {s a r}, p s = .ok (a, r) → r <:+ s

namespace Steady

/-- A steady parser keeps what holds of all suffixes. -/
theorem ensures {p : Parser α} [hp : Steady p] {P : List Char → Prop}
    (hP : ∀ s r, P s → r <:+ s → P r) : Ensures P p fun _ => P :=
  fun s _ r hs h => hP s r hs (hp.suffix h)

theorem of_ensures {p : Parser α} (h : ∀ s₀, Ensures (· <:+ s₀) p fun _ => (· <:+ s₀)) : Steady p where
  suffix {s a r} hp := h s s a r (List.suffix_refl s) hp

theorem trans {s₀ s r : List Char} (hs : s <:+ s₀) (hr : r <:+ s) : r <:+ s₀ := hr.trans hs

instance (a : α) : Steady (pure a : Parser α) :=
  of_ensures fun _ => .pure fun _ h => h

instance {p : Parser α} {f : α → Parser β} [Steady p] [∀ a, Steady (f a)] : Steady (p >>= f) :=
  of_ensures fun _ => .bind (ensures fun _ _ => trans) fun _ => ensures fun _ _ => trans

theorem bind {p : Parser α} {f : α → Parser β} [Steady p] (hf : ∀ a, Steady (f a)) : Steady (p >>= f) :=
  inferInstance

instance {p : Parser α} (f : α → β) [Steady p] : Steady (f <$> p) :=
  inferInstanceAs (Steady (p >>= fun a => pure (f a)))

instance {c : Prop} [Decidable c] {p q : Parser α} [hp : Steady p] [hq : Steady q] :
    Steady (if c then p else q) := by
  split
  · exact hp
  · exact hq

instance : Steady here := of_ensures fun _ => .here fun _ h => h

instance (complaint : Complaint) : Steady (fail complaint : Parser α) := of_ensures fun _ => .fail

instance (complaint : Complaint) (place : List Char) : Steady (failAt complaint place : Parser α) :=
  of_ensures fun _ => .failAt

instance {p : Parser α} [Steady p] : Steady (attempt p) :=
  of_ensures fun _ => .attempt (ensures fun _ _ => trans) fun _ h => h

instance {p : Parser α} [Steady p] : Steady (accepts p) :=
  of_ensures fun _ => .accepts (ensures fun _ _ => trans) fun _ h => h

instance {step : Parser (α ⊕ β)} [Steady step] : Steady (collect step) :=
  of_ensures fun s₀ => .collect (I := fun _ => (· <:+ s₀)) fun _ s x r hs hx => by
    cases x <;> exact trans hs (suffix hx)

instance {item : Parser (Option α)} [Steady item] : Steady (many item) :=
  of_ensures fun s₀ => .many (I := fun _ => (· <:+ s₀)) (Q := fun _ => (· <:+ s₀)) fun _ s x r hs hx => by
    cases x <;> exact trans hs (suffix hx)

instance {item : Parser (Option α)} [Steady item] : Steady (turn item) := by
  unfold turn
  refine .bind fun o => ?_
  cases o <;> infer_instance

instance {separator : Parser Unit} {item : Parser α} [Steady separator] [Steady item] :
    Steady (behind separator item) := by
  unfold behind
  infer_instance

instance {separator : Parser Unit} {item : Parser α} [Steady separator] [Steady item] :
    Steady (sepBy1 separator item) := by
  unfold sepBy1
  infer_instance

end Steady

end SSALint.Source.Parser
