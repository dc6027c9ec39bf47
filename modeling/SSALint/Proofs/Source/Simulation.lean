/-
Simulation of parsers. `Simulates` says that what one parser reads from a text another one reads from a related text, up
to a view of the values, and leaves related texts; `Mirrors` says that it also fails where the first one fails, which
look-ahead depends on. There is a rule for each way to build parsers.
-/
import SSALint.Proofs.Source.Consumes
import SSALint.Proofs.Source.Reads

namespace SSALint.Source

theorem Fails.elim {α : Type} {p : Parser α} {s r : List Char} {a : α} (h : Fails p s) (hok : p s = .ok (a, r)) :
    False := by
  obtain ⟨e, he⟩ := h
  rw [he] at hok
  cases hok

theorem ok_or_fails {α : Type} (p : Parser α) (s : List Char) : (∃ a r, p s = .ok (a, r)) ∨ Fails p s := by
  cases h : p s with
  | error e => exact .inr ⟨e, h⟩
  | ok x => exact .inl ⟨x.1, x.2, rfl⟩

namespace Parser

variable {α β γ δ : Type} {P P' Q R : List Char → List Char → Prop}

/-- What `p` reads from a text, `p'` reads from a related one, as far as `view` tells. -/
def Simulates (P Q : List Char → List Char → Prop) (p p' : Parser α) (view : α → γ) : Prop :=
  ∀ s s' a r, P s s' → p s = .ok (a, r) → ∃ a' r', p' s' = .ok (a', r') ∧ view a = view a' ∧ Q r r'

/-- On related texts `p'` does what `p` does, be it to fail. -/
structure Mirrors (P Q : List Char → List Char → Prop) (p p' : Parser α) (view : α → γ) : Prop where
  simulates : Simulates P Q p p' view
  fails : ∀ s s', P s s' → Fails p s → Fails p' s'

/-! ## Simulation -/

namespace Simulates

theorem weaken {p p' : Parser α} {view : α → γ} (h : Simulates P Q p p' view) (hP : ∀ s s', P' s s' → P s s') :
    Simulates P' Q p p' view :=
  fun s s' a r hs hp => h s s' a r (hP s s' hs) hp

theorem pure {a a' : α} {view : α → γ} (h : view a = view a') (hP : ∀ s s', P s s' → Q s s') :
    Simulates P Q (pure a) (pure a') view := by
  intro s s' b r hs hp
  obtain ⟨rfl, rfl⟩ := pure_eq_ok_iff.1 hp
  exact ⟨a', s', rfl, h, hP s s' hs⟩

theorem value {a a' : α} {view : α → γ} (h : view a = view a') : Simulates P P (Pure.pure a) (Pure.pure a') view :=
  pure h fun _ _ hs => hs

theorem bind {p p' : Parser α} {view : α → γ} {f f' : α → Parser β} {view' : β → δ} (hp : Simulates P Q p p' view)
    (hf : ∀ a a', view a = view a' → Simulates Q R (f a) (f' a') view') :
    Simulates P R (p >>= f) (p' >>= f') view' := by
  intro s s' b u hs h
  obtain ⟨a, t, ha, hb⟩ := bind_eq_ok_iff.1 h
  obtain ⟨a', t', ha', hview, ht⟩ := hp s s' a t hs ha
  obtain ⟨b', u', hb', hview', hu⟩ := hf a a' hview t t' b u ht hb
  exact ⟨b', u', bind_eq_ok_iff.2 ⟨a', t', ha', hb'⟩, hview', hu⟩

/-- A value without places is the same in both runs. -/
theorem bind_same {p p' : Parser α} {f f' : α → Parser β} {view : β → δ} (hp : Simulates P Q p p' (id : α → α))
    (hf : ∀ a, Simulates Q R (f a) (f' a) view) : Simulates P R (p >>= f) (p' >>= f') view :=
  hp.bind fun a a' (h : a = a') => h ▸ hf a

/-- What was read is only handed on. -/
theorem map {p p' : Parser α} {view : α → γ} {f f' : α → β} {view' : β → δ} (hp : Simulates P Q p p' view)
    (hf : ∀ a a', view a = view a' → view' (f a) = view' (f' a')) :
    Simulates P Q (p >>= fun a => Pure.pure (f a)) (p' >>= fun a => Pure.pure (f' a)) view' :=
  hp.bind fun a a' h => value (hf a a' h)

theorem map_same {p p' : Parser α} {f f' : α → β} {view : β → δ} (hp : Simulates P Q p p' (id : α → α))
    (hf : ∀ a, view (f a) = view (f' a)) :
    Simulates P Q (p >>= fun a => Pure.pure (f a)) (p' >>= fun a => Pure.pure (f' a)) view :=
  hp.bind_same fun a => value (hf a)

theorem fail {complaint : Complaint} {p' : Parser α} {view : α → γ} : Simulates P Q (fail complaint) p' view := by
  intro s s' a r _ h
  cases h

theorem failAt {complaint : Complaint} {place : List Char} {p' : Parser α} {view : α → γ} :
    Simulates P Q (failAt complaint place) p' view := by
  intro s s' a r _ h
  cases h

theorem fail_bind {complaint : Complaint} {f : α → Parser β} {p' : Parser β} {view : β → γ} :
    Simulates P Q (Parser.fail complaint >>= f) p' view := by
  intro s s' b r _ h
  obtain ⟨a, t, ha, -⟩ := bind_eq_ok_iff.1 h
  cases ha

theorem failAt_bind {complaint : Complaint} {place : List Char} {f : α → Parser β} {p' : Parser β} {view : β → γ} :
    Simulates P Q (Parser.failAt complaint place >>= f) p' view := by
  intro s s' b r _ h
  obtain ⟨a, t, ha, -⟩ := bind_eq_ok_iff.1 h
  cases ha

theorem ite {c : Prop} [Decidable c] {p p' q q' : Parser α} {view : α → γ} (hp : Simulates P Q p p' view)
    (hq : Simulates P Q q q' view) : Simulates P Q (if c then p else q) (if c then p' else q') view := by
  split
  · exact hp
  · exact hq

/-- Places do not matter. -/
theorem here {f f' : List Char → Parser β} {view : β → δ} (h : ∀ u u', P u u' → Simulates P Q (f u) (f' u') view) :
    Simulates P Q (here >>= f) (here >>= f') view :=
  fun s s' b r hs hb => h s s' hs s s' b r hs hb

theorem attempt {p p' : Parser α} {view : α → γ} {f f' : Option α → Parser β} {view' : β → δ}
    (hp : Mirrors P R p p' view) (hsome : ∀ a a', view a = view a' → Simulates R Q (f (some a)) (f' (some a')) view')
    (hnone : Simulates P Q (f none) (f' none) view') : Simulates P Q (attempt p >>= f) (attempt p' >>= f') view' := by
  intro s s' b u hs h
  obtain ⟨o, t, ho, hb⟩ := bind_eq_ok_iff.1 h
  cases o with
  | some a =>
    obtain ⟨a', r', ha', hview, hr⟩ := hp.simulates s s' a t hs (attempt_eq_some_iff.1 ho)
    obtain ⟨b', u', hb', hview', hu⟩ := hsome a a' hview t r' b u hr hb
    exact ⟨b', u', bind_eq_ok_iff.2 ⟨some a', r', attempt_eq_some_iff.2 ha', hb'⟩, hview', hu⟩
  | none =>
    obtain ⟨rfl, hfails⟩ := attempt_eq_none_iff.1 ho
    obtain ⟨b', u', hb', hview', hu⟩ := hnone s s' b u hs hb
    have hfails' : Fails p' s' := hp.fails s s' hs hfails
    exact ⟨b', u', bind_eq_ok_iff.2 ⟨none, s', attempt_eq_none_iff.2 ⟨rfl, hfails'⟩, hb'⟩, hview', hu⟩

theorem attempt_same {p p' : Parser α} {f f' : Option α → Parser β} {view : β → δ}
    (hp : Mirrors P R p p' (id : α → α)) (hsome : ∀ a, Simulates R Q (f (some a)) (f' (some a)) view)
    (hnone : Simulates P Q (f none) (f' none) view) :
    Simulates P Q (Parser.attempt p >>= f) (Parser.attempt p' >>= f') view :=
  attempt hp (fun a a' (h : a = a') => h ▸ hsome a) hnone

theorem accepts {p p' : Parser α} {view : α → γ} {f f' : Bool → Parser β} {view' : β → δ}
    (hp : Mirrors P R p p' view) (htrue : Simulates R Q (f true) (f' true) view')
    (hfalse : Simulates P Q (f false) (f' false) view') :
    Simulates P Q (accepts p >>= f) (accepts p' >>= f') view' := by
  intro s s' b u hs h
  obtain ⟨c, t, hc, hb⟩ := bind_eq_ok_iff.1 h
  cases c with
  | true =>
    obtain ⟨a, ha⟩ := of_accepts_true hc
    obtain ⟨a', r', ha', -, hr⟩ := hp.simulates s s' a t hs ha
    obtain ⟨b', u', hb', hview, hu⟩ := htrue t r' b u hr hb
    exact ⟨b', u', bind_eq_ok_iff.2 ⟨true, r', accepts_of_ok ha', hb'⟩, hview, hu⟩
  | false =>
    -- The token may not have been rejected before one knows that it was not accepted.
    rcases ok_or_fails p s with ⟨a, r, ha⟩ | hfails
    · rw [accepts_of_ok ha] at hc
      cases hc
    · obtain rfl := of_accepts_false hc
      obtain ⟨e', he'⟩ := hp.fails s s' hs hfails
      obtain ⟨b', u', hb', hview, hu⟩ := hfalse s s' b u hs hb
      exact ⟨b', u', bind_eq_ok_iff.2 ⟨false, s', accepts_of_error he', hb'⟩, hview, hu⟩

/-- Turn by turn a repetition simulates another one, provided that the turns of that one advance. -/
theorem collect {turn turn' : Parser (α ⊕ β)} {f : α → γ} {g : β → δ} (hadvances : Advances turn')
    (h : Simulates R R turn turn' (Sum.map f g)) :
    Simulates R R (collect turn) (collect turn') (Prod.map (List.map f) g) := by
  intro s s' x r hs hx
  -- The induction follows the first run; of the second one a turn is unrolled at a time, without its guard.
  rw [collect_eq_next hadvances]
  fun_induction Parser.collect turn s generalizing s' x r with
  | case1 s e he => cases hx
  | case2 s b t hb =>
    cases hx
    obtain ⟨y, r', hy, hview, hr⟩ := h s s' _ _ hs hb
    cases y with
    | inl a' => cases hview
    | inr b' => exact ⟨([], b'), r', bind_eq_ok_iff.2 ⟨_, r', hy, rfl⟩, congrArg (Prod.mk []) (Sum.inr.inj hview), hr⟩
  | case3 s a t ha hlt e he ih => cases hx
  | case4 s a t ha hlt others b u hu ih =>
    cases hx
    obtain ⟨y, t', hy, hview, ht⟩ := h s s' _ _ hs ha
    cases y with
    | inr b' => cases hview
    | inl a' =>
      obtain ⟨⟨others', b'⟩, u', hothers, hviews, hu'⟩ := ih t' _ _ ht hu
      rw [← collect_eq_next hadvances] at hothers
      refine ⟨(a' :: others', b'), u', bind_eq_ok_iff.2 ⟨_, t', hy, bind_eq_ok_iff.2 ⟨_, u', hothers, rfl⟩⟩, ?_, hu'⟩
      obtain ⟨has, hb⟩ := Prod.mk.inj hviews
      exact congrArg₂ Prod.mk (congrArg₂ List.cons (Sum.inl.inj hview) has) hb
  | case5 s a t ha hlt => cases hx

theorem turn {item item' : Parser (Option α)} {f : α → γ} (h : Simulates P R item item' (Option.map f)) :
    Simulates P R (turn item) (turn item') (Sum.map f (id : Unit → Unit)) := by
  refine h.bind fun o o' hview => ?_
  cases o with
  | none =>
    cases o' with
    | none => exact value rfl
    | some a' => cases hview
  | some a =>
    cases o' with
    | none => cases hview
    | some a' => exact value (congrArg Sum.inl (Option.some.inj hview))

theorem many {item item' : Parser (Option α)} {f : α → γ} (hadvances : Advances (Parser.turn item'))
    (h : Simulates R R item item' (Option.map f)) : Simulates R R (many item) (many item') (List.map f) := by
  unfold Parser.many
  exact (collect hadvances h.turn).map fun x x' hview => (Prod.mk.inj hview).1

theorem behind {separator : Parser Unit} {item item' : Parser α} {f : α → γ}
    (hseparator : Mirrors R R separator separator (id : Unit → Unit)) (h : Simulates R R item item' f) :
    Simulates R R (behind separator item) (behind separator item') (Option.map f) :=
  accepts hseparator (h.map fun _ _ hview => congrArg some hview) (value rfl)

theorem sepBy1 {separator : Parser Unit} {item item' : Parser α} {f : α → γ} [Steady separator] [Steady item']
    [Consumes item'] (hseparator : Mirrors R R separator separator (id : Unit → Unit))
    (h : Simulates R R item item' f) :
    Simulates R R (sepBy1 separator item) (sepBy1 separator item') (List.map f) := by
  unfold Parser.sepBy1
  refine h.bind fun first first' hfirst => ?_
  exact (many advances_behind (behind hseparator h)).map fun _ _ hothers => congrArg₂ List.cons hfirst hothers

end Simulates

/-! ## Failure -/

namespace Mirrors

theorem weaken {p p' : Parser α} {view : α → γ} (h : Mirrors P Q p p' view) (hP : ∀ s s', P' s s' → P s s') :
    Mirrors P' Q p p' view :=
  ⟨h.simulates.weaken hP, fun s s' hs => h.fails s s' (hP s s' hs)⟩

theorem value {a a' : α} {view : α → γ} (h : view a = view a') : Mirrors P P (pure a) (pure a') view where
  simulates := .value h
  fails _ _ _ hp := (hp.elim rfl).elim

theorem fail {complaint : Complaint} {view : α → γ} :
    Mirrors P Q (fail complaint : Parser α) (fail complaint) view where
  simulates := .fail
  fails _ _ _ _ := ⟨_, rfl⟩

theorem bind {p p' : Parser α} {view : α → γ} {f f' : α → Parser β} {view' : β → δ} (hp : Mirrors P Q p p' view)
    (hf : ∀ a a', view a = view a' → Mirrors Q R (f a) (f' a') view') :
    Mirrors P R (p >>= f) (p' >>= f') view' where
  simulates := hp.simulates.bind fun a a' h => (hf a a' h).simulates
  fails s s' hs h := by
    -- Either the first part fails in both runs, or it leaves related texts and the second part does.
    rcases ok_or_fails p s with ⟨a, t, ha⟩ | hfails
    · obtain ⟨a', t', ha', hview, ht⟩ := hp.simulates s s' a t hs ha
      have hbehind : Fails (f a) t := by
        obtain ⟨e, he⟩ := h
        refine ⟨e, ?_⟩
        rw [← he]
        show _ = p s >>= _
        rw [ha]
        rfl
      obtain ⟨e', he'⟩ := (hf a a' hview).fails t t' ht hbehind
      refine ⟨e', ?_⟩
      show p' s' >>= _ = _
      rw [ha']
      exact he'
    · exact (hp.fails s s' hs hfails).bind f'

theorem bind_same {p p' : Parser α} {f f' : α → Parser β} {view : β → δ} (hp : Mirrors P Q p p' (id : α → α))
    (hf : ∀ a, Mirrors Q R (f a) (f' a) view) : Mirrors P R (p >>= f) (p' >>= f') view :=
  hp.bind fun a a' (h : a = a') => h ▸ hf a

theorem map {p p' : Parser α} {view : α → γ} {f f' : α → β} {view' : β → δ} (hp : Mirrors P Q p p' view)
    (hf : ∀ a a', view a = view a' → view' (f a) = view' (f' a')) :
    Mirrors P Q (p >>= fun a => pure (f a)) (p' >>= fun a => pure (f' a)) view' :=
  hp.bind fun a a' h => value (hf a a' h)

theorem here {f f' : List Char → Parser β} {view : β → δ} (h : ∀ u u', P u u' → Mirrors P Q (f u) (f' u') view) :
    Mirrors P Q (here >>= f) (here >>= f') view where
  simulates := .here fun u u' hu => (h u u' hu).simulates
  fails s s' hs := (h s s' hs).fails s s' hs

end Mirrors
end Parser

end SSALint.Source
