/-
Parsers that consume. A parser consumes if it leaves less text than it got; a turn of a repetition advances if it
consumes whenever the repetition is to go on, and then the repetition never meets its guard (`collect_eq_next`).
Two parsers that agree on a text and on all its suffixes are the same there, however they are composed.
-/
import SSALint.Proofs.Source.Parser
import SSALint.Proofs.Source.Steady

namespace SSALint.Source

namespace Parser

variable {α β γ : Type}

/-! ## Look-ahead -/

theorem of_accepts_true {p : Parser α} {s t : List Char} (h : accepts p s = .ok (true, t)) :
    ∃ a, p s = .ok (a, t) := by
  obtain ⟨o, u, ho, hr⟩ := bind_eq_ok_iff.1 h
  obtain ⟨hsome, rfl⟩ := pure_eq_ok_iff.1 hr
  obtain ⟨a, rfl⟩ := Option.isSome_iff_exists.1 hsome
  exact ⟨a, attempt_eq_some_iff.1 ho⟩

theorem of_accepts_false {p : Parser α} {s t : List Char} (h : accepts p s = .ok (false, t)) : s = t := by
  obtain ⟨o, u, ho, hr⟩ := bind_eq_ok_iff.1 h
  obtain ⟨hnone, rfl⟩ := pure_eq_ok_iff.1 hr
  cases o with
  | some a => cases hnone
  | none => exact (attempt_eq_none_iff.1 ho).1

theorem accepts_of_ok {p : Parser α} {s t : List Char} {a : α} (h : p s = .ok (a, t)) :
    accepts p s = .ok (true, t) :=
  bind_eq_ok_iff.2 ⟨some a, t, attempt_eq_some_iff.2 h, rfl⟩

theorem accepts_of_error {p : Parser α} {s : List Char} {e : Failure} (h : p s = .error e) :
    accepts p s = .ok (false, s) :=
  bind_eq_ok_iff.2 ⟨none, s, attempt_eq_none_iff.2 ⟨rfl, e, h⟩, rfl⟩

/-! ## Parsers that consume -/

/-- A parser that succeeds leaves less text than it got. -/
class Consumes (p : Parser α) : Prop where
  lt : ∀ {s a r}, p s = .ok (a, r) → r.length < s.length

namespace Consumes

instance (complaint : Complaint) : Consumes (fail complaint : Parser α) := ⟨nofun⟩

instance left {p : Parser α} {f : α → Parser β} [hp : Consumes p] [∀ a, Steady (f a)] : Consumes (p >>= f) where
  lt h := by
    obtain ⟨a, t, ha, hb⟩ := bind_eq_ok_iff.1 h
    exact Nat.lt_of_le_of_lt (Steady.suffix hb).length_le (hp.lt ha)

instance right {p : Parser α} {f : α → Parser β} [Steady p] [hf : ∀ a, Consumes (f a)] : Consumes (p >>= f) where
  lt h := by
    obtain ⟨a, t, ha, hb⟩ := bind_eq_ok_iff.1 h
    exact Nat.lt_of_lt_of_le ((hf a).lt hb) (Steady.suffix ha).length_le

instance {p : Parser α} (f : α → β) [Consumes p] : Consumes (f <$> p) :=
  inferInstanceAs (Consumes (p >>= fun a => pure (f a)))

instance {c : Prop} [Decidable c] {p q : Parser α} [hp : Consumes p] [hq : Consumes q] :
    Consumes (if c then p else q) := by
  split
  · exact hp
  · exact hq

theorem right_of {p : Parser α} {f : α → Parser β} [Steady p] (hf : ∀ a, Consumes (f a)) : Consumes (p >>= f) :=
  inferInstance

/-- Where an attempt fails, something behind it has to consume. -/
theorem attempt {p : Parser α} {f : Option α → Parser β} [hp : Consumes p] (hsome : ∀ a, Steady (f (some a)))
    (hnone : Consumes (f none)) : Consumes (attempt p >>= f) where
  lt {s b r} h := by
    obtain ⟨o, t, ho, hb⟩ := bind_eq_ok_iff.1 h
    cases o with
    | some a => exact Nat.lt_of_le_of_lt ((hsome a).suffix hb).length_le (hp.lt (attempt_eq_some_iff.1 ho))
    | none =>
      obtain ⟨rfl, -⟩ := attempt_eq_none_iff.1 ho
      exact hnone.lt hb

theorem accepts {p : Parser α} {f : Bool → Parser β} [hp : Consumes p] (htrue : Steady (f true))
    (hfalse : Consumes (f false)) : Consumes (accepts p >>= f) where
  lt {s b r} h := by
    obtain ⟨c, t, hc, hb⟩ := bind_eq_ok_iff.1 h
    cases c with
    | true =>
      obtain ⟨a, ha⟩ := of_accepts_true hc
      exact Nat.lt_of_le_of_lt (htrue.suffix hb).length_le (hp.lt ha)
    | false =>
      obtain rfl := of_accepts_false hc
      exact hfalse.lt hb

end Consumes

/-! ## Repetitions -/

/-- A turn of a repetition that goes on leaves a shorter suffix of its text. -/
def Advances (turn : Parser (α ⊕ β)) : Prop :=
  ∀ s a r, turn s = .ok (.inl a, r) → r <:+ s ∧ r.length < s.length

theorem Consumes.advances {turn : Parser (α ⊕ β)} [hs : Steady turn] [hc : Consumes turn] : Advances turn :=
  fun _ _ _ h => ⟨hs.suffix h, hc.lt h⟩

/-- The outcome of a repetition by its first turn and what `others` makes of the rest; no progress is asked for. -/
def next (turn : Parser (α ⊕ β)) (others : Parser (List α × β)) : Parser (List α × β) := do
  match ← turn with
  | .inr b => return ([], b)
  | .inl a =>
    let (as, b) ← others
    return (a :: as, b)

/-- A repetition whose turns advance never meets the guard of repetitions. -/
theorem collect_eq_next {turn : Parser (α ⊕ β)} (h : Advances turn) : collect turn = next turn (collect turn) := by
  funext s
  show collect turn s = turn s >>= _
  rw [collect]
  cases hturn : turn s with
  | error e => rfl
  | ok x =>
    obtain ⟨_ | b, r⟩ := x
    · rename_i a
      -- The guard asks for no more than what every turn does.
      show (if r.length < s.length then _ else _) = collect turn r >>= _
      rw [if_pos (h s a r hturn).2]
      cases collect turn r <;> rfl
    · rfl

theorem advances_pure {b : β} : Advances (pure (.inr b) : Parser (α ⊕ β)) := by
  intro s a r h
  cases (pure_eq_ok_iff.1 h).1

theorem advances_accepts {p : Parser γ} [hs : Steady p] [hc : Consumes p] {a : α} {q : Parser (α ⊕ β)}
    (hq : Advances q) : Advances (do if ← accepts p then return .inl a else q) := by
  intro s x r h
  obtain ⟨b, t, hb, h⟩ := bind_eq_ok_iff.1 h
  cases b with
  | true =>
    obtain ⟨-, rfl⟩ := pure_eq_ok_iff.1 h
    obtain ⟨y, hy⟩ := of_accepts_true hb
    exact ⟨hs.suffix hy, hc.lt hy⟩
  | false =>
    obtain rfl := of_accepts_false hb
    exact hq s x r h

theorem turn_inl_iff {item : Parser (Option α)} {s r : List Char} {a : α} :
    turn item s = .ok (.inl a, r) ↔ item s = .ok (some a, r) := by
  constructor
  · intro h
    obtain ⟨o, t, ho, hr⟩ := bind_eq_ok_iff.1 h
    cases o with
    | none => cases (pure_eq_ok_iff.1 hr).1
    | some b =>
      obtain ⟨hb, rfl⟩ := pure_eq_ok_iff.1 hr
      cases hb
      exact ho
  · exact fun h => bind_eq_ok_iff.2 ⟨some a, r, h, rfl⟩

theorem turn_inr_iff {item : Parser (Option α)} {s r : List Char} :
    turn item s = .ok (.inr (), r) ↔ item s = .ok (none, r) := by
  constructor
  · intro h
    obtain ⟨o, t, ho, hr⟩ := bind_eq_ok_iff.1 h
    cases o with
    | some b => cases (pure_eq_ok_iff.1 hr).1
    | none =>
      obtain ⟨-, rfl⟩ := pure_eq_ok_iff.1 hr
      exact ho
  · exact fun h => bind_eq_ok_iff.2 ⟨none, r, h, rfl⟩

theorem advances_turn {item : Parser (Option α)}
    (h : ∀ {s a r}, item s = .ok (some a, r) → r <:+ s ∧ r.length < s.length) : Advances (turn item) :=
  fun _ _ _ hturn => h (turn_inl_iff.1 hturn)

theorem many_eq_ok_iff {item : Parser (Option α)} {s r : List Char} {as : List α} :
    many item s = .ok (as, r) ↔ collect (turn item) s = .ok ((as, ()), r) := by
  unfold many
  constructor
  · intro h
    obtain ⟨⟨bs, ⟨⟩⟩, t, hbs, h⟩ := bind_eq_ok_iff.1 h
    obtain ⟨rfl, rfl⟩ := pure_eq_ok_iff.1 h
    exact hbs
  · exact fun h => bind_eq_ok_iff.2 ⟨_, r, h, rfl⟩

/-- A repetition that advances is over where there is no item. -/
theorem many_nil_iff {item : Parser (Option α)} (hadvances : Advances (turn item)) {s r : List Char} :
    many item s = .ok ([], r) ↔ item s = .ok (none, r) := by
  rw [many_eq_ok_iff, collect_eq_next hadvances]
  constructor
  · intro h
    obtain ⟨x, t, hx, h⟩ := bind_eq_ok_iff.1 h
    cases x with
    | inl a =>
      obtain ⟨y, u, -, h⟩ := bind_eq_ok_iff.1 h
      cases (pure_eq_ok_iff.1 h).1
    | inr b =>
      obtain ⟨-, rfl⟩ := pure_eq_ok_iff.1 h
      exact turn_inr_iff.1 hx
  · exact fun h => bind_eq_ok_iff.2 ⟨_, r, turn_inr_iff.2 h, rfl⟩

/-- A repetition that advances goes on behind its first item. -/
theorem many_cons_iff {item : Parser (Option α)} (hadvances : Advances (turn item)) {s r : List Char} {a : α}
    {as : List α} :
    many item s = .ok (a :: as, r) ↔ ∃ t, item s = .ok (some a, t) ∧ many item t = .ok (as, r) := by
  simp only [many_eq_ok_iff]
  constructor
  · intro h
    rw [collect_eq_next hadvances] at h
    obtain ⟨x, t, hx, h⟩ := bind_eq_ok_iff.1 h
    cases x with
    | inl b =>
      obtain ⟨⟨bs, ⟨⟩⟩, u, hbs, h⟩ := bind_eq_ok_iff.1 h
      obtain ⟨hcons, rfl⟩ := pure_eq_ok_iff.1 h
      cases hcons
      exact ⟨t, turn_inl_iff.1 hx, hbs⟩
    | inr b => cases (pure_eq_ok_iff.1 h).1
  · rintro ⟨t, ha, has⟩
    rw [collect_eq_next hadvances]
    exact bind_eq_ok_iff.2 ⟨_, t, turn_inl_iff.2 ha, bind_eq_ok_iff.2 ⟨_, r, has, rfl⟩⟩

theorem advances_turn_right {p : Parser γ} {f : γ → Parser (Option α)} [hp : Steady p]
    (hf : ∀ c, Advances (turn (f c))) : Advances (turn (p >>= f)) := by
  refine advances_turn fun {s a r} h => ?_
  obtain ⟨c, t, hc, hitem⟩ := bind_eq_ok_iff.1 h
  have ht : t <:+ s := hp.suffix hc
  obtain ⟨hr, hlt⟩ := hf c t a r (turn_inl_iff.2 hitem)
  exact ⟨hr.trans ht, Nat.lt_of_lt_of_le hlt ht.length_le⟩

theorem Consumes.advances_turn {item : Parser (Option α)} [hs : Steady item] [hc : Consumes item] :
    Advances (turn item) :=
  Parser.advances_turn fun h => ⟨hs.suffix h, hc.lt h⟩

/-- A turn that goes on only behind a separator advances if what stands behind the separator consumes. -/
theorem advances_behind_if {separator : Parser Unit} {item : Parser (Option α)} [hs : Steady separator]
    [hi : Steady item] [hc : Consumes item] :
    Advances (turn do if ← accepts separator then item else return none) := by
  refine advances_turn fun {s a r} h => ?_
  obtain ⟨b, t, hb, h⟩ := bind_eq_ok_iff.1 h
  have ht : t <:+ s := Steady.suffix hb
  cases b with
  | false => cases (pure_eq_ok_iff.1 h).1
  | true => exact ⟨(hi.suffix h).trans ht, Nat.lt_of_lt_of_le (hc.lt h) ht.length_le⟩

theorem advances_behind {separator : Parser Unit} {item : Parser α} [Steady separator] [Steady item]
    [Consumes item] : Advances (turn (behind separator item)) := by
  have hsome : Consumes (some <$> item) := inferInstance
  exact @advances_behind_if _ _ (some <$> item) _ _ hsome

/-! ## Agreement -/

/-- Two parsers do the same on a text and on all that may be left of it. -/
def AgreeOn (s : List Char) (p q : Parser α) : Prop := ∀ t, t <:+ s → p t = q t

namespace AgreeOn

variable {s : List Char} {p p' : Parser α}

theorem refl : AgreeOn s p p := fun _ _ => rfl

theorem bind {f f' : α → Parser β} [Steady p] (hp : AgreeOn s p p') (hf : ∀ a, AgreeOn s (f a) (f' a)) :
    AgreeOn s (p >>= f) (p' >>= f') := by
  intro t ht
  show p t >>= _ = p' t >>= _
  rw [← hp t ht]
  cases hpt : p t with
  | error e => rfl
  | ok x => exact hf x.1 x.2 ((Steady.suffix hpt).trans ht)

theorem collect {turn turn' : Parser (α ⊕ β)} [Steady turn] (h : AgreeOn s turn turn') :
    AgreeOn s (collect turn) (collect turn') := by
  intro t ht
  -- What a turn leaves is a suffix of `s` again, so that the hypothesis serves all turns.
  fun_induction Parser.collect turn t with
  | case1 t e he => rw [Parser.collect, ← h t ht, he]
  | case2 t b r hb => rw [Parser.collect, ← h t ht, hb]
  | case3 t a r ha hlt e he ih =>
    have ih := ih ((Steady.suffix ha).trans ht)
    rw [Parser.collect, ← h t ht, ha]
    simp only [if_pos hlt, ← ih, he]
  | case4 t a r ha hlt others b u hu ih =>
    have ih := ih ((Steady.suffix ha).trans ht)
    rw [Parser.collect, ← h t ht, ha]
    simp only [if_pos hlt, ← ih, hu]
  | case5 t a r ha hlt =>
    rw [Parser.collect, ← h t ht, ha]
    simp only [if_neg hlt]

theorem many {item item' : Parser (Option α)} [Steady item] (h : AgreeOn s item item') :
    AgreeOn s (many item) (many item') := by
  have hturn : AgreeOn s (turn item) (turn item') := bind h fun _ => refl
  exact bind (collect hturn) fun _ => refl

theorem sepBy1 {separator : Parser Unit} [Steady separator] [Steady p] (h : AgreeOn s p p') :
    AgreeOn s (sepBy1 separator p) (sepBy1 separator p') := by
  have hbehind : AgreeOn s (behind separator p) (behind separator p') := by
    refine bind refl fun more => ?_
    cases more
    · exact refl
    · exact bind h fun _ => refl
  exact bind h fun first => bind (many hbehind) fun _ => refl

end AgreeOn

/-- Behind something that consumes only shorter texts matter. -/
theorem accepts_congr {p : Parser α} [Steady p] [Consumes p] {s : List Char} {q q' r r' : Parser β}
    (hthen : ∀ t, t <:+ s → t.length < s.length → q t = q' t) (helse : r s = r' s) :
    (do if ← accepts p then q else r) s = (do if ← accepts p then q' else r') s := by
  show accepts p s >>= _ = accepts p s >>= _
  cases hp : p s with
  | error e =>
    rw [accepts_of_error hp]
    exact helse
  | ok x =>
    rw [accepts_of_ok hp]
    exact hthen x.2 (Steady.suffix hp) (Consumes.lt hp)

end Parser

end SSALint.Source
