/-
Texts that are read alike. Any relation between texts that is kept from character to character and across blanks
(`Alike`) is kept by the tokens. Where the first text ends the second one may go on with items, so that a token may be
looked for anywhere only if no item begins with it (`IsInner`), and any token where there is one (`Firm`).
-/
import SSALint.Proofs.Source.Places
import SSALint.Proofs.Source.Simulation
import SSALint.Proofs.Source.Unresolved

namespace SSALint.Source

/-! ## Texts alike -/

/-- A text that is at its end or goes on with a blank or a comment. -/
def Separated (s : List Char) : Prop := ∀ c ∈ s.head?, ¬ IsVisible c

theorem Separated.head?_any {s : List Char} (h : Separated s) {p : Char → Bool}
    (hp : ∀ c, p c = true → IsVisible c) : s.head?.any p = false := by
  rw [Option.any_eq_false]
  intro c hc
  rw [Bool.eq_false_iff]
  exact fun hpc => h c hc (hp c hpc)

theorem Separated.dropWord? {s : List Char} (h : Separated s) {w : Char} (hw : IsVisible w) (word : List Char) :
    dropWord? (w :: word) s = none :=
  dropWord?_of_head fun hhead => h w hhead hw

theorem Separated.takeWhile {s : List Char} (h : Separated s) {p : Char → Bool}
    (hp : ∀ c, p c = true → IsVisible c) : s.takeWhile p = [] ∧ s.dropWhile p = s := by
  cases s with
  | nil => exact ⟨rfl, rfl⟩
  | cons c s =>
    have hc : ¬ p c = true := fun hpc => h c rfl (hp c hpc)
    exact ⟨List.takeWhile_cons_of_neg hc, List.dropWhile_cons_of_neg hc⟩

/-- Where no token stands any more there may be the beginning of another item. -/
def Opens (s : List Char) : Prop := ∀ c ∈ s.head?, c = '@' ∨ c = 'd'

/-- A relation between texts that have the same tokens, except that the second one may go on with items where the
first one ends. -/
class Alike (R : List Char → List Char → Prop) : Prop where
  head : ∀ {s s'}, R s s' →
    (∃ c t t', IsVisible c ∧ s = c :: t ∧ s' = c :: t' ∧ R t t') ∨ Separated s ∧ Separated s'
  blanks : ∀ {s s'}, R s s' →
    R (skipBlanks s) (skipBlanks s') ∨ skipBlanks s = [] ∧ Opens (skipBlanks s')

/-- Related texts at a token. -/
def Firm (R : List Char → List Char → Prop) (s s' : List Char) : Prop := R s s' ∧ Shows s

theorem skipBlanks_shows (s : List Char) : skipBlanks s = [] ∨ Shows (skipBlanks s) := by
  cases h : skipBlanks s with
  | nil => exact .inl rfl
  | cons c t =>
    refine .inr ⟨c, t, rfl, ?_⟩
    have hskip : skipBlanks (c :: t) = c :: t := by
      rw [← h]
      exact skipBlanks_skipBlanks s
    -- What is passed over is not left.
    have hlength : ∀ u, (skipBlanks u).length ≤ u.length ∧ (skipComment u).length ≤ u.length := fun u =>
      ⟨(skipBlanks_suffix u).length_le, (skipComment_suffix u).length_le⟩
    constructor
    · rw [Bool.eq_false_iff]
      intro hblank
      rw [skipBlanks_blank hblank] at hskip
      have := (hlength t).1
      rw [hskip, List.length_cons] at this
      omega
    · rintro rfl
      have hcomment : skipComment t = ';' :: t := hskip
      have := (hlength t).2
      rw [hcomment, List.length_cons] at this
      omega

namespace Alike

variable {R : List Char → List Char → Prop} [Alike R] {s s' : List Char}

theorem nil_left (h : R [] s') : Separated s' := by
  rcases head h with ⟨c, t, t', -, hs, -, -⟩ | ⟨-, hs'⟩
  · cases hs
  · exact hs'

theorem firm (h : Firm R s s') : ∃ c t t', IsVisible c ∧ s = c :: t ∧ s' = c :: t' ∧ R t t' := by
  obtain ⟨h, c, t, rfl, hc⟩ := h
  refine (head h).resolve_right ?_
  rintro ⟨hseparated, -⟩
  exact hseparated c rfl hc

theorem skipBlanks_right (h : Firm R s s') : skipBlanks s' = s' := by
  obtain ⟨c, t, t', hc, -, rfl, -⟩ := firm h
  exact hc.skipBlanks t'

/-- A class of visible characters is at the front of both texts or of none. -/
theorem head?_any {p : Char → Bool} (hp : ∀ c, p c = true → IsVisible c) (h : R s s') :
    s.head?.any p = s'.head?.any p := by
  rcases head h with ⟨c, t, t', -, rfl, rfl, -⟩ | ⟨hs, hs'⟩
  · rfl
  · rw [hs.head?_any hp, hs'.head?_any hp]

theorem dropWord? {word : List Char} (hword : ∀ c ∈ word, IsVisible c) (h : R s s') :
    (∃ r r', dropWord? word s = some r ∧ dropWord? word s' = some r' ∧ R r r') ∨
      Source.dropWord? word s = none ∧ Source.dropWord? word s' = none := by
  induction word generalizing s s' with
  | nil => exact .inl ⟨s, s', rfl, rfl, h⟩
  | cons w word ih =>
    obtain ⟨hw, hword⟩ := List.forall_mem_cons.1 hword
    rcases head h with ⟨c, t, t', -, rfl, rfl, ht⟩ | ⟨hs, hs'⟩
    · by_cases hc : w = c
      · simpa only [Source.dropWord?, if_pos hc] using ih hword ht
      · exact .inr ⟨if_neg hc, if_neg hc⟩
    · exact .inr ⟨hs.dropWord? hw word, hs'.dropWord? hw word⟩

theorem takeWhile {p : Char → Bool} (hp : ∀ c, p c = true → IsVisible c) (h : R s s') :
    s.takeWhile p = s'.takeWhile p ∧ R (s.dropWhile p) (s'.dropWhile p) := by
  have hseparated : ∀ {s s'}, R s s' → Separated s → Separated s' →
      s.takeWhile p = s'.takeWhile p ∧ R (s.dropWhile p) (s'.dropWhile p) := by
    intro s s' h hs hs'
    rw [(hs.takeWhile hp).1, (hs.takeWhile hp).2, (hs'.takeWhile hp).1, (hs'.takeWhile hp).2]
    exact ⟨rfl, h⟩
  -- The run goes on in both texts or ends in both: at the same character, or where both are separated.
  induction s generalizing s' with
  | nil => exact hseparated h nofun (nil_left h)
  | cons c t ih =>
    rcases head h with ⟨d, u, t', -, heq, rfl, ht⟩ | ⟨hs, hs'⟩
    · cases heq
      by_cases hc : p c = true
      · rw [List.takeWhile_cons_of_pos hc, List.takeWhile_cons_of_pos hc, List.dropWhile_cons_of_pos hc,
          List.dropWhile_cons_of_pos hc]
        exact ⟨congrArg (c :: ·) (ih ht).1, (ih ht).2⟩
      · rw [List.takeWhile_cons_of_neg hc, List.takeWhile_cons_of_neg hc, List.dropWhile_cons_of_neg hc,
          List.dropWhile_cons_of_neg hc]
        exact ⟨rfl, h⟩
    · exact hseparated h hs hs'

end Alike

section
variable {α β γ : Type} {Q R : List Char → List Char → Prop}

theorem Parser.Simulates.firm {p p' : Parser α} {view : α → γ} (h : Parser.Simulates R Q p p' view) :
    Parser.Simulates (Firm R) Q p p' view :=
  h.weaken fun _ _ hs => hs.1

theorem Parser.Mirrors.firm {p p' : Parser α} {view : α → γ} (h : Parser.Mirrors R Q p p' view) :
    Parser.Mirrors (Firm R) Q p p' view :=
  h.weaken fun _ _ hs => hs.1

variable [Alike R]

/-! ## Blanks -/

/-- A parser that fails at the end of the text begins at a token. -/
theorem Parser.Simulates.blanks {p p' : Parser α} {view : α → γ} (hend : Fails p [])
    (h : Parser.Simulates (Firm R) Q p p' view) :
    Parser.Simulates R Q (blanks >>= fun _ => p) (blanks >>= fun _ => p') view := by
  intro s s' a r hs hp
  have hshows : Shows (skipBlanks s) := by
    refine (skipBlanks_shows s).resolve_left fun hnil => ?_
    have hp : p (skipBlanks s) = .ok (a, r) := hp
    rw [hnil] at hp
    exact hend.elim hp
  rcases Alike.blanks hs with hs | ⟨hnil, -⟩
  · exact h _ _ a r ⟨hs, hshows⟩ hp
  · obtain ⟨c, t, hc, -⟩ := hshows
    rw [hnil] at hc
    cases hc

/-- At a token no blanks are passed over. -/
theorem Parser.Mirrors.blanks_firm {p p' : Parser α} {view : α → γ} (h : Parser.Mirrors (Firm R) Q p p' view) :
    Parser.Mirrors (Firm R) Q (blanks >>= fun _ => p) (blanks >>= fun _ => p') view where
  simulates s s' a r hs hp := by
    have hp : p (skipBlanks s) = .ok (a, r) := hp
    rw [hs.2.skipBlanks] at hp
    show ∃ a' r', p' (skipBlanks s') = _ ∧ _
    rw [Alike.skipBlanks_right hs]
    exact h.simulates s s' a r hs hp
  fails s s' hs hp := by
    have hp : Fails p (skipBlanks s) := hp
    rw [hs.2.skipBlanks] at hp
    show Fails p' (skipBlanks s')
    rw [Alike.skipBlanks_right hs]
    exact h.fails s s' hs hp

/-- A token that cannot begin an item may be looked for anywhere. -/
theorem Parser.Mirrors.blanks {p p' : Parser α} {view : α → γ} (hend : Fails p [])
    (hopens : ∀ s, Opens s → Fails p' s) (h : Parser.Mirrors R Q p p' view) :
    Parser.Mirrors R Q (blanks >>= fun _ => p) (blanks >>= fun _ => p') view where
  simulates := .blanks hend h.simulates.firm
  fails s s' hs hp := by
    rcases Alike.blanks hs with hs | ⟨-, hs'⟩
    · exact h.fails _ _ hs hp
    · exact hopens _ hs'

/-! ## Tokens -/

/-- Characters none of which separates tokens. -/
def Solid (cs : List Char) : Prop := (cs.all fun c => decide (IsVisible c)) = true

instance (cs : List Char) : Decidable (Solid cs) := inferInstanceAs (Decidable (_ = true))

theorem Solid.visible {cs : List Char} (h : Solid cs) : ∀ c ∈ cs, IsVisible c :=
  fun c hc => of_decide_eq_true (List.all_eq_true.1 h c hc)

/-- A fixed token without separators in it that no item begins with. -/
def IsInner (text : String) : Prop :=
  Solid text.toList ∧ (text.toList.head?.any fun c => c != '@' && c != 'd') = true

instance (text : String) : Decidable (IsInner text) := inferInstanceAs (Decidable (_ ∧ _))

theorem IsInner.fails {text : String} (h : IsInner text) {s : List Char} (hs : Opens s) : Fails (exactly text) s := by
  apply fails_exactly
  obtain ⟨-, hhead⟩ := h
  cases htext : text.toList with
  | nil =>
    rw [htext] at hhead
    cases hhead
  | cons c word =>
    rw [htext] at hhead
    refine dropWord?_of_head fun hc => ?_
    rcases hs c hc with rfl | rfl <;> exact absurd hhead Bool.false_ne_true

theorem opens_nil : Opens [] := nofun

theorem mirrors_exactly {text : String} (h : Solid text.toList) :
    Parser.Mirrors R R (exactly text) (exactly text) (id : Unit → Unit) where
  simulates s s' a r hs hp := by
    unfold exactly at hp ⊢
    rcases Alike.dropWord? h.visible hs with ⟨t, t', ht, ht', hr⟩ | ⟨hnone, -⟩
    · rw [ht] at hp
      cases hp
      rw [ht']
      exact ⟨(), t', rfl, rfl, hr⟩
    · rw [hnone] at hp
      cases hp
  fails s s' hs hp := by
    rcases Alike.dropWord? h.visible hs with ⟨t, t', ht, -⟩ | ⟨-, hnone⟩
    · unfold Fails exactly at hp
      rw [ht] at hp
      obtain ⟨e, he⟩ := hp
      cases he
    · exact fails_exactly hnone

theorem mirrors_sign {text : String} (h : IsInner text) :
    Parser.Mirrors R R (sign text) (sign text) (id : Unit → Unit) :=
  .blanks (h.fails opens_nil) (fun _ => h.fails) (mirrors_exactly h.1)

theorem simulates_sign {text : String} (h : IsInner text) :
    Parser.Simulates R R (sign text) (sign text) (id : Unit → Unit) :=
  (mirrors_sign h).simulates

/-- A word ends in one text if it does in the other. -/
theorem mirrors_wordEnd : Parser.Mirrors R R wordEnd wordEnd (id : Unit → Unit) := by
  unfold wordEnd
  refine .here fun u u' hu => ?_
  rw [Alike.head?_any (fun _ => isVisible_of_isWordChar) hu]
  split
  · exact .fail
  · exact .value rfl

theorem mirrors_keyword {text : String} (h : IsInner text) :
    Parser.Mirrors R R (keyword text) (keyword text) (id : Unit → Unit) :=
  .blanks ((h.fails opens_nil).bind _) (fun _ hs => (h.fails hs).bind _)
    ((mirrors_exactly h.1).bind fun _ _ _ => mirrors_wordEnd)

theorem simulates_keyword {text : String} (h : IsInner text) :
    Parser.Simulates R R (keyword text) (keyword text) (id : Unit → Unit) :=
  (mirrors_keyword h).simulates

theorem mirrors_keyword_firm {text : String} (h : Solid text.toList) :
    Parser.Mirrors (Firm R) R (keyword text) (keyword text) (id : Unit → Unit) :=
  .blanks_firm (.firm ((mirrors_exactly h).bind fun _ _ _ => mirrors_wordEnd))

theorem mirrors_char {c : Char} (hc : IsVisible c) : Parser.Mirrors R R (char c) (char c) (id : Unit → Unit) where
  simulates s s' a r hs hp := by
    have hcons := eq_cons_of_char hp
    rcases Alike.head hs with ⟨d, t, t', -, rfl, rfl, ht⟩ | ⟨hseparated, -⟩
    · cases hcons
      exact ⟨(), t', if_pos rfl, rfl, ht⟩
    · exact absurd hc (hseparated c (by rw [hcons]; rfl))
  fails s s' hs hp := by
    apply fails_char
    rintro hhead
    rcases Alike.head hs with ⟨d, t, t', -, rfl, rfl, ht⟩ | ⟨-, hseparated⟩
    · cases hhead
      exact hp.elim (if_pos rfl)
    · exact hseparated c hhead hc

theorem mirrors_run {p : Char → Bool} (hp : ∀ c, p c = true → IsVisible c) (missing : Element) :
    Parser.Mirrors R R (run p missing) (run p missing) (id : List Char → List Char) where
  simulates s s' a r hs h := by
    obtain ⟨htake, hdrop⟩ := Alike.takeWhile hp hs
    unfold run at h ⊢
    rw [← htake]
    split at h
    · cases h
    · rename_i hne
      cases h
      cases htext : s.takeWhile p with
      | nil => exact absurd htext hne
      | cons c cs => exact ⟨_, _, rfl, rfl, hdrop⟩
  fails s s' hs h := by
    obtain ⟨htake, -⟩ := Alike.takeWhile hp hs
    unfold Fails run at h ⊢
    rw [← htake]
    split
    · exact ⟨_, rfl⟩
    · obtain ⟨e, he⟩ := h
      split at he
      · rename_i hne _ hnil
        exact absurd hnil hne
      · cases he

theorem mirrors_word : Parser.Mirrors R R word word (id : String → String) :=
  (mirrors_run (fun _ => isVisible_of_isWordChar) .word).map fun _ _ h => congrArg String.ofList h

/-- What a name with its sigil is behind the blanks. -/
theorem mirrors_sigil {sigil : Char} (h : IsVisible sigil) :
    Parser.Mirrors R R (Parser.here >>= fun place => char sigil >>= fun _ => word >>= fun name =>
      pure (⟨name, place⟩ : Mention)) (Parser.here >>= fun place => char sigil >>= fun _ => word >>= fun name =>
      pure (⟨name, place⟩ : Mention)) Mention.bare :=
  .here fun _ _ _ => (mirrors_char h).bind fun _ _ _ => mirrors_word.map fun _ _ hname => congrArg Mention.of hname

theorem mirrors_localName : Parser.Mirrors R R localName localName Mention.bare := by
  refine .blanks ⟨_, rfl⟩ (fun s hs => ?_) (mirrors_sigil (by decide))
  refine fails_here_bind (Fails.bind (fails_char fun hhead => ?_) _)
  rcases hs _ hhead with h | h <;> exact absurd h (by decide)

theorem mirrors_localName_firm : Parser.Mirrors (Firm R) R localName localName Mention.bare :=
  mirrors_localName.firm

theorem mirrors_symbolName_firm : Parser.Mirrors (Firm R) R symbolName symbolName Mention.bare :=
  .blanks_firm (mirrors_sigil (by decide)).firm

theorem simulates_symbolName : Parser.Simulates R R symbolName symbolName Mention.bare :=
  .blanks ⟨_, rfl⟩ (mirrors_sigil (by decide)).simulates.firm

theorem mirrors_labelName_firm : Parser.Mirrors (Firm R) R labelName labelName Mention.bare := by
  refine .blanks_firm (.firm (.here fun _ _ _ => mirrors_word.bind fun name name' hname => ?_))
  exact (mirrors_char (by decide)).map fun _ _ _ => congrArg Mention.of hname

end

end SSALint.Source
