/-
Where definitions stand in a text. A mention is the rest of the text from a name on, so mentions in order
are suffixes of each other. A program lists its definitions in the order in which the text writes them
(`program_spec`).
-/
import SSALint.Proofs.Source.Steady
import SSALint.Proofs.Source.WellFormed

namespace SSALint.Source

/-! ## Mentions in order -/

/-- A name is written where it is mentioned, maybe behind a sigil, and a text follows it. -/
def Mention.Before (m : Mention) (after : List Char) : Prop :=
  m.name ≠ "" ∧ ∃ sigil, (sigil = [] ∨ sigil = ['%'] ∨ sigil = ['@']) ∧
    m.rest = sigil ++ m.name.toList ++ after

/-- Names are written in a text one after the other, and a rest of it follows them. -/
def InOrder : (s : List Char) → List Mention → (r : List Char) → Prop
  | s, [], r => r <:+ s
  | s, m :: ms, r => m.rest <:+ s ∧ ∃ t, m.Before t ∧ InOrder t ms r

theorem InOrder.of_suffix {s s' r : List Char} {ms : List Mention} (h : InOrder s ms r) (hs : s <:+ s') :
    InOrder s' ms r := by
  cases ms with
  | nil => exact List.IsSuffix.trans h hs
  | cons m ms => exact ⟨h.1.trans hs, h.2⟩

theorem InOrder.append {s t r : List Char} {ms ms' : List Mention} (h : InOrder s ms t)
    (h' : InOrder t ms' r) : InOrder s (ms ++ ms') r := by
  induction ms generalizing s with
  | nil => exact h'.of_suffix h
  | cons m ms ih =>
    obtain ⟨hm, u, hu, h⟩ := h
    exact ⟨hm, u, hu, ih h⟩

/-- What comes later in the text leaves less of it. -/
theorem InOrder.pairwise {s r : List Char} {ms : List Mention} (h : InOrder s ms r) :
    (∀ m ∈ ms, m.rest.length ≤ s.length) ∧ ms.Pairwise fun m m' => m'.rest.length < m.rest.length := by
  induction ms generalizing s with
  | nil => simp
  | cons m ms ih =>
    obtain ⟨hm, t, ⟨hname, sigil, -, hrest⟩, h⟩ := h
    obtain ⟨hle, hp⟩ := ih h
    have hlt : t.length < m.rest.length := by
      have hpos : 0 < m.name.toList.length := List.length_pos_iff.2 (by simpa using hname)
      rw [hrest, List.length_append, List.length_append]
      omega
    have hs := hm.length_le
    refine ⟨List.forall_mem_cons.2 ⟨hs, fun m' hm' => ?_⟩, List.pairwise_cons.2 ⟨fun m' hm' => ?_, hp⟩⟩
    · have := hle m' hm'
      omega
    · have := hle m' hm'
      omega

/-! ## Definitions -/

/-- The names that the head of a function defines: its own, then those of the parameters. -/
def Head.definitions (h : Head) : List Mention := h.name :: h.params.filterMap (·.name)

/-- The name of the result, if there is one. -/
def NamedInstr.definitions (i : NamedInstr) : List Mention := (i.result.map (·.name)).toList

/-- The names that a block defines: its label, then the results. -/
def NamedBlock.definitions (b : NamedBlock) : List Mention :=
  b.label.toList ++ b.instrs.flatMap NamedInstr.definitions

/-- The names that an item defines, in the order of the text. -/
def Item.definitions : Item → List Mention
  | .global g => [g.name]
  | .declaration h => h.definitions
  | .definition h blocks => h.definitions ++ blocks.flatMap NamedBlock.definitions

/-! ## Names -/

/-- A parser goes on from mentions in order to more of them. -/
def Lists {α : Type} (p : Parser α) (ms : α → List Mention) : Prop :=
  ∀ s₀ pre, p.Ensures (InOrder s₀ pre) fun a => InOrder s₀ (pre ++ ms a)

theorem Lists.of_inOrder {α : Type} {p : Parser α} {ms : α → List Mention}
    (h : ∀ s a r, p s = .ok (a, r) → InOrder s (ms a) r) : Lists p ms :=
  fun _ _ s a r hs hp => hs.append (h s a r hp)

theorem lists_of_steady {α : Type} (p : Parser α) [hp : p.Steady] : Lists p fun _ => [] :=
  .of_inOrder fun _ _ _ h => hp.suffix h

theorem eq_cons_of_char {c : Char} {s r : List Char} {u : Unit} (h : char c s = .ok (u, r)) :
    s = c :: r := by
  unfold char at h
  split at h
  · split at h
    · rename_i hd
      cases h
      rw [hd]
    · cases h
  · cases h

theorem eq_append_of_word {s r : List Char} {name : String} (h : word s = .ok (name, r)) :
    name ≠ "" ∧ s = name.toList ++ r := by
  have h : (run isWordChar .word >>= fun cs => pure (String.ofList cs)) s = .ok (name, r) := h
  obtain ⟨cs, t, hrun, hname⟩ := Parser.bind_eq_ok_iff.1 h
  obtain ⟨rfl, rfl⟩ := Parser.pure_eq_ok_iff.1 hname
  unfold run at hrun
  split at hrun
  · cases hrun
  · rename_i hne
    cases hrun
    refine ⟨?_, ?_⟩
    · simpa using hne
    · rw [String.toList_ofList, List.takeWhile_append_dropWhile]

/-- A name with its sigil stands behind the blanks, and a word follows the sigil. -/
theorem rest_of_sigilName {sigil : Char} {s r : List Char} {m : Mention} (h : sigilName sigil s = .ok (m, r)) :
    ∃ t, m.rest <:+ s ∧ m.rest = sigil :: t ∧ word t = .ok (m.name, r) := by
  unfold sigilName at h
  obtain ⟨_, s₁, h₁, h⟩ := Parser.bind_eq_ok_iff.1 h
  obtain ⟨_, s₂, h₂, h⟩ := Parser.bind_eq_ok_iff.1 h
  obtain ⟨_, s₃, h₃, h⟩ := Parser.bind_eq_ok_iff.1 h
  obtain ⟨name, s₄, h₄, h⟩ := Parser.bind_eq_ok_iff.1 h
  obtain ⟨rfl, rfl⟩ := Parser.pure_eq_ok_iff.1 h
  cases h₂
  exact ⟨s₃, Parser.Steady.suffix h₁, eq_cons_of_char h₃, h₄⟩

theorem lists_sigilName {sigil : Char} (hsigil : sigil = '%' ∨ sigil = '@') :
    Lists (sigilName sigil) fun m => [m] := by
  refine .of_inOrder fun s m r h => ?_
  obtain ⟨t, hplace, hrest, hword⟩ := rest_of_sigilName h
  obtain ⟨hname, rfl⟩ := eq_append_of_word hword
  refine ⟨hplace, r, ⟨hname, [sigil], ?_, hrest⟩, List.suffix_refl _⟩
  rcases hsigil with rfl | rfl
  · exact .inr (.inl rfl)
  · exact .inr (.inr rfl)

theorem lists_localName : Lists localName fun m => [m] := lists_sigilName (.inl rfl)

theorem lists_symbolName : Lists symbolName fun m => [m] := lists_sigilName (.inr rfl)

theorem lists_labelName : Lists labelName fun m => [m] := by
  refine .of_inOrder fun s m r h => ?_
  unfold labelName at h
  obtain ⟨_, s₁, h₁, h⟩ := Parser.bind_eq_ok_iff.1 h
  obtain ⟨_, s₂, h₂, h⟩ := Parser.bind_eq_ok_iff.1 h
  obtain ⟨name, s₃, h₃, h⟩ := Parser.bind_eq_ok_iff.1 h
  obtain ⟨_, s₄, h₄, h⟩ := Parser.bind_eq_ok_iff.1 h
  obtain ⟨rfl, rfl⟩ := Parser.pure_eq_ok_iff.1 h
  cases h₂
  obtain ⟨hname, hs₂⟩ := eq_append_of_word h₃
  refine ⟨Parser.Steady.suffix h₁, s₃, ⟨hname, [], .inl rfl, hs₂⟩, ?_⟩
  rw [eq_cons_of_char h₄]
  exact List.suffix_cons _ _

theorem lists_attempt {α : Type} {p : Parser α} {ms : α → List Mention} (hp : Lists p ms) :
    Lists p.attempt fun o => o.elim [] ms :=
  fun s₀ pre => .attempt (hp s₀ pre) fun s hs => by simpa using hs

/-! ## Bodies -/

theorem lists_resultName : Lists resultName Option.toList := by
  intro s₀ pre
  unfold resultName
  refine .bind (lists_attempt lists_localName s₀ pre) fun o => ?_
  cases o with
  | none => exact .pure fun s hs => hs
  | some m =>
    refine .bind (lists_of_steady _ s₀ _) fun _ => .pure fun s hs => ?_
    simpa using hs

/-- A line defines what its result is called. -/
theorem lists_line : Lists line (Sum.elim NamedInstr.definitions fun _ => []) := by
  intro s₀ pre
  unfold line
  refine .bind (lists_resultName s₀ pre) fun name => ?_
  refine .bind (lists_of_steady _ s₀ _) fun _ => .bind (lists_of_steady _ s₀ _) fun place =>
    .bind (lists_of_steady _ s₀ _) fun opcode => ?_
  split
  · rename_i terminator _ hterminator
    have := Parser.Steady.of_terminatorOf? hterminator
    dsimp only
    split
    · exact .bind (Q := fun _ _ => False) .failAt fun _ s a r hs => hs.elim
    · -- A terminator with a result is refused, so that nothing is defined here.
      rename_i hname
      rw [Bool.not_eq_true, Option.isSome_eq_false_iff, Option.isNone_iff_eq_none] at hname
      refine .bind (lists_of_steady _ s₀ _) fun t => .pure fun s hs => ?_
      simpa [hname] using hs
  · rename_i operation hoperation
    have := Parser.Steady.of_operationOf? hoperation
    refine .bind (lists_of_steady _ s₀ _) fun o => ?_
    split
    · exact .pure fun s hs => by simpa [NamedInstr.definitions] using hs
    · exact .pure fun s hs => by simpa [NamedInstr.definitions] using hs
    · exact .failAt
  · exact .failAt

theorem lists_openLine : Lists openLine (Sum.elim NamedInstr.definitions fun _ => []) := by
  intro s₀ pre
  unfold openLine
  refine .bind (lists_of_steady _ s₀ _) fun before => .bind (lists_of_steady _ s₀ _) fun _ =>
    .bind (lists_of_steady _ s₀ _) fun closed => ?_
  dsimp only
  split
  · exact .bind (Q := fun _ _ => False) .fail fun _ s a r hs => hs.elim
  · refine .bind (lists_of_steady _ s₀ _) fun label => ?_
    split
    · exact .bind (Q := fun _ _ => False) .failAt fun _ s a r hs => hs.elim
    · simpa using lists_line s₀ pre

/-- The lines of a block define what stands after its label. -/
theorem ensures_block (s₀ : List Char) (pre : List Mention) (label : Option Mention) :
    (block label).Ensures (InOrder s₀ (pre ++ label.toList)) fun b =>
      InOrder s₀ (pre ++ b.definitions) := by
  unfold block
  refine .bind (Q := fun x => InOrder s₀ (pre ++ (label.toList ++ x.1.flatMap NamedInstr.definitions)))
    ?_ fun x => by obtain ⟨instrs, terminator⟩ := x; exact .pure fun s hs => hs
  refine .weaken (.collect (I := fun is =>
    InOrder s₀ (pre ++ (label.toList ++ is.flatMap NamedInstr.definitions))) fun is => ?_)
    (fun s hs => by simpa using hs) fun _ _ h => h
  refine (lists_openLine s₀ _).weaken (fun _ hs => hs) fun l r hl => ?_
  cases l with
  | inl i => simpa using hl
  | inr t => simpa using hl

theorem lists_laterBlock : Lists laterBlock fun o => o.elim [] NamedBlock.definitions := by
  intro s₀ pre
  unfold laterBlock
  refine .bind (lists_of_steady _ s₀ _) fun _ => .bind (lists_of_steady _ s₀ _) fun closed => ?_
  split
  · exact .pure fun s hs => by simpa using hs
  · refine .bind (lists_attempt lists_labelName s₀ _) fun label => ?_
    cases label with
    | none => exact .fail
    | some label =>
      refine .bind (Q := fun b => InOrder s₀ (pre ++ b.definitions)) ?_ fun b => .pure fun s hs => hs
      exact (ensures_block s₀ pre (some label)).weaken (fun s hs => by simpa using hs) fun _ _ h => h

theorem lists_body : Lists body fun blocks => blocks.flatMap NamedBlock.definitions := by
  intro s₀ pre
  unfold body
  refine .bind (lists_of_steady _ s₀ _) fun _ => .bind (lists_of_steady _ s₀ _) fun _ =>
    .bind (lists_of_steady _ s₀ _) fun closed => ?_
  dsimp only
  split
  · exact .bind (Q := fun _ _ => False) .fail fun _ s a r hs => hs.elim
  · refine .bind (lists_attempt lists_labelName s₀ _) fun label => ?_
    refine .bind (Q := fun b => InOrder s₀ (pre ++ b.definitions)) ?_ fun first => ?_
    · refine (ensures_block s₀ pre label).weaken (fun s hs => ?_) fun _ _ h => h
      cases label <;> simpa using hs
    · refine .bind (Q := fun bs => InOrder s₀ (pre ++ (first :: bs).flatMap NamedBlock.definitions)) ?_
        fun bs => .pure fun s hs => hs
      refine .weaken (.many (I := fun bs => InOrder s₀ (pre ++ (first :: bs).flatMap NamedBlock.definitions))
        fun bs => ?_) (fun s hs => by simpa using hs) fun _ _ h => h
      refine (lists_laterBlock s₀ _).weaken (fun _ hs => hs) fun o r ho => ?_
      cases o with
      | none => simpa using ho
      | some b => simpa using ho

/-! ## Items -/

theorem lists_param : Lists param fun p => p.name.toList := by
  intro s₀ pre
  unfold param
  refine .bind (lists_of_steady _ s₀ _) fun t => .bind (lists_attempt lists_localName s₀ _) fun name =>
    .pure fun s hs => ?_
  cases name <;> simpa using hs

theorem lists_params : Lists params fun x => x.1.filterMap (·.name) := by
  intro s₀ pre
  unfold params
  refine .bind (lists_of_steady _ s₀ _) fun _ => .bind (lists_of_steady _ s₀ _) fun none => ?_
  split
  · exact .pure fun s hs => by simpa using hs
  · refine .bind (Q := fun x => InOrder s₀ (pre ++ (x.1 ++ x.2.1).filterMap (·.name))) ?_
      fun x => by obtain ⟨ps, last, variadic⟩ := x; exact .pure fun s hs => hs
    refine .weaken (.collect (I := fun ps => InOrder s₀ (pre ++ ps.filterMap (·.name))) fun ps => ?_)
      (fun s hs => by simpa using hs) fun _ _ h => h
    refine .bind (lists_of_steady _ s₀ _) fun dots => ?_
    split
    · refine .bind (lists_of_steady _ s₀ _) fun _ => .pure fun s hs => ?_
      simpa using hs
    · refine .bind (lists_param s₀ _) fun p => .bind (lists_of_steady _ s₀ _) fun comma => ?_
      have hp : p.name.toList = [p].filterMap (·.name) := by cases hn : p.name <;> simp [hn]
      split
      · refine .pure fun s hs => ?_
        simpa [hp] using hs
      · refine .bind (lists_of_steady _ s₀ _) fun _ => .pure fun s hs => ?_
        simpa [hp] using hs

theorem lists_head : Lists head Head.definitions := by
  intro s₀ pre
  unfold head
  refine .bind (lists_of_steady _ s₀ _) fun ret => .bind (lists_symbolName s₀ _) fun name =>
    .bind (lists_params s₀ _) fun x => ?_
  obtain ⟨ps, variadic⟩ := x
  exact .pure fun s hs => by simpa [Head.definitions] using hs

theorem ensures_global (s₀ : List Char) (pre : List Mention) (name : Mention) :
    (global name).Ensures (InOrder s₀ (pre ++ [name])) fun g => InOrder s₀ (pre ++ [g.name]) := by
  unfold global
  refine .bind (lists_of_steady _ s₀ _) fun _ => .bind (lists_of_steady _ s₀ _) fun external =>
    .bind (lists_of_steady _ s₀ _) fun _ => .bind (lists_of_steady _ s₀ _) fun t => ?_
  split
  · exact .pure fun s hs => by simpa using hs
  · refine .bind (lists_of_steady _ s₀ _) fun place => .bind (lists_of_steady _ s₀ _) fun v => ?_
    split
    · exact .failAt
    · exact .pure fun s hs => by simpa using hs

theorem lists_item : Lists item fun o => o.elim [] Item.definitions := by
  intro s₀ pre
  unfold item
  refine .bind (lists_of_steady _ s₀ _) fun _ => .bind (lists_of_steady _ s₀ _) fun rest => ?_
  split
  · exact .pure fun s hs => by simpa using hs
  · refine .bind (lists_of_steady _ s₀ _) fun define => ?_
    split
    · refine .bind (lists_head s₀ _) fun h => .bind (lists_body s₀ _) fun blocks => .pure fun s hs => ?_
      simpa [Item.definitions] using hs
    · refine .bind (lists_of_steady _ s₀ _) fun declare => ?_
      split
      · refine .bind (lists_head s₀ _) fun h => .pure fun s hs => ?_
        simpa [Item.definitions] using hs
      · refine .bind (lists_attempt lists_symbolName s₀ _) fun name => ?_
        cases name with
        | none => exact .fail
        | some name =>
          refine .bind (Q := fun g => InOrder s₀ (pre ++ [g.name])) ?_ fun g => .pure fun s hs => hs
          exact (ensures_global s₀ pre name).weaken (fun s hs => by simpa using hs) fun _ _ h => h

/-! ## Promises of the grammar -/

theorem label_block (label : Option Mention) : (block label).Yields fun b => b.label = label :=
  .skip fun _ => .pure rfl

theorem label_laterBlock : laterBlock.Yields fun o => ∀ b ∈ o, b.label ≠ none := by
  unfold laterBlock
  refine .skip fun _ => .skip fun closed => ?_
  split
  · exact .pure nofun
  · refine .skip fun label => ?_
    cases label with
    | none => exact .fail
    | some label =>
      refine .bind (label_block _) fun b hb => .pure fun c hc => ?_
      cases hc
      exact hb ▸ Option.some_ne_none label

/-- A body has a block, and every block but the first has its label. -/
theorem label_body : body.Yields fun blocks => blocks ≠ [] ∧ ∀ b ∈ blocks.tail, b.label ≠ none := by
  unfold body blocks
  refine .skip fun _ => .skip fun _ => .skip fun closed => ?_
  dsimp only
  split
  · exact .stop .fail
  · exact .skip fun label => .skip fun first => .bind (.many label_laterBlock) fun bs hbs =>
      .pure ⟨List.cons_ne_nil _ _, hbs⟩

theorem init_global (name : Mention) : (global name).Yields fun g => ∀ x, g.init ≠ some (.var x) := by
  unfold global globalBehind
  refine .skip fun _ => .skip fun external => .skip fun _ => .skip fun t => ?_
  split
  · exact .pure nofun
  · refine .skip fun place => .skip fun v => ?_
    split
    · exact .failAt
    · rename_i hv
      exact .pure fun x hx => hv x (Option.some.inj hx)

/-- An item keeps what the grammar promises, and without one the text is through. -/
theorem proper_item : item.Ensures (fun _ => True) fun o r => o.elim (r = []) Item.Proper := by
  unfold item
  refine .bind .any fun _ => .bind (.here (Q := fun s r => s = r) fun _ _ => rfl) fun rest => ?_
  split
  · rename_i hempty
    refine .pure fun s hs => ?_
    rw [List.isEmpty_iff] at hempty
    exact hs ▸ hempty
  · refine .bind .any fun define => ?_
    split
    · refine .bind .any fun h => .bind label_body.ensures fun blocks => ?_
      exact .pure fun s hs => hs
    · refine .bind .any fun declare => ?_
      split
      · exact .bind .any fun h => .pure fun s _ => trivial
      · refine .bind .any fun name => ?_
        cases name with
        | none => exact .fail
        | some name =>
          refine .bind (init_global name).ensures fun g => ?_
          exact .pure fun s hs => hs

/-- A program is read to the end of the text, its definitions stand in the text in its order, and its
items are proper. -/
theorem program_spec {s r : List Char} {items : List Item} (h : program s = .ok (items, r)) :
    r = [] ∧ InOrder s (items.flatMap Item.definitions) [] ∧ ∀ item ∈ items, item.Proper := by
  have hspec : program.Ensures (InOrder s []) fun items r =>
      r = [] ∧ InOrder s (items.flatMap Item.definitions) r ∧ ∀ item ∈ items, item.Proper := by
    unfold program
    refine .weaken (.many (I := fun items r => InOrder s (items.flatMap Item.definitions) r ∧
      ∀ item ∈ items, item.Proper) fun items => ?_) (fun t ht => ⟨ht, by simp⟩) fun _ _ h => h
    rintro t o r ⟨ht, hitems⟩ ho
    have hplaces := lists_item s _ t o r ht ho
    have hproper := proper_item t o r trivial ho
    cases o with
    | none => exact ⟨hproper, by simpa using hplaces, hitems⟩
    | some item =>
      refine ⟨by simpa using hplaces, fun i hi => ?_⟩
      rcases List.mem_append.1 hi with hi | hi
      · exact hitems i hi
      · rw [List.mem_singleton.1 hi]
        exact hproper
  obtain ⟨rfl, hplaces, hproper⟩ := hspec s items r (List.suffix_refl s) h
  exact ⟨rfl, hplaces, hproper⟩

end SSALint.Source
