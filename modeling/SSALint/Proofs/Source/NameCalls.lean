/-
Name tables as their callers see them. A caller mentions and defines names in any order, and goes on after a definition
that is refused. What it may rely on is told by its own calls and the answers so far: ids number the names in the order
of their first mention, a definition is refused if an earlier one of the name was not, and in the end either the first
name mentioned that has no definition is told, or the ids in the order of the definitions (`performAll_spec`). A table
in columns cannot be told from it (`performAll_columns`).
-/
import SSALint.Proofs.Source.NameColumns
import SSALint.Proofs.Source.Undefined

namespace SSALint.Source.NameTable

/-! ## Calls and answers -/

theorem performAll_append_singleton (calls : List Call) (q : Call) : performAll (calls ++ [q]) =
    ((performAll calls).1 ++ [((performAll calls).2.perform q).1], ((performAll calls).2.perform q).2) := by
  unfold performAll
  rw [List.foldl_append]
  rfl

/-- The names in calls, each once, in the order of their first mention. -/
def mentionedNames (calls : List Call) : List String := (calls.map (·.mentioned.name)).eraseDups

/-- What a call defines if it is not refused: a name and the id that is answered. -/
def Call.definition? (q : Call) (answer : Except NameError Nat) : Option (String × Nat) :=
  match q, answer with
  | .define _ m, .ok id => some (m.name, id)
  | _, _ => none

/-- The definitions in calls that were not refused. -/
def definitions (calls : List Call) (answers : List (Except NameError Nat)) : List (String × Nat) :=
  (calls.zip answers).filterMap fun (q, answer) => q.definition? answer

/-! ## One call -/

theorem mention_of_mem {t : NameTable} {m : Mention} (h : m.name ∈ t.names) : (t.mention m).1 = t := by
  unfold mention
  cases hid : t.idOf? m.name with
  | none => exact absurd h (idOf?_eq_none_iff.1 hid)
  | some id => rfl

theorem define_of_not_mem {t : NameTable} (hw : t.Wf) (kind : NameKind) {m : Mention} (h : m.name ∉ t.defined) :
    t.define kind m =
      .ok ({ (t.mention m).1 with order := (t.mention m).1.order ++ [(t.mention m).2] }, (t.mention m).2) := by
  obtain ⟨x, hx⟩ := exists_define hw kind h
  rw [hx]
  unfold define at hx
  simp only at hx
  split at hx
  · cases hx
  · exact hx.symm

theorem define_of_mem {t : NameTable} (hw : t.Wf) (kind : NameKind) {m : Mention} (h : m.name ∈ t.defined) :
    t.define kind m = .error (.redefinition kind m) := by
  have hsame : (t.mention m).1 = t := mention_of_mem (hw.mem_names_of_mem_defined h)
  have hget := getElem?_mention t m
  rw [hsame, names, List.getElem?_map, Option.map_eq_some_iff] at hget
  obtain ⟨first, hfirst, hname⟩ := hget
  unfold define
  simp only
  rw [hsame, if_pos ((hw.mem_order_iff hfirst).2 (hname ▸ h))]

/-- A call is refused only if it defines what is defined already, and then nothing has changed. -/
theorem perform_cases {t : NameTable} (hw : t.Wf) (q : Call) :
    (∃ kind m, q = .define kind m ∧ m.name ∈ t.defined ∧ t.perform q = (.error (.redefinition kind m), t)) ∨
    (∀ kind m, q = .define kind m → m.name ∉ t.defined) ∧ ∃ t', t.perform q = (.ok (t.mention q.mentioned).2, t') ∧
      t'.Wf ∧ t'.mentions = (t.mention q.mentioned).1.mentions ∧
      t'.order = t.order ++ (q.definition? (.ok (t.mention q.mentioned).2)).toList.map (·.2) ∧
      t'.defined = t.defined ++ (q.definition? (.ok (t.mention q.mentioned).2)).toList.map (·.1) := by
  cases q with
  | mention m =>
    exact .inr ⟨nofun, _, rfl, (grown_mention hw m).wf, rfl, (order_mention t m).trans (List.append_nil _).symm,
      (grown_mention hw m).defined⟩
  | define kind m =>
    by_cases hm : m.name ∈ t.defined
    · refine .inl ⟨kind, m, rfl, hm, ?_⟩
      unfold perform
      simp only [define_of_mem hw kind hm, mention_of_mem (hw.mem_names_of_mem_defined hm)]
    · have hdefine := define_of_not_mem hw kind hm
      have hgrown := grown_define hw hdefine
      refine .inr ⟨fun _ _ hq => by cases hq; exact hm, _, ?_, hgrown.wf, rfl, ?_, hgrown.defined⟩
      · unfold perform
        simp only [hdefine]
        rfl
      · exact congrArg (· ++ [(t.mention m).2]) (order_mention t m)

/-! ## Rows of calls -/

/-- What calls and answers tell of the table that they leave. -/
structure Told (calls : List Call) (answers : List (Except NameError Nat)) (t : NameTable) : Prop where
  wf : t.Wf
  length : answers.length = calls.length
  names : t.names = mentionedNames calls
  traced : Traced {} (calls.map Call.mentioned) [] t
  ids : ∀ (i : Nat) (q : Call) (id : Nat), calls[i]? = some q → answers[i]? = some (.ok id) →
    t.names[id]? = some q.mentioned.name
  order : t.order = (definitions calls answers).map (·.2)
  defined : t.defined = (definitions calls answers).map (·.1)

theorem told_nil : Told [] [] {} where
  wf := wf_empty
  length := rfl
  names := rfl
  traced := .refl _
  ids := nofun
  order := rfl
  defined := rfl

theorem eraseDups_append_singleton {α : Type} [BEq α] [LawfulBEq α] (l : List α) (a : α) :
    (l ++ [a]).eraseDups = if l.contains a then l.eraseDups else l.eraseDups ++ [a] := by
  rw [List.eraseDups_append]
  split <;> simp_all [List.removeAll, List.eraseDups_cons]

theorem mentionedNames_append_singleton (calls : List Call) (q : Call) : mentionedNames (calls ++ [q]) =
    if q.mentioned.name ∈ mentionedNames calls then mentionedNames calls
    else mentionedNames calls ++ [q.mentioned.name] := by
  unfold mentionedNames
  rw [List.map_append, List.map_singleton, eraseDups_append_singleton]
  exact if_congr (List.contains_iff_mem.trans List.mem_eraseDups.symm) rfl rfl

theorem mentionedNames_eq_nil_iff {calls : List Call} : mentionedNames calls = [] ↔ calls = [] := by
  cases calls <;> simp [mentionedNames, List.eraseDups_cons]

theorem definitions_append_singleton {calls : List Call} {answers : List (Except NameError Nat)}
    (h : answers.length = calls.length) (q : Call) (answer : Except NameError Nat) :
    definitions (calls ++ [q]) (answers ++ [answer]) =
      definitions calls answers ++ (q.definition? answer).toList := by
  unfold definitions
  rw [List.zip_append h.symm, List.filterMap_append]
  cases hd : q.definition? answer <;> simp [hd]

theorem Told.ids_append {calls : List Call} {answers : List (Except NameError Nat)} {t t' : NameTable}
    (h : Told calls answers t) (hgrown : t.names <+: t'.names) {q : Call} {answer : Except NameError Nat}
    (hanswer : ∀ id, answer = .ok id → t'.names[id]? = some q.mentioned.name) (i : Nat) (q' : Call) (id : Nat)
    (hq : (calls ++ [q])[i]? = some q') (ha : (answers ++ [answer])[i]? = some (.ok id)) :
    t'.names[id]? = some q'.mentioned.name := by
  rcases Nat.lt_or_ge i calls.length with hlt | hge
  · rw [List.getElem?_append_left hlt] at hq
    rw [List.getElem?_append_left (h.length.symm ▸ hlt)] at ha
    obtain ⟨new, hnew⟩ := hgrown
    have hold := h.ids i q' id hq ha
    rw [← hnew, List.getElem?_append_left (List.getElem?_eq_some_iff.1 hold).1, hold]
  · rw [List.getElem?_append_right hge, List.getElem?_singleton] at hq
    rw [List.getElem?_append_right (h.length.symm ▸ hge), List.getElem?_singleton] at ha
    split at hq
    · cases hq
      split at ha
      · exact hanswer id (Option.some.inj ha)
      · cases ha
    · cases hq

theorem Told.perform {calls : List Call} {answers : List (Except NameError Nat)} {t : NameTable}
    (h : Told calls answers t) (q : Call) : Told (calls ++ [q]) (answers ++ [(t.perform q).1]) (t.perform q).2 := by
  have hnames : (t.mention q.mentioned).1.names = mentionedNames (calls ++ [q]) := by
    rw [names_mention, mentionedNames_append_singleton, h.names]
  have htraced : Traced {} ((calls ++ [q]).map Call.mentioned) [] (t.mention q.mentioned).1 := by
    rw [List.map_append]
    exact h.traced.trans (traced_mention t q.mentioned)
  have hlength : ∀ answer, (answers ++ [answer]).length = (calls ++ [q]).length := fun answer => by
    rw [List.length_append, List.length_append, h.length]
    rfl
  rcases perform_cases h.wf q with ⟨kind, m, rfl, hm, hrefused⟩ | ⟨-, t', hanswered, hwf, hmentions, horder, hdefined⟩
  · -- A definition that is refused has mentioned its name, but what is defined was mentioned before.
    have hsame : (t.mention m).1 = t := mention_of_mem (h.wf.mem_names_of_mem_defined hm)
    rw [Call.mentioned, hsame] at hnames htraced
    rw [hrefused]
    refine ⟨h.wf, hlength _, hnames, htraced, h.ids_append (List.prefix_refl _) nofun, ?_, ?_⟩
    · rw [definitions_append_singleton h.length, h.order]
      exact (congrArg _ (List.append_nil _)).symm
    · rw [definitions_append_singleton h.length, h.defined]
      exact (congrArg _ (List.append_nil _)).symm
  · have hnames' : t'.names = (t.mention q.mentioned).1.names := congrArg (List.map Mention.name) hmentions
    rw [hanswered]
    refine ⟨hwf, hlength _, hnames'.trans hnames, ?_, h.ids_append ?_ ?_, ?_, ?_⟩
    · intro P hP
      rw [hmentions]
      exact htraced P hP
    · rw [hnames']
      exact names_prefix_mention t q.mentioned
    · rintro _ ⟨⟩
      rw [hnames']
      exact getElem?_mention t q.mentioned
    · rw [definitions_append_singleton h.length, List.map_append, horder, h.order]
    · rw [definitions_append_singleton h.length, List.map_append, hdefined, h.defined]

theorem told_performAll (calls : List Call) : Told calls (performAll calls).1 (performAll calls).2 := by
  induction calls using List.reverseRecOn with
  | nil => exact told_nil
  | append_singleton calls q ih =>
    rw [performAll_append_singleton]
    exact ih.perform q

/-! ## What a caller knows -/

theorem performAll_extends (past future : List Call) : (performAll past).1 <+: (performAll (past ++ future)).1 := by
  induction future using List.reverseRecOn with
  | nil =>
    rw [List.append_nil]
  | append_singleton future q ih =>
    rw [← List.append_assoc, performAll_append_singleton]
    exact ih.trans (List.prefix_append _ _)

theorem getElem?_performAll (past future : List Call) (q : Call) :
    (performAll (past ++ q :: future)).1[past.length]? = some ((performAll past).2.perform q).1 := by
  have hlast : (performAll (past ++ [q])).1[past.length]? = some ((performAll past).2.perform q).1 := by
    rw [performAll_append_singleton, List.getElem?_append_right (told_performAll past).length.le]
    simp [(told_performAll past).length]
  obtain ⟨later, hlater⟩ := performAll_extends (past ++ [q]) future
  rw [List.append_assoc, List.singleton_append] at hlater
  rw [← hlater, List.getElem?_append_left (List.getElem?_eq_some_iff.1 hlast).1, hlast]

theorem order_of_finish {t : NameTable} {kind : NameKind} {order : List Nat} (h : t.finish kind = .ok order) :
    order = t.order := by
  unfold finish at h
  split at h
  · cases h
  · exact (Except.ok.inj h).symm

/-- A table is finished, or it tells the first mention of a name without a definition. -/
theorem finish_eq {t : NameTable} (hw : t.Wf) (kind : NameKind) : t.finish kind =
    match t.mentions.find? fun m => m.name ∉ t.defined with
    | some m => .error (.undefined kind m)
    | none => .ok t.order := by
  cases hfinish : t.finish kind with
  | error e =>
    obtain ⟨m, rfl, hfind⟩ := find?_of_finish hw hfinish
    rw [hfind]
  | ok order =>
    have hfind : t.mentions.find? (fun m => m.name ∉ t.defined) = none := by
      rw [List.find?_eq_none]
      intro m hm
      simpa using mem_defined_of_finish hfinish (List.mem_map_of_mem hm)
    rw [hfind, order_of_finish hfinish]

/-- If every name has a definition, every id was recorded. -/
theorem perm_order {t : NameTable} (hw : t.Wf) (h : ∀ name ∈ t.names, name ∈ t.defined) :
    t.order.Perm (List.range t.names.length) := by
  refine (List.perm_ext_iff_of_nodup hw.nodupOrder List.nodup_range).2 fun id => ?_
  rw [List.mem_range]
  refine ⟨hw.mentioned id, fun hlt => ?_⟩
  have hlt' : id < t.mentions.length := by rwa [names, List.length_map] at hlt
  refine (hw.mem_order_iff (List.getElem?_eq_getElem hlt')).2 (h _ (List.mem_map_of_mem (List.getElem_mem hlt')))

/-- What a table answers in the end has each of its ids once. -/
theorem Wf.perm_of_finish {t : NameTable} (hw : t.Wf) {kind : NameKind} {order : List Nat}
    (h : t.finish kind = .ok order) : order.Perm (List.range order.length) := by
  have hperm := perm_order hw fun name => mem_defined_of_finish h
  rw [order_of_finish h, hperm.length_eq, List.length_range]
  exact hperm

/-- An id is the place of its name among those that were mentioned. -/
theorem Told.eq_idxOf {calls : List Call} {answers : List (Except NameError Nat)} {t : NameTable}
    (h : Told calls answers t) {i id : Nat} {q : Call} (hq : calls[i]? = some q) (ha : answers[i]? = some (.ok id)) :
    id = (mentionedNames calls).idxOf q.mentioned.name := by
  obtain ⟨hlt, hget⟩ := List.getElem?_eq_some_iff.1 (h.ids i q id hq ha)
  rw [← h.names, ← hget, h.wf.nodupNames.idxOf_getElem]

/-- A call is answered by the place of its name among all that are ever mentioned, unless it defines what an earlier
call defined. -/
theorem answer_eq (past future : List Call) (q : Call) :
    (performAll (past ++ q :: future)).1[past.length]? = some (match q with
      | .mention m => .ok ((mentionedNames (past ++ q :: future)).idxOf m.name)
      | .define kind m =>
        if m.name ∈ (definitions past (performAll past).1).map (·.1) then .error (.redefinition kind m)
        else .ok ((mentionedNames (past ++ q :: future)).idxOf m.name)) := by
  have hpast := told_performAll past
  have hanswer := getElem?_performAll past future q
  rcases perform_cases hpast.wf q with ⟨kind, m, rfl, hm, hrefused⟩ | ⟨hnew, t', hanswered, -⟩
  · rw [hanswer, hrefused]
    simp only [← hpast.defined, if_pos hm]
  · rw [hanswered] at hanswer
    rw [hanswer, (told_performAll _).eq_idxOf (q := q) (by simp) hanswer]
    cases q with
    | mention m => rfl
    | define kind m => simp only [← hpast.defined, if_neg (hnew kind m rfl)]; rfl

/-- A call that is refused leaves the table as it was. -/
theorem table_of_refused {past future : List Call} {q : Call} {e : NameError}
    (he : (performAll (past ++ q :: future)).1[past.length]? = some (.error e)) :
    (performAll (past ++ [q])).2 = (performAll past).2 := by
  rw [getElem?_performAll] at he
  rw [performAll_append_singleton]
  rcases perform_cases (told_performAll past).wf q with ⟨kind, m, rfl, hm, hrefused⟩ | ⟨-, t', hanswered, -⟩
  · rw [hrefused]
  · rw [hanswered] at he
    cases he

/-- In the end the calls tell which name lacks a definition, or that none does. -/
theorem Told.finish {calls : List Call} {answers : List (Except NameError Nat)} {t : NameTable}
    (h : Told calls answers t) (kind : NameKind) :
    match calls.find? fun q => q.mentioned.name ∉ (definitions calls answers).map (·.1) with
      | some q => t.finish kind = .error (.undefined kind q.mentioned)
      | none => t.finish kind = .ok ((definitions calls answers).map (·.2)) ∧
        ((definitions calls answers).map (·.2)).Perm (List.range (mentionedNames calls).length) := by
  have hfind : t.mentions.find? (fun m => m.name ∉ t.defined) =
      (calls.find? fun q => q.mentioned.name ∉ (definitions calls answers).map (·.1)).map Call.mentioned := by
    rw [h.traced (fun name => name ∉ t.defined) nofun, List.nil_append, List.find?_map, h.defined]
    rfl
  rw [finish_eq h.wf, hfind]
  cases hcall : calls.find? fun q => q.mentioned.name ∉ (definitions calls answers).map (·.1) with
  | some q => rfl
  | none =>
    rw [← h.order, ← h.names]
    refine ⟨rfl, perm_order h.wf fun name hname => ?_⟩
    rw [h.names, mentionedNames, List.mem_eraseDups] at hname
    obtain ⟨q, hq, rfl⟩ := List.mem_map.1 hname
    rw [h.defined]
    simpa using List.find?_eq_none.1 hcall q hq

/-- A table in columns answers the same calls alike, without a fault. -/
theorem performAll_columns (calls : List Call) : ∃ columns,
    NameColumns.performAll calls = .ok ((performAll calls).1, columns) ∧ columns.Tells (performAll calls).2 := by
  induction calls using List.reverseRecOn with
  | nil => exact ⟨{}, rfl, NameColumns.tells_empty⟩
  | append_singleton calls q ih =>
    obtain ⟨columns, hrun, htells⟩ := ih
    obtain ⟨columns', hstep, htells'⟩ := htells.perform (told_performAll calls).wf q
    refine ⟨columns', ?_, by rw [performAll_append_singleton]; exact htells'⟩
    unfold NameColumns.performAll at hrun ⊢
    rw [List.foldlM_append, hrun, performAll_append_singleton]
    show ((columns.perform q >>= fun x => pure ((performAll calls).1 ++ [x.1], x.2)) >>= pure) = _
    rw [hstep]
    rfl

/-- Whatever is asked of a table that starts empty, each answer follows from the calls. The ids number the names in the
order of their first mention; a definition is refused if, and only if, an earlier one of the name was not, and then
nothing has changed. In the end either a mentioned name has no definition, and of those the first one is told with its
first mention, or the table answers its ids in the order of the definitions, each of them once. A table with a column
for each thing that is known of a name does the same and never looks for an entry that is not there, also when the ids
are renumbered in the end. -/
theorem performAll_spec (calls : List Call) :
    let answers := (performAll calls).1
    let names := mentionedNames calls
    let defined := definitions calls answers
    names.Nodup ∧ answers.length = calls.length ∧
    (∀ past q future, calls = past ++ q :: future →
      let before := performAll past
      answers[past.length]? = some (match q with
        | .mention m => .ok (names.idxOf m.name)
        | .define kind m =>
          if m.name ∈ (definitions past before.1).map (·.1) then .error (.redefinition kind m)
          else .ok (names.idxOf m.name)) ∧
      ∀ e, answers[past.length]? = some (.error e) → (performAll (past ++ [q])).2 = before.2) ∧
    (∀ (i j : Nat) (q q' : Call) (id id' : Nat), calls[i]? = some q → answers[i]? = some (.ok id) →
      calls[j]? = some q' → answers[j]? = some (.ok id') → (id = id' ↔ q.mentioned.name = q'.mentioned.name)) ∧
    (∀ kind, match calls.find? fun q => q.mentioned.name ∉ defined.map (·.1) with
      | some q => (performAll calls).2.finish kind = .error (.undefined kind q.mentioned)
      | none => (performAll calls).2.finish kind = .ok (defined.map (·.2)) ∧
        (defined.map (·.2)).Perm (List.range names.length)) ∧
    ∃ columns, NameColumns.performAll calls = .ok (answers, columns) ∧ (columns.isEmpty = true ↔ calls = []) ∧
      (∀ (i : Nat) (q : Call) (id : Nat), calls[i]? = some q → answers[i]? = some (.ok id) →
        columns.name id = .ok q.mentioned.name) ∧
      ∀ kind, columns.finish kind = .ok ((performAll calls).2.finish kind) ∧
        ∀ order, (performAll calls).2.finish kind = .ok order → ∃ column, renumber order = .ok column ∧
          column.length = order.length ∧ ∀ id ∈ order, column[id]? = some (order.idxOf id) := by
  intro answers names defined
  have htold : Told calls answers (performAll calls).2 := told_performAll calls
  have hnames : (performAll calls).2.names = names := htold.names
  obtain ⟨columns, hrun, htells⟩ := performAll_columns calls
  refine ⟨hnames ▸ htold.wf.nodupNames, htold.length, ?_, ?_, htold.finish, columns, hrun, ?_, ?_, ?_⟩
  · rintro past q future rfl
    exact ⟨answer_eq past future q, fun e he => table_of_refused he⟩
  · intro i j q q' id id' hq ha hq' ha'
    have hmem : q.mentioned.name ∈ names := List.mem_eraseDups.2 (List.mem_map_of_mem (List.mem_of_getElem? hq))
    rw [htold.eq_idxOf hq ha, htold.eq_idxOf hq' ha', List.idxOf_inj hmem]
  · unfold NameColumns.isEmpty
    rw [htells.names, hnames, List.isEmpty_iff]
    exact mentionedNames_eq_nil_iff
  · exact fun i q id hq ha => htells.name (htold.ids i q id hq ha)
  · exact fun kind => ⟨htells.finish kind, fun order horder => renumber_spec (htold.wf.perm_of_finish horder)⟩

/-- A name that is mentioned before its definition, and one that is defined twice. -/
def crossing : List Call :=
  [.mention ⟨"later", ['1']⟩, .define .label ⟨"first", ['2']⟩, .define .label ⟨"later", ['3']⟩,
    .define .label ⟨"first", ['4']⟩]

theorem performAll_crossing :
    (performAll crossing).1[3]? = some (.error (.redefinition .label ⟨"first", ['4']⟩)) ∧
      (performAll crossing).2.finish .label = .ok [1, 0] := by
  obtain ⟨-, -, hanswers, -, hfinish, -⟩ := performAll_spec crossing
  exact ⟨(hanswers (crossing.take 3) _ [] rfl).1, (hfinish .label).1⟩

end SSALint.Source.NameTable
