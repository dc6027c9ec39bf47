/-
A table is a finite map from numbers together with a counter, the key that it hands out next. A reference works
on that map and counter alone and knows nothing of slots; whatever a caller asks of the two, in whatever order,
the answers are the same. Main statements: `Refines.performAll`, `history_spec`.
-/
import SSALint.Table.Request
import SSALint.Proofs.Table
import Mathlib

namespace SSALint.Table

variable {σ α : Type}

/-- A finite map and the key that it hands out next. -/
@[ext]
structure Reference (α : Type) where
  values : Finmap fun _ : Nat => α
  next : Nat

namespace Reference

/-- No key holds a value and none has been handed out. -/
def empty : Reference α := ⟨∅, 0⟩

/-- The keys that hold a value, ascending. -/
def keys (r : Reference α) : List Nat := r.values.keys.sort (· ≤ ·)

/-- The keys with their values, keys ascending. -/
def entries (r : Reference α) : List (Nat × α) :=
  r.keys.filterMap fun k => (r.values.lookup k).map (k, ·)

/-- Gives `k` a value; the counter is then above `k`. -/
def insert (r : Reference α) (k : Nat) (v : α) : Reference α := ⟨r.values.insert k v, max r.next (k + 1)⟩

/-- Gives the next key a value. -/
def push (r : Reference α) (v : α) : Reference α := ⟨r.values.insert r.next v, r.next + 1⟩

/-- Gives a key another value or none; the counter stays. -/
def assign (r : Reference α) (k : Nat) : Option α → Reference α
  | some v => ⟨r.values.insert k v, r.next⟩
  | none => ⟨r.values.erase k, r.next⟩

/-- Visits one entry, whose value is kept, changed or dropped. -/
def visitEntry (visit : Nat → α → σ → Option α × σ) (reached : Reference α × σ) (entry : Nat × α) : Reference α × σ :=
  let slot := visit entry.1 entry.2 reached.2
  (reached.1.assign entry.1 slot.1, slot.2)

/-- Visits the entries in the order of their keys. -/
def walk (visit : Nat → α → σ → Option α × σ) (r : Reference α) (s : σ) : Reference α × σ :=
  r.entries.foldl (visitEntry visit) (r, s)

/-- The last value that a list of pairs has for each key; the counter is above the greatest key. -/
def ofList (pairs : List (Nat × α)) : Reference α :=
  let values := (pairs.reverse.map fun p => (⟨p.1, p.2⟩ : Sigma fun _ : Nat => α)).toFinmap
  ⟨values, values.keys.sup (· + 1)⟩

/-- What a reference answers to a request, what becomes of it, and what becomes of the caller's state. -/
def perform [Keyed α] (request : Request σ α) (r : Reference α) (s : σ) : Answer α × Reference α × σ :=
  match request with
  | .insert k v => (.value (r.values.lookup k), r.insert k v, s)
  | .insertKeyed v => (.value (r.values.lookup (Keyed.key v)), r.insert (Keyed.key v) v, s)
  | .push v => (.key r.next, r.push v, s)
  | .pushWith make =>
    let made := make r.next s
    (.key r.next, r.push made.1, made.2)
  | .get k => (.value (r.values.lookup k), r, s)
  | .change k change =>
    match r.values.lookup k with
    | none => (.value none, r, s)
    | some v =>
      let changed := change v s
      (.value (some changed.1), r.assign k (some changed.1), changed.2)
  | .contains k => (.truth (decide (k ∈ r.values)), r, s)
  | .remove k => (.value (r.values.lookup k), r.assign k none, s)
  | .index k =>
    match r.values.lookup k with
    | none => (.indexed (.error .absentKey), r, s)
    | some v => (.indexed (.ok v), r, s)
  | .changeIndex k change =>
    match r.values.lookup k with
    | none => (.indexed (.error .absentKey), r, s)
    | some v =>
      let changed := change v s
      (.indexed (.ok changed.1), r.assign k (some changed.1), changed.2)
  | .size => (.count r.values.keys.card, r, s)
  | .isEmpty => (.truth (decide (r.values.keys = ∅)), r, s)
  | .keys => (.keys r.keys, r, s)
  | .values => (.values (r.entries.map (·.2)), r, s)
  | .changeValues change =>
    let walked := r.walk (fun _ v s => ((change v s).map some id)) s
    (.done, walked.1, walked.2)
  | .entries => (.entries r.entries, r, s)
  | .changeEntries change =>
    let walked := r.walk (fun k v s => ((change k v s).map some id)) s
    (.done, walked.1, walked.2)
  | .retain visit =>
    let walked := r.walk (fun k v s => ((visit k v s).map (fun (keep, v) => if keep then some v else none) id)) s
    (.done, walked.1, walked.2)
  | .collect pairs => (.done, ofList pairs, s)

/-! ## Laws of references -/

@[simp] theorem next_assign (r : Reference α) (k : Nat) (v : Option α) : (r.assign k v).next = r.next := by
  cases v <;> rfl

@[simp] theorem lookup_assign (r : Reference α) (k j : Nat) (v : Option α) :
    (r.assign k v).values.lookup j = if j = k then v else r.values.lookup j := by
  by_cases hj : j = k
  · subst hj
    cases v <;> simp [assign]
  · rw [if_neg hj]
    cases v with
    | none => exact Finmap.lookup_erase_ne hj
    | some v => exact Finmap.lookup_insert_of_ne _ hj

theorem mem_keys {r : Reference α} {k : Nat} : k ∈ r.keys ↔ k ∈ r.values := by
  unfold keys
  rw [Finset.mem_sort, Finmap.mem_keys]

theorem pairwise_keys (r : Reference α) : r.keys.Pairwise (· < ·) :=
  (Finset.sortedLT_sort r.values.keys).pairwise

theorem mem_entries {r : Reference α} {k : Nat} {v : α} : (k, v) ∈ r.entries ↔ r.values.lookup k = some v := by
  unfold entries
  rw [List.mem_filterMap]
  constructor
  · rintro ⟨j, -, he⟩
    obtain ⟨w, hw, heq⟩ := Option.map_eq_some_iff.1 he
    cases heq
    exact hw
  · intro hv
    exact ⟨k, mem_keys.2 (Finmap.mem_iff.2 ⟨v, hv⟩), by rw [hv]; rfl⟩

theorem pairwise_entries (r : Reference α) : r.entries.Pairwise fun a b => a.1 < b.1 := by
  unfold entries
  refine r.pairwise_keys.filterMap _ ?_
  intro j j' hlt a ha b hb
  obtain ⟨v, -, rfl⟩ := Option.map_eq_some_iff.1 ha
  obtain ⟨w, -, rfl⟩ := Option.map_eq_some_iff.1 hb
  exact hlt

theorem ofList_concat (pairs : List (Nat × α)) (k : Nat) (v : α) :
    ofList (pairs ++ [(k, v)]) = (ofList pairs).insert k v := by
  have hvalues : (ofList (pairs ++ [(k, v)])).values = (ofList pairs).values.insert k v := by
    refine Finmap.ext_lookup fun j => ?_
    unfold ofList
    rw [List.reverse_append, Finmap.dlookup_list_toFinmap]
    by_cases hj : j = k
    · subst hj
      rw [Finmap.lookup_insert]
      exact List.dlookup_cons_eq _ _ _
    · rw [Finmap.lookup_insert_of_ne _ hj, Finmap.dlookup_list_toFinmap]
      exact List.dlookup_cons_ne _ _ hj
  have hkeys : ((ofList pairs).values.insert k v).keys = Insert.insert k (ofList pairs).values.keys := by
    ext j
    rw [Finset.mem_insert, Finmap.mem_keys, Finmap.mem_keys, Finmap.mem_insert]
  have hnext : (ofList (pairs ++ [(k, v)])).next = max (ofList pairs).next (k + 1) := by
    show (ofList (pairs ++ [(k, v)])).values.keys.sup (· + 1) = max ((ofList pairs).values.keys.sup (· + 1)) (k + 1)
    rw [hvalues, hkeys, Finset.sup_insert, max_comm]
  unfold insert
  rw [← hvalues, ← hnext]

end Reference

/-! ## One request -/

/-- A table and a reference hold the same values and hand out the same key next. -/
structure Refines (t : Table α) (r : Reference α) : Prop where
  get? : ∀ k, t.get? k = r.values.lookup k
  next : t.next = r.next

theorem refines_empty : Refines (empty : Table α) .empty := ⟨fun k => by simp [Reference.empty], rfl⟩

section
variable {t t' : Table α} {r r' : Reference α}

/-- What a table refines is determined by it, and determines it. -/
theorem Refines.eq_iff (h : Refines t r) (h' : Refines t' r') : t = t' ↔ r = r' := by
  constructor
  · rintro rfl
    have hvalues : r.values = r'.values := Finmap.ext_lookup fun k => (h.get? k).symm.trans (h'.get? k)
    exact Reference.ext hvalues (h.next.symm.trans h'.next)
  · rintro rfl
    exact ext (h.next.trans h'.next.symm) fun k => (h.get? k).trans (h'.get? k).symm

theorem Refines.insert (h : Refines t r) (k : Nat) (v : α) : Refines (t.insert k v) (r.insert k v) := by
  refine ⟨fun j => ?_, ?_⟩
  · rw [get?_insert, h.get? j]
    by_cases hj : j = k
    · subst hj
      simp [Reference.insert]
    · rw [if_neg hj]
      exact (Finmap.lookup_insert_of_ne _ hj).symm
  · rw [next_insert, h.next]
    rfl

theorem Refines.push (h : Refines t r) (v : α) : Refines (t.push v) (r.push v) := by
  refine ⟨fun j => ?_, ?_⟩
  · rw [get?_push, h.next, h.get? j]
    by_cases hj : j = r.next
    · subst hj
      simp [Reference.push]
    · rw [if_neg hj]
      exact (Finmap.lookup_insert_of_ne _ hj).symm
  · rw [next_push, h.next]
    rfl

/-- What is held and handed out after a key has been given another value, or none. -/
theorem Refines.assign (h : Refines t r) {k : Nat} {v : Option α}
    (hget : ∀ j, t'.get? j = if j = k then v else t.get? j) (hnext : t'.next = t.next) :
    Refines t' (r.assign k v) := by
  refine ⟨fun j => ?_, ?_⟩
  · rw [hget, Reference.lookup_assign, h.get? j]
  · rw [hnext, Reference.next_assign, h.next]

theorem Refines.mem_iff (h : Refines t r) {k : Nat} : k ∈ r.values ↔ t.contains k = true := by
  rw [Finmap.mem_iff, contains_iff]
  simp only [h.get?]

theorem Refines.entries (h : Refines t r) : r.entries = t.toList := by
  have hasymm : ∀ a b : Nat × α, a ∈ r.entries → b ∈ t.toList → a.1 < b.1 → b.1 < a.1 → a = b :=
    fun _ _ _ _ hab hba => absurd hab (Nat.lt_asymm hba)
  refine List.Perm.eq_of_pairwise hasymm r.pairwise_entries t.pairwise_toList ?_
  have hdistinct : ∀ a b : Nat × α, a.1 < b.1 → a ≠ b := by
    rintro a _ hab rfl
    exact Nat.lt_irrefl _ hab
  refine (List.perm_ext_iff_of_nodup (r.pairwise_entries.imp (hdistinct _ _))
    (t.pairwise_toList.imp (hdistinct _ _))).2 ?_
  rintro ⟨k, v⟩
  rw [Reference.mem_entries, mem_toList, h.get? k]

theorem Refines.keys (h : Refines t r) : r.keys = t.keys := by
  refine r.pairwise_keys.eq_of_mem_iff t.pairwise_keys fun k => ?_
  rw [Reference.mem_keys, h.mem_iff, mem_keys_iff_contains]

theorem Refines.size (h : Refines t r) : r.values.keys.card = t.size := by
  rw [size_eq_length_keys, ← h.keys]
  exact (Finset.length_sort (· ≤ ·)).symm

theorem refines_ofList (pairs : List (Nat × α)) : Refines (ofList pairs) (.ofList pairs) := by
  induction pairs using List.reverseRecOn with
  | nil => exact refines_empty
  | append_singleton pairs p ih =>
    obtain ⟨k, v⟩ := p
    rw [Reference.ofList_concat]
    have hlast : ofList (pairs ++ [(k, v)]) = (ofList pairs).insert k v := by
      unfold ofList
      rw [List.foldl_append]
      rfl
    rw [hlast]
    exact ih.insert k v

end

/-! ## Walks -/

/-- The entries of a row of slots whose first one is that of a key. -/
private def entriesFrom (k : Nat) (slots : List (Option α)) : List (Nat × α) :=
  (slots.zipIdx k).filterMap fun (slot, k) => slot.map (k, ·)

/-- Visiting the entries of a row one by one sees what visiting its slots sees, and leaves the same values. -/
private theorem walkFrom_refines (visit : Nat → α → σ → Option α × σ) (k : Nat) (slots : List (Option α))
    (r : Reference α) (s : σ) (h : ∀ i, slots.getD i none = r.values.lookup (k + i)) :
    let walked := walkFrom visit k slots s
    let visited := (entriesFrom k slots).foldl (Reference.visitEntry visit) (r, s)
    walked.2 = visited.2 ∧ walked.1.length = slots.length ∧ visited.1.next = r.next ∧
      (∀ i, walked.1.getD i none = visited.1.values.lookup (k + i)) ∧
      ∀ j, j < k → visited.1.values.lookup j = r.values.lookup j := by
  induction slots generalizing k r s with
  | nil => exact ⟨rfl, rfl, rfl, h, fun j _ => rfl⟩
  | cons slot slots ih =>
    have hrest : ∀ i, slots.getD i none = r.values.lookup (k + 1 + i) := fun i => by
      rw [Nat.add_right_comm k 1 i]
      exact h (i + 1)
    cases slot with
    | none =>
      obtain ⟨hstate, hlength, hnext, hvalues, hbelow⟩ := ih (k + 1) r s hrest
      refine ⟨hstate, congrArg (· + 1) hlength, hnext, fun i => ?_, fun j hj => hbelow j (by omega)⟩
      cases i with
      | zero => exact (h 0).trans (hbelow k (by omega)).symm
      | succ i => exact (hvalues i).trans (by rw [Nat.add_right_comm k 1 i]; rfl)
    | some v =>
      let slot := visit k v s
      have hassign : ∀ i, slots.getD i none = (r.assign k slot.1).values.lookup (k + 1 + i) := fun i => by
        rw [Reference.lookup_assign, if_neg (by omega), hrest i]
      obtain ⟨hstate, hlength, hnext, hvalues, hbelow⟩ := ih (k + 1) (r.assign k slot.1) slot.2 hassign
      refine ⟨hstate, congrArg (· + 1) hlength, hnext.trans (Reference.next_assign _ _ _), fun i => ?_, fun j hj => ?_⟩
      · cases i with
        | zero => exact ((hbelow k (by omega)).trans ((Reference.lookup_assign _ _ _ _).trans (if_pos rfl))).symm
        | succ i => exact (hvalues i).trans (by rw [Nat.add_right_comm k 1 i]; rfl)
      · exact (hbelow j (by omega)).trans ((Reference.lookup_assign _ _ _ _).trans (if_neg (by omega)))

/-- Walking through a table and through what it refines, a caller is asked the same and ends in the same state. -/
theorem Refines.walk {t : Table α} {r : Reference α} (h : Refines t r) (visit : Nat → α → σ → Option α × σ) (s : σ) :
    Refines (t.walk visit s).1 (r.walk visit s).1 ∧ (t.walk visit s).2 = (r.walk visit s).2 := by
  have hrow : ∀ i, t.slots.getD i none = r.values.lookup (0 + i) := fun i => by
    rw [Nat.zero_add]
    exact h.get? i
  obtain ⟨hstate, hlength, hnext, hvalues, -⟩ := walkFrom_refines visit 0 t.slots r s hrow
  have hentries : r.entries = entriesFrom 0 t.slots := h.entries
  unfold Reference.walk
  rw [hentries]
  refine ⟨⟨fun k => ?_, ?_⟩, hstate⟩
  · exact (hvalues k).trans (by rw [Nat.zero_add])
  · exact hlength.trans (h.next.trans hnext.symm)

/-! ## Histories -/

section
variable [Keyed α]

/-- A request finds in a table the answer that it finds in what the table refines, and leaves the two so. -/
theorem Refines.perform {t : Table α} {r : Reference α} (h : Refines t r) (request : Request σ α) (s : σ) :
    let asked := Table.perform request t s
    let expected := Reference.perform request r s
    asked.1 = expected.1 ∧ Refines asked.2.1 expected.2.1 ∧ asked.2.2 = expected.2.2 := by
  cases request with
  | insert k v => exact ⟨congrArg Answer.value (h.get? k), h.insert k v, rfl⟩
  | insertKeyed v => exact ⟨congrArg Answer.value (h.get? _), h.insert _ v, rfl⟩
  | push v => exact ⟨congrArg Answer.key h.next, h.push v, rfl⟩
  | pushWith make =>
    simp only [Table.perform, Reference.perform, pushWith, h.next]
    exact ⟨trivial, h.push _, trivial⟩
  | get k => exact ⟨congrArg Answer.value (h.get? k), h, rfl⟩
  | change k change =>
    simp only [Table.perform, Reference.perform, h.get? k]
    cases hv : r.values.lookup k with
    | none => exact ⟨rfl, h, rfl⟩
    | some v =>
      have hget : ∀ j, (t.modify k fun _ => (change v s).1).get? j =
          if j = k then some (change v s).1 else t.get? j := fun j => by
        rw [get?_modify]
        split
        · rename_i hj
          rw [hj, h.get? k, hv]
          rfl
        · rfl
      exact ⟨rfl, h.assign hget (next_modify _ _ _), rfl⟩
  | contains k =>
    refine ⟨congrArg Answer.truth ?_, h, rfl⟩
    rw [Bool.eq_iff_iff, decide_eq_true_iff, h.mem_iff]
  | remove k => exact ⟨congrArg Answer.value (h.get? k), h.assign (fun j => get?_erase t k j) (next_erase t k), rfl⟩
  | index k =>
    simp only [Table.perform, Reference.perform, get, h.get? k]
    cases r.values.lookup k with
    | none => exact ⟨rfl, h, rfl⟩
    | some v => exact ⟨rfl, h, rfl⟩
  | changeIndex k change =>
    simp only [Table.perform, Reference.perform, get, replace, contains, h.get? k]
    cases hv : r.values.lookup k with
    | none => exact ⟨rfl, h, rfl⟩
    | some v =>
      have hk := lt_next_of_get? ((h.get? k).trans hv)
      refine ⟨rfl, h.assign (fun j => get?_insert t k j _) ?_, rfl⟩
      rw [next_insert]
      omega
  | size => exact ⟨congrArg Answer.count h.size.symm, h, rfl⟩
  | isEmpty =>
    refine ⟨congrArg Answer.truth ?_, h, rfl⟩
    unfold isEmpty
    rw [Bool.eq_iff_iff, decide_eq_true_iff, beq_iff_eq, ← h.size, Finset.card_eq_zero]
  | keys => exact ⟨congrArg Answer.keys h.keys.symm, h, rfl⟩
  | values => exact ⟨congrArg Answer.values (by rw [values_eq_map_toList, h.entries]), h, rfl⟩
  | changeValues change => exact ⟨rfl, h.walk _ s⟩
  | entries => exact ⟨congrArg Answer.entries h.entries.symm, h, rfl⟩
  | changeEntries change => exact ⟨rfl, h.walk _ s⟩
  | retain visit => exact ⟨rfl, h.walk _ s⟩
  | collect pairs => exact ⟨rfl, refines_ofList pairs, rfl⟩

/-- Requests find in a table the answers that they find in what the table refines. -/
theorem Refines.performAll {t : Table α} {r : Reference α} (h : Refines t r) (requests : List (Request σ α)) (s : σ) :
    let asked := Table.performAll Table.perform requests t s
    let expected := Table.performAll Reference.perform requests r s
    asked.1 = expected.1 ∧ Refines asked.2.1 expected.2.1 ∧ asked.2.2 = expected.2.2 := by
  induction requests generalizing t r s with
  | nil => exact ⟨rfl, h, rfl⟩
  | cons request requests ih =>
    obtain ⟨hanswer, hrefines, hstate⟩ := h.perform request s
    obtain ⟨hanswers, hrefines, hstates⟩ := ih hrefines (Table.perform request t s).2.2
    simp only [Table.performAll]
    rw [hstate] at hanswers hrefines hstates ⊢
    exact ⟨by rw [hanswer, hanswers], hrefines, hstates⟩

end

/-! ## Keys handed out -/

/-- The keys handed out so far, after one more request was answered; a new start forgets them. -/
def issue (issued : List Nat) : Request σ α × Answer α → List Nat
  | (.collect _, _) => []
  | (_, .key k) => issued ++ [k]
  | (_, _) => issued

/-- The keys that answers have handed out since the last new start, in the order of the requests. -/
def handedOut (requests : List (Request σ α)) (answers : List (Answer α)) : List Nat :=
  (requests.zip answers).foldl issue []

theorem issue_key {request : Request σ α} (h : ∀ pairs, request ≠ .collect pairs) (issued : List Nat) (k : Nat) :
    issue issued (request, .key k) = issued ++ [k] := by
  cases request with
  | collect pairs => exact absurd rfl (h pairs)
  | _ => rfl

theorem issue_of_ne_key {request : Request σ α} {answer : Answer α} (h : ∀ pairs, request ≠ .collect pairs)
    (hkey : ∀ k, answer ≠ .key k) (issued : List Nat) : issue issued (request, answer) = issued := by
  cases request with
  | collect pairs => exact absurd rfl (h pairs)
  | _ =>
    cases answer with
    | key k => exact absurd rfl (hkey k)
    | _ => rfl

namespace Reference

@[simp] theorem next_walk (visit : Nat → α → σ → Option α × σ) (r : Reference α) (s : σ) :
    (r.walk visit s).1.next = r.next := by
  unfold walk
  generalize r.entries = entries
  induction entries generalizing r s with
  | nil => rfl
  | cons entry entries ih => exact (ih _ _).trans (next_assign _ _ _)

variable [Keyed α]

/-- A request that does not start anew is handed the counter, which then counts on, or it is handed no key and
the counter is not lowered. -/
theorem perform_cases {request : Request σ α} (h : ∀ pairs, request ≠ .collect pairs) (r : Reference α) (s : σ) :
    let asked := perform request r s
    (asked.1 = .key r.next ∧ asked.2.1.next = r.next + 1) ∨
      (∀ k, asked.1 ≠ .key k) ∧ r.next ≤ asked.2.1.next := by
  cases request with
  | collect pairs => exact absurd rfl (h pairs)
  | push v => exact .inl ⟨rfl, rfl⟩
  | pushWith make => exact .inl ⟨rfl, rfl⟩
  | insert k v => exact .inr ⟨fun _ => nofun, Nat.le_max_left _ _⟩
  | insertKeyed v => exact .inr ⟨fun _ => nofun, Nat.le_max_left _ _⟩
  | changeValues change => exact .inr ⟨fun _ => nofun, Nat.le_of_eq (next_walk _ _ _).symm⟩
  | changeEntries change => exact .inr ⟨fun _ => nofun, Nat.le_of_eq (next_walk _ _ _).symm⟩
  | retain visit => exact .inr ⟨fun _ => nofun, Nat.le_of_eq (next_walk _ _ _).symm⟩
  | change k | index k | changeIndex k =>
    simp only [perform]
    split
    · exact .inr ⟨fun _ => nofun, Nat.le_refl _⟩
    · exact .inr ⟨fun _ => nofun, Nat.le_refl _⟩
  | remove | get | contains | size | isEmpty | keys | values | entries =>
    exact .inr ⟨fun _ => nofun, Nat.le_refl _⟩

/-- Keys were handed out ascending, and the next one lies above them. -/
def Issued (r : Reference α) (issued : List Nat) : Prop := issued.Pairwise (· < ·) ∧ ∀ k ∈ issued, k < r.next

omit [Keyed α] in
theorem issued_nil (r : Reference α) : r.Issued [] := ⟨.nil, fun _ hk => absurd hk List.not_mem_nil⟩

theorem Issued.perform {r : Reference α} {issued : List Nat} (h : r.Issued issued) (request : Request σ α) (s : σ) :
    let asked := Reference.perform request r s
    asked.2.1.Issued (issue issued (request, asked.1)) := by
  obtain ⟨hascending, hbelow⟩ := h
  by_cases hcollect : ∃ pairs, request = .collect pairs
  · obtain ⟨pairs, rfl⟩ := hcollect
    exact issued_nil _
  have hcollect : ∀ pairs, request ≠ .collect pairs := fun pairs hp => hcollect ⟨pairs, hp⟩
  rcases perform_cases hcollect r s with ⟨hkey, hnext⟩ | ⟨hkey, hnext⟩
  · simp only [hkey, issue_key hcollect]
    refine ⟨List.pairwise_append.2 ⟨hascending, List.pairwise_singleton _ _, ?_⟩, ?_⟩
    · intro k hk j hj
      rw [List.mem_singleton.1 hj]
      exact hbelow k hk
    · intro k hk
      rw [hnext]
      rcases List.mem_append.1 hk with hk | hk
      · exact Nat.lt_succ_of_lt (hbelow k hk)
      · rw [List.mem_singleton.1 hk]
        exact Nat.lt_succ_self _
  · simp only [issue_of_ne_key hcollect hkey]
    exact ⟨hascending, fun k hk => Nat.lt_of_lt_of_le (hbelow k hk) hnext⟩

theorem Issued.performAll {r : Reference α} {issued : List Nat} (h : r.Issued issued) (requests : List (Request σ α))
    (s : σ) :
    let asked := Table.performAll Reference.perform requests r s
    asked.2.1.Issued ((requests.zip asked.1).foldl issue issued) := by
  induction requests generalizing r issued s with
  | nil => exact h
  | cons request requests ih => exact ih (h.perform request s) _

end Reference

/-! ## The specification -/

/-- Whatever is asked of a table that starts empty, the answers and the caller's states are those of a finite map
with a counter, and the two stay alike. What is listed, and what a walk visits, are the entries of that map, keys
ascending; a key that holds no value is the one that cannot be indexed; a key handed out is not handed out again
before a new start; and two tables are equal when their maps and their counters are. -/
theorem history_spec [Keyed α] (requests : List (Request σ α)) (s : σ) :
    let asked := performAll perform requests empty s
    let expected := performAll Reference.perform requests .empty s
    asked.1 = expected.1 ∧ asked.2.2 = expected.2.2 ∧ Refines asked.2.1 expected.2.1 ∧
      ((∀ k v, (k, v) ∈ asked.2.1.toList ↔ expected.2.1.values.lookup k = some v) ∧
        asked.2.1.toList.Pairwise (fun a b => a.1 < b.1) ∧
        ∀ (visit : Nat → α → σ → Option α × σ) (s : σ),
          (asked.2.1.walk visit s).2 = asked.2.1.toList.foldl (fun s entry => (visit entry.1 entry.2 s).2) s) ∧
      ((∀ k, asked.2.1.get k = .error .absentKey ↔ k ∉ expected.2.1.values) ∧
        ∀ k v, asked.2.1.replace k v = .error .absentKey ↔ k ∉ expected.2.1.values) ∧
      ((handedOut requests asked.1).Pairwise (· < ·) ∧ ∀ k ∈ handedOut requests asked.1, k < expected.2.1.next) ∧
      ∀ (τ : Type) (requests' : List (Request τ α)) (s' : τ),
        let asked' := performAll perform requests' empty s'
        let expected' := performAll Reference.perform requests' .empty s'
        asked.2.1 = asked'.2.1 ↔
          expected.2.1.values = expected'.2.1.values ∧ expected.2.1.next = expected'.2.1.next := by
  obtain ⟨hanswers, hrefines, hstate⟩ := refines_empty.performAll requests s
  have hissued := (Reference.issued_nil .empty).performAll requests s
  have habsent : ∀ k, k ∉ (performAll Reference.perform requests .empty s).2.1.values ↔
      (performAll perform requests empty s).2.1.get? k = none := fun k => by
    rw [hrefines.get? k, Finmap.lookup_eq_none]
  intro asked expected
  refine ⟨hanswers, hstate, hrefines, ⟨fun k v => ?_, pairwise_toList _, fun visit s => walk_visits visit _ s⟩,
    ⟨fun k => ?_, fun k v => ?_⟩, ?_, fun τ requests' s' => ?_⟩
  · rw [mem_toList, hrefines.get? k]
  · rw [habsent]
    unfold get
    cases asked.2.1.get? k <;> simp
  · rw [habsent]
    unfold replace contains
    cases asked.2.1.get? k <;> simp
  · rw [hanswers]
    exact hissued
  · obtain ⟨-, hrefines', -⟩ := refines_empty.performAll requests' s'
    exact (hrefines.eq_iff hrefines').trans Reference.ext_iff

end SSALint.Table
