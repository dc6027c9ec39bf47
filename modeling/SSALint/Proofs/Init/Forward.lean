/-
Sweeps in an order that no edge goes against. Such a sweep visits a block when all that leads to it is settled, so it
ends in a solution at once (`settled_of_forward`). The solver visits blocks in reverse postorder, which is such an
order where control flow has no cycle: it finds the solution in its first sweep and is done with the second
(`solve_acyclic`). A single pass visits blocks in stored order. It never knows more than the solution, and knows as
much where edges only lead to later blocks (`singlePass_le_fixpoint`).
-/
import SSALint.Log
import SSALint.Proofs.Flow.Postorder
import SSALint.Proofs.Init.Ascent
import SSALint.Proofs.Init.Least

namespace SSALint.Func

variable {f : Func}

/-! ## Orders that no edge goes against -/

/-- No edge leads from a block of a list to itself or to one before it. -/
structure Forward (f : Func) (bs : List BlockId) : Prop where
  onward : bs.Pairwise fun b c => b ≠ c ∧ ¬ f.Leads c b
  loopless : ∀ b ∈ bs, ¬ f.Leads b b

theorem Forward.tail {b : BlockId} {bs : List BlockId} (h : f.Forward (b :: bs)) : f.Forward bs :=
  ⟨(List.pairwise_cons.1 h.onward).2, fun c hc => h.loopless c (List.mem_cons_of_mem _ hc)⟩

/-- What a visit finds over a forward order it would find again when the sweep is over. -/
theorem sweep_forward {bs : List BlockId} (h : f.Forward bs) (known : Table Slots) :
    (∀ b ∈ bs, ∀ l, f.slotsAtEnd? (f.sweep known bs).known b = some l →
      (f.sweep known bs).known.get? b = some l) ∧
    (f.sweep known bs).reads = bs.flatMap (f.badReadsIn (f.sweep known bs).known) := by
  induction bs generalizing known with
  | nil => exact ⟨fun b hb => absurd hb List.not_mem_nil, rfl⟩
  | cons b bs ih =>
    obtain ⟨honward, -⟩ := List.pairwise_cons.1 h.onward
    obtain ⟨hsettled, hreads⟩ := ih h.tail (f.visit known b)
    have hnotin : b ∉ bs := fun hb => (honward b hb).1 rfl
    -- Neither the visit nor what follows it touches a block that leads to the one visited.
    have hsame : ∀ c, f.Leads c b → (f.sweep (f.visit known b) bs).known.get? c = known.get? c := by
      intro c hlead
      have hcb : c ≠ b := fun he => h.loopless b List.mem_cons_self (he ▸ hlead)
      rw [get?_sweep_of_not_mem fun hc => (honward c hc).2 hlead, get?_visit_of_ne hcb]
    rw [known_sweep_cons]
    refine ⟨List.forall_mem_cons.2 ⟨fun l hl => ?_, hsettled⟩, ?_⟩
    · rw [slotsAtEnd?_congr hsame] at hl
      rw [get?_sweep_of_not_mem hnotin, get?_visit hl, if_pos rfl]
    · rw [reads_sweep_cons, hreads, List.flatMap_cons, badReadsIn_congr hsame]

/-- A sweep over all blocks in a forward order ends in a solution. -/
theorem settled_of_forward {bs : List BlockId} (h : f.Forward bs)
    (hall : ∀ b, f.blocks.contains b = true → b ∈ bs) (known : Table Slots) :
    f.Settled (f.sweep known bs).known := by
  intro b l hl
  obtain ⟨block, hblock, -⟩ := slotsAtEnd?_eq_some_iff.1 hl
  exact (sweep_forward h known).1 b (hall b (Table.contains_iff.2 ⟨block, hblock⟩)) l hl

/-! ## Solving without cycles -/

/-- The loop is told in full by what it starts from. -/
theorem Sweeps.unique {known known' known'' : Table Slots} {m n : Nat} (h : f.Sweeps known m known')
    (h' : f.Sweeps known n known'') : m = n ∧ known' = known'' := by
  induction h generalizing n with
  | last hc =>
    cases h' with
    | last => exact ⟨rfl, rfl⟩
    | again hne => exact absurd hc hne
  | again hne _ ih =>
    cases h' with
    | last hc => exact absurd hc hne
    | again _ h' =>
      obtain ⟨rfl, rfl⟩ := ih h'
      exact ⟨rfl, rfl⟩

/-- From nothing a sweep changes something if there is a block. -/
theorem changes_sweep_empty {b : BlockId} (hb : f.blocks.contains b = true) {bs : List BlockId} (hmem : b ∈ bs) :
    (f.sweep .empty bs).changes ≠ [] := by
  intro hnone
  obtain ⟨block, hblock⟩ := Table.contains_iff.1 hb
  have hknown := (settled_of_sweep hnone).2 b hmem _ (slotsAt_end hblock)
  rw [Table.get?_empty] at hknown
  cases hknown

/-- Reverse postorder is a forward order where control flow has no cycle. -/
theorem forward_reversePostorder (hacyclic : ∀ b, ¬ Relation.TransGen f.Leads b b) (start : BlockId) :
    f.Forward (f.flow.reversePostorder start) where
  onward := by
    refine List.Pairwise.and (Graph.nodup_reversePostorder start) ?_
    refine (f.pairwise_reversePostorder_flow start).imp fun {b c} hback hlead => ?_
    exact hacyclic c (.head' hlead (hback hlead))
  loopless b _ hlead := hacyclic b (.single hlead)

/-- Where control gets to every block the solver visits all of them in reverse postorder. -/
theorem solvingOrder_of_reaches {start : BlockId} (hstart : f.Begins start)
    (hreach : ∀ b, f.blocks.contains b = true → Relation.ReflTransGen f.Leads start b) :
    f.solvingOrder = f.flow.reversePostorder start := by
  have hflow : f.flowOrder = f.flow.reversePostorder start := by
    unfold flowOrder
    rw [entry?_eq_some_iff.2 hstart]
  have hrest : (f.blocks.keys.filter fun b => !f.flowOrder.contains b) = [] := by
    refine List.filter_eq_nil_iff.2 fun b hb => ?_
    have hcontains := Table.mem_keys_iff_contains.1 hb
    simp [hflow, mem_reversePostorder_flow_iff, hcontains, hreach b hcontains]
  unfold solvingOrder
  rw [hrest, List.append_nil, hflow]

/-- Where control flow has no cycle and gets to every block, solving takes two sweeps, and its log says so. -/
theorem solve_acyclic {f : Func} {start : BlockId} (hstart : f.Begins start)
    (hreach : ∀ b, f.blocks.contains b = true → Relation.ReflTransGen f.Leads start b)
    (hacyclic : ∀ b, ¬ Relation.TransGen f.Leads b b) :
    f.Sweeps .empty 2 f.solve.known ∧ f.solve.rounds = 2 ∧
      (f.solve.log f.name).getLast? =
        some ⟨.debug, f.name ++ ": lattices converged after 2 iterations"⟩ := by
  have hforward : f.Forward f.solvingOrder := by
    rw [solvingOrder_of_reaches hstart hreach]
    exact forward_reversePostorder hacyclic start
  have hall : ∀ b, f.blocks.contains b = true → b ∈ f.solvingOrder := fun b hb =>
    f.solvingOrder_perm.mem_iff.2 (Table.mem_keys_iff_contains.2 hb)
  -- The first sweep changes the block that control enters and ends in a solution, over which the next one is idle.
  have hfirst := changes_sweep_empty hstart.1 (hall start hstart.1)
  have hsecond := sweep_of_settled (settled_of_forward hforward hall .empty) f.solvingOrder
  have htwo : f.Sweeps .empty 2 (f.sweep .empty f.solvingOrder).known := by
    refine .again hfirst ?_
    have hlast : f.Sweeps (f.sweep .empty f.solvingOrder).known 1 _ := .last (by rw [hsecond])
    rwa [hsecond] at hlast
  obtain ⟨hrounds, hknown⟩ := f.sweeps_solve.unique htwo
  refine ⟨hknown ▸ htwo, hrounds, ?_⟩
  unfold Solution.log
  rw [hrounds, List.getLast?_append]
  rfl

/-- A numbering that rises along every edge rules out cycles. -/
theorem acyclic_of_rising {number : BlockId → Nat} (h : ∀ b c, f.Leads b c → number b < number c) (b : BlockId) :
    ¬ Relation.TransGen f.Leads b b := by
  have hrises : ∀ c, Relation.TransGen f.Leads b c → number b < number c := by
    intro c hp
    induction hp with
    | single hlead => exact h _ _ hlead
    | tail _ hlead ih => exact ih.trans (h _ _ hlead)
  exact fun hp => Nat.lt_irrefl _ (hrises b hp)

/-- A slot is assigned on one of two ways, and read where they meet again. A switch names one way twice. -/
def diamond (left right meet : BlockId) : Func where
  id := 0
  name := "diamond"
  ret := .void
  params := []
  variadic := false
  locals := .ofValues [⟨0, .ptr, some "x"⟩, ⟨1, .int 32, some "y"⟩]
  blocks := .ofList [
    (0, ⟨0, none, [⟨some 0, .alloca (.int 32)⟩],
      .switch (.const (.int 32 0)) left [(.int 32 1, right), (.int 32 2, left)]⟩),
    (left, ⟨left, none, [⟨none, .store (.const (.int 32 7)) (.var 0)⟩], .br meet⟩),
    (right, ⟨right, none, [], .br meet⟩),
    (meet, ⟨meet, none, [⟨some 1, .load (.int 32) (.var 0)⟩], .ret none⟩)]

/-- Whatever the terminators say can be said of the graph of all blocks. -/
theorem leads_of_forall_keys {R : BlockId → BlockId → Prop} (h : ∀ b ∈ f.blocks.keys, ∀ c ∈ f.successors b, R b c)
    (b c : BlockId) (hlead : f.Leads b c) : R b c :=
  have ⟨hb, hc⟩ := edge_flow_iff.2 hlead
  h b hb c hc

/-- The blocks are stored against the order in which control passes through them. -/
theorem solve_acyclic_diamond : (diamond 3 2 1).Begins 0 ∧
    (∀ b, (diamond 3 2 1).blocks.contains b = true → Relation.ReflTransGen (diamond 3 2 1).Leads 0 b) ∧
    (∀ b, ¬ Relation.TransGen (diamond 3 2 1).Leads b b) ∧
    (diamond 3 2 1).Sweeps .empty 2 (diamond 3 2 1).solve.known ∧ (diamond 3 2 1).solve.rounds = 2 ∧
      ((diamond 3 2 1).solve.log "diamond").getLast? =
        some ⟨.debug, "diamond" ++ ": lattices converged after 2 iterations"⟩ := by
  have hstart : (diamond 3 2 1).Begins 0 := entry?_eq_some_iff.1 (by decide)
  have hreach : ∀ b, (diamond 3 2 1).blocks.contains b = true →
      Relation.ReflTransGen (diamond 3 2 1).Leads 0 b := by
    intro b hb
    have hleft : (diamond 3 2 1).Leads 0 3 := edge_flow_iff.1 ⟨by decide, by decide⟩
    have hright : (diamond 3 2 1).Leads 0 2 := edge_flow_iff.1 ⟨by decide, by decide⟩
    have hmeet : (diamond 3 2 1).Leads 3 1 := edge_flow_iff.1 ⟨by decide, by decide⟩
    have hkeys : b ∈ [0, 1, 2, 3] := Table.mem_keys_iff_contains.2 hb
    simp only [List.mem_cons, List.not_mem_nil, or_false] at hkeys
    rcases hkeys with rfl | rfl | rfl | rfl
    · exact .refl
    · exact .tail (.single hleft) hmeet
    · exact .single hright
    · exact .single hleft
  have hacyclic : ∀ b, ¬ Relation.TransGen (diamond 3 2 1).Leads b b := by
    refine @acyclic_of_rising (diamond 3 2 1) (fun b => (4 - b) % 4) ?_
    exact leads_of_forall_keys (by decide)
  exact ⟨hstart, hreach, hacyclic, solve_acyclic hstart hreach hacyclic⟩

/-! ## The single pass below the solution -/

theorem KnownLe.antisymm {known known' : Table Slots} (h : KnownLe known known') (h' : KnownLe known' known)
    (b : BlockId) : known.get? b = known'.get? b := by
  ext l
  constructor
  · intro hl
    obtain ⟨m, hm, hlm⟩ := h b l hl
    obtain ⟨n, hn, hmn⟩ := h' b m hm
    cases hl.symm.trans hn
    rw [hm, le_antisymm hlm hmn]
  · intro hl
    obtain ⟨m, hm, hlm⟩ := h' b l hl
    obtain ⟨n, hn, hmn⟩ := h b m hm
    cases hl.symm.trans hn
    rw [hm, le_antisymm hlm hmn]

/-- What is recorded over the solution. -/
theorem recording_fixpoint (f : Func) : (f.initAnalysis .fixpoint).recording =
    ⟨f.solve.known, [], f.blocks.keys.flatMap (f.badReadsIn f.solve.known)⟩ :=
  sweep_of_settled solve_settled _

/-- Whoever knows more finds more reads. -/
theorem badReadsIn_mono {known known' : Table Slots} (h : f.Climbing known) (h' : f.Climbing known')
    (hle : KnownLe known known') {b : BlockId} {x : LocalId} (hx : x ∈ f.badReadsIn known b) :
    x ∈ f.badReadsIn known' b := by
  obtain ⟨k, i, hi, hload, hexposed⟩ := (mem_badReadsIn_iff h).1 hx
  obtain ⟨block, hb, -⟩ := Option.bind_eq_some_iff.1 hi
  refine (mem_badReadsIn_iff h').2 ⟨k, i, hi, hload, Slots.exposed_mono ?_ hexposed⟩
  unfold slotsAt
  simp only at hb
  simp only [hb]
  exact Slots.transfer_mono f _ (slotsAtHead_mono hle b)

theorem singlePass_knownLe (f : Func) : KnownLe f.singlePass f.solve.known := by
  refine sweep_invariant (P := (KnownLe · f.solve.known)) (fun _ b h => visit_knownLe solve_settled h b) ?_ _
  intro b l hl
  rw [Table.get?_empty] at hl
  cases hl

/-- The stored order is a forward one where edges only lead to later blocks. -/
theorem forward_stored (h : ∀ b c, f.Leads b c → b < c) : f.Forward f.blocks.keys where
  onward := f.blocks.pairwise_keys.imp fun {b c} hlt =>
    ⟨Nat.ne_of_lt hlt, fun hlead => Nat.lt_asymm hlt (h c b hlead)⟩
  loopless b _ hlead := Nat.lt_irrefl b (h b b hlead)

/-- Of every block a single pass knows at most what the solution says, so it reports no slot that the solution does
not report. Where edges only lead to later blocks it knows as much and reports the same slots. -/
theorem singlePass_le_fixpoint (f : Func) :
    (∀ b, f.blocks.contains b = true → ∃ l l', (f.initAnalysis .singlePass).known.get? b = some l ∧
      (f.initAnalysis .fixpoint).known.get? b = some l' ∧ l ≤ l') ∧
    (∀ x ∈ (f.initAnalysis .singlePass).pending, x ∈ (f.initAnalysis .fixpoint).pending) ∧
    ((∀ b c, f.Leads b c → b < c) →
      (∀ b, (f.initAnalysis .singlePass).known.get? b = (f.initAnalysis .fixpoint).known.get? b) ∧
      (f.initAnalysis .singlePass).pending = (f.initAnalysis .fixpoint).pending) := by
  have hsingle : (f.initAnalysis .singlePass).known = f.singlePass := rfl
  have hfixpoint : (f.initAnalysis .fixpoint).known = f.solve.known := congrArg Sweep.known f.recording_fixpoint
  have hle := f.singlePass_knownLe
  rw [hsingle, hfixpoint]
  refine ⟨fun b hb => ?_, fun x hx => ?_, fun hlater => ?_⟩
  · obtain ⟨block, hblock⟩ := Table.contains_iff.1 hb
    have hl := f.get?_singlePass b
    rw [slotsAt_end hblock] at hl
    obtain ⟨l', hl', hlle⟩ := hle b _ hl
    exact ⟨_, l', hl, hl', hlle⟩
  · rw [mem_pending_iff_mem_reads, f.sweep_stored.2.2, List.mem_flatMap] at hx
    obtain ⟨b, hb, hx⟩ := hx
    rw [mem_pending_iff_mem_reads, recording_fixpoint, List.mem_flatMap]
    refine ⟨b, hb, badReadsIn_mono (f.climbing_before b) climbing_solve (fun c l hl => ?_) hx⟩
    exact hle c l (get?_before_eq_some_iff.1 hl).1
  · have hforward := forward_stored hlater
    have hsettled : f.Settled f.singlePass :=
      settled_of_forward hforward (fun b hb => Table.mem_keys_iff_contains.2 hb) .empty
    have hsame := hle.antisymm (solve_le hsettled)
    have hreads : (f.initAnalysis .singlePass).recording.reads = (f.initAnalysis .fixpoint).recording.reads := by
      rw [recording_fixpoint]
      show (f.sweep .empty f.blocks.keys).reads = _
      rw [(sweep_forward hforward .empty).2]
      exact List.flatMap_congr fun b _ => badReadsIn_congr fun c _ => hsame c
    refine ⟨hsame, ?_⟩
    unfold InitAnalysis.pending
    rw [hreads]

/-- A pass over blocks that are stored as control passes through them finds what solving finds. -/
theorem singlePass_le_fixpoint_diamond : (∀ b c, (diamond 1 2 3).Leads b c → b < c) ∧
    ((diamond 1 2 3).initAnalysis .singlePass).pending = ((diamond 1 2 3).initAnalysis .fixpoint).pending := by
  have hlater : ∀ b c, (diamond 1 2 3).Leads b c → b < c := leads_of_forall_keys (by decide)
  exact ⟨hlater, ((singlePass_le_fixpoint (diamond 1 2 3)).2.2 hlater).2⟩

example : ((diamond 3 2 1).initAnalysis .singlePass).pending = [] ∧
    ((diamond 3 2 1).initAnalysis .fixpoint).pending = [0] := by cbv

end SSALint.Func
