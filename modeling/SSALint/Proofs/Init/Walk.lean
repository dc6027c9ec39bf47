/-
The fixpoint analysis against walks through the text. A walk goes from point to point of a function:
over the next instruction of a block, or from behind the last one to the head of a successor that is
there. A slot is pending exactly if some walk from behind an instruction that makes it to a load from
it passes no assigning store to it (`mem_pending_fixpoint_iff`).

What is known on coming to a block is compared with walks at every point of it, for walks that are
held to some kind of jumps (`KnownAlong.exposed_iff`). One direction follows the walk along what is
known, which every visit finds again; the other carries through every visit that an exposed slot has a
walk. The solution is the case in which every jump will do.
-/
import SSALint.Proofs.Flow.Func
import SSALint.Proofs.Init.Solver

namespace SSALint

namespace Func

variable {f : Func} {jumps : BlockId → BlockId → Prop} {x : LocalId}

/-! ## Walks -/

/-- Control can get from one point to another over the given instructions, by jumps of the given kind. -/
inductive WalkBy (f : Func) (jumps : BlockId → BlockId → Prop) (start : Point) : List Instr → Point → Prop where
  | here : WalkBy f jumps start [] start
  | instr {is : List Instr} {p : Point} {i : Instr} :
    WalkBy f jumps start is p → f.instrAt? p = some i → WalkBy f jumps start (is ++ [i]) p.next
  | jump {is : List Instr} {p : Point} {block : Block} {b : BlockId} :
    WalkBy f jumps start is p → f.blocks.get? p.block = some block → p.passed = block.instrs.length →
    b ∈ block.successors → f.blocks.contains b = true → jumps p.block b → WalkBy f jumps start is ⟨b, 0⟩

/-- Control can get from one point to another over the given instructions. -/
def Walk (f : Func) : Point → List Instr → Point → Prop := f.WalkBy fun _ _ => True

/-- A walk leads to a point from behind an instruction that makes a slot, and the slot is not assigned
on it. -/
def ReachesUnassigned (f : Func) (jumps : BlockId → BlockId → Prop) (x : LocalId) (p : Point) : Prop :=
  ∃ start made is, f.instrAt? start = some made ∧ made.slot? = some x ∧ f.WalkBy jumps start.next is p ∧
    ∀ i ∈ is, ¬ f.Assigns x i

theorem reachesUnassigned_of_makes {p : Point} {i : Instr} (hi : f.instrAt? p = some i) (hx : i.slot? = some x) :
    f.ReachesUnassigned jumps x p.next :=
  ⟨p, i, [], hi, hx, .here, fun _ hi => absurd hi List.not_mem_nil⟩

theorem reachesUnassigned_instr {p : Point} {i : Instr} (h : f.ReachesUnassigned jumps x p)
    (hi : f.instrAt? p = some i) (ha : ¬ f.Assigns x i) : f.ReachesUnassigned jumps x p.next := by
  obtain ⟨start, made, is, hm, hx, hw, his⟩ := h
  refine ⟨start, made, is ++ [i], hm, hx, .instr hw hi, fun j hj => ?_⟩
  rcases List.mem_append.1 hj with hj | hj
  · exact his j hj
  · rw [List.mem_singleton.1 hj]; exact ha

theorem reachesUnassigned_jump {b c : BlockId} {block : Block}
    (h : f.ReachesUnassigned jumps x ⟨b, block.instrs.length⟩) (hb : f.blocks.get? b = some block)
    (hc : c ∈ block.successors) (hin : f.blocks.contains c = true) (hjump : jumps b c) :
    f.ReachesUnassigned jumps x ⟨c, 0⟩ := by
  obtain ⟨start, made, is, hm, hx, hw, his⟩ := h
  exact ⟨start, made, is, hm, hx, .jump hw hb rfl hc hin hjump, his⟩

/-! ## What is known at points -/

/-- What is known at a point: what holds at the head of the block, carried over the instructions that
lie behind. -/
def slotsAt (f : Func) (known : Table Slots) (p : Point) : Slots :=
  match f.blocks.get? p.block with
  | some block => (f.slotsAtHead known p.block).transfer f (block.instrs.take p.passed)
  | none => .empty

theorem slotsAt_head {known : Table Slots} {b : BlockId} (hb : f.blocks.contains b = true) :
    f.slotsAt known ⟨b, 0⟩ = f.slotsAtHead known b := by
  obtain ⟨block, hblock⟩ := Table.contains_iff.1 hb
  unfold slotsAt
  simp only [hblock, List.take_zero]
  rfl

theorem slotsAt_next {known : Table Slots} {p : Point} {i : Instr}
    (hi : f.instrAt? p = some i) : f.slotsAt known p.next = (f.slotsAt known p).step f i := by
  unfold instrAt? at hi
  obtain ⟨block, hb, hk⟩ := Option.bind_eq_some_iff.1 hi
  unfold slotsAt Point.next
  simp only [hb]
  exact Slots.transfer_take_succ f _ hk

theorem slotsAt_end {known : Table Slots} {b : BlockId} {block : Block}
    (hb : f.blocks.get? b = some block) :
    f.slotsAtEnd? known b = some (f.slotsAt known ⟨b, block.instrs.length⟩) := by
  rw [slotsAtEnd?_eq_some_iff]
  refine ⟨block, hb, ?_⟩
  unfold slotsAt
  simp only [hb, List.take_length]

/-- At the head of a block a slot is exposed if it is at the end of a block that leads there. -/
theorem exposed_slotsAtHead_iff {known : Table Slots} {c : BlockId} :
    (f.slotsAtHead known c).Exposed x ↔
      ∃ b l, f.flow.Edge b c ∧ known.get? b = some l ∧ l.Exposed x := by
  unfold slotsAtHead
  rw [Slots.exposed_joinAll_iff]
  constructor
  · rintro ⟨l, hl, hx⟩
    obtain ⟨b, hb, hk⟩ := List.mem_filterMap.1 hl
    exact ⟨b, l, Graph.mem_predecessors.1 hb, hk, hx⟩
  · rintro ⟨b, l, hb, hk, hx⟩
    exact ⟨l, List.mem_filterMap.2 ⟨b, Graph.mem_predecessors.2 hb, hk⟩, hx⟩

/-! ## What comes along walks -/

/-- A slot that is known to be exposed at the end of a block is unassigned on a walk to it. -/
def Walked (f : Func) (jumps : BlockId → BlockId → Prop) (known : Table Slots) : Prop :=
  ∀ b block l x, f.blocks.get? b = some block → known.get? b = some l → l.Exposed x →
    f.ReachesUnassigned jumps x ⟨b, block.instrs.length⟩

/-- What is known at the ends of blocks from walks, all of them blocks that may jump to one, holds from walks at
every point of it. -/
theorem reachesUnassigned_of_exposed {known : Table Slots} (h : f.Walked jumps known) {b : BlockId} {block : Block}
    (hjumps : ∀ c l, known.get? c = some l → jumps c b) (hb : f.blocks.get? b = some block) :
    ∀ k ≤ block.instrs.length, (f.slotsAt known ⟨b, k⟩).Exposed x → f.ReachesUnassigned jumps x ⟨b, k⟩ := by
  intro k
  induction k with
  -- A slot is exposed at the head of a block only if it was at the end of one that leads there.
  | zero =>
    intro _ hx
    have hin := Table.contains_iff.2 ⟨block, hb⟩
    rw [slotsAt_head hin, exposed_slotsAtHead_iff] at hx
    obtain ⟨c, l, hedge, hl, hlx⟩ := hx
    obtain ⟨source, hc, hsucc⟩ := edge_flow_iff.1 hedge
    exact reachesUnassigned_jump (h c source l x hc hl hlx) hc hsucc hin (hjumps c l hl)
  | succ k ih =>
    intro hk hx
    have hi : f.instrAt? ⟨b, k⟩ = some block.instrs[k] := by
      rw [instrAt?_of_get? hb, List.getElem?_eq_getElem hk]
    have hnext : f.slotsAt known ⟨b, k + 1⟩ = (f.slotsAt known ⟨b, k⟩).step f block.instrs[k] :=
      slotsAt_next hi
    rw [hnext, Slots.exposed_step_iff] at hx
    rcases hx with hmade | ⟨hx, hassign⟩
    · exact reachesUnassigned_of_makes hi hmade
    · exact reachesUnassigned_instr (ih (Nat.le_of_succ_le hk) hx) hi hassign

/-- What is known on coming to each block: of the blocks that may jump to it, and of no others, what is found at
their ends, and that from walks. -/
structure KnownAlong (f : Func) (jumps : BlockId → BlockId → Prop) (known : BlockId → Table Slots) : Prop where
  climbing : ∀ b, f.Climbing (known b)
  settled : ∀ b c l, jumps b c → f.slotsAtEnd? (known b) b = some l → (known c).get? b = some l
  along : ∀ b c l, (known c).get? b = some l → jumps b c
  walked : ∀ b, f.Walked jumps (known b)

variable {known : BlockId → Table Slots}

/-- A slot stays exposed along a walk that does not assign it. -/
theorem KnownAlong.exposed_of_walk (h : f.KnownAlong jumps known) {start p : Point} {is : List Instr}
    (hw : f.WalkBy jumps start is p) (hs : (f.slotsAt (known start.block) start).Exposed x)
    (his : ∀ i ∈ is, ¬ f.Assigns x i) : (f.slotsAt (known p.block) p).Exposed x := by
  induction hw with
  | here => exact hs
  -- An instruction of the walk does not assign the slot, so it stays exposed behind it.
  | @instr is p i _ hi ih =>
    have hnext : f.slotsAt (known p.block) p.next = (f.slotsAt (known p.block) p).step f i := slotsAt_next hi
    have hp := ih fun j hj => his j (List.mem_append_left _ hj)
    show (f.slotsAt (known p.block) p.next).Exposed x
    rw [hnext, Slots.exposed_step_iff]
    exact .inr ⟨hp, his i (List.mem_append_right _ (List.mem_singleton.2 rfl))⟩
  -- What holds at the end of the block is what is known of it where the jump leads.
  | @jump is p block b _ hb hend hsucc hin hjump ih =>
    obtain ⟨c, k⟩ := p
    simp only at hb hend hjump
    subst hend
    rw [slotsAt_head hin, exposed_slotsAtHead_iff]
    exact ⟨c, _, edge_flow_iff.2 ⟨block, hb, hsucc⟩, h.settled c b _ hjump (slotsAt_end hb), ih his⟩

/-- A slot is exposed at a point of a block exactly if it is unassigned on a walk to it. -/
theorem KnownAlong.exposed_iff (h : f.KnownAlong jumps known) {p : Point} {i : Instr} (hp : f.instrAt? p = some i) :
    (f.slotsAt (known p.block) p).Exposed x ↔ f.ReachesUnassigned jumps x p := by
  constructor
  · obtain ⟨b, k⟩ := p
    obtain ⟨block, hb, hk⟩ := Option.bind_eq_some_iff.1 hp
    have hlt := (List.getElem?_eq_some_iff.1 hk).1
    exact reachesUnassigned_of_exposed (h.walked b) (fun c l => h.along c b l) hb k (Nat.le_of_lt hlt)
  · rintro ⟨start, made, is, hm, hx, hw, his⟩
    refine h.exposed_of_walk hw ?_ his
    have hnext : f.slotsAt (known start.block) start.next = (f.slotsAt (known start.block) start).step f made :=
      slotsAt_next hm
    show (f.slotsAt (known start.block) start.next).Exposed x
    rw [hnext, Slots.exposed_step_iff]
    exact .inl hx

/-! ## Reads -/

theorem mem_pending_iff_mem_reads {a : InitAnalysis} : x ∈ a.pending ↔ x ∈ a.recording.reads := by
  unfold InitAnalysis.pending
  rw [List.mem_mergeSort, List.mem_eraseDups]

/-- What is recorded in a block: the loads from slots that are exposed where they stand. -/
theorem mem_badReadsIn_iff {known : Table Slots} (h : f.Climbing known) {b : BlockId} :
    x ∈ f.badReadsIn known b ↔
      ∃ k i, f.instrAt? ⟨b, k⟩ = some i ∧ i.LoadsFrom x ∧ (f.slotsAt known ⟨b, k⟩).Exposed x := by
  unfold badReadsIn
  cases hb : f.blocks.get? b with
  | none => simp [instrAt?, hb]
  | some block =>
    simp only
    rw [Slots.mem_badReads_iff f (fun i hi x hx => mem_madeSlots hb hi hx) (tracksIn_slotsAtHead h b)]
    simp only [instrAt?_of_get? hb, slotsAt, hb]

/-- What is recorded in all blocks: the loads that a walk leads to from behind what makes the slot. -/
theorem KnownAlong.mem_reads_iff (h : f.KnownAlong jumps known) :
    x ∈ (f.blocks.keys.flatMap fun b => f.badReadsIn (known b) b) ↔
      ∃ (start : Point) (made : Instr) (is : List Instr) (stop : Point) (load : Instr),
        f.instrAt? start = some made ∧ made.slot? = some x ∧
        f.WalkBy jumps start.next is stop ∧ (∀ i ∈ is, ¬ f.Assigns x i) ∧
        f.instrAt? stop = some load ∧ load.LoadsFrom x := by
  rw [List.mem_flatMap]
  constructor
  · rintro ⟨b, -, hx⟩
    obtain ⟨k, load, hload, hfrom, hexp⟩ := (mem_badReadsIn_iff (h.climbing b)).1 hx
    obtain ⟨start, made, is, hm, hmx, hw, his⟩ := (h.exposed_iff hload).1 hexp
    exact ⟨start, made, is, ⟨b, k⟩, load, hm, hmx, hw, his, hload, hfrom⟩
  · rintro ⟨start, made, is, ⟨b, k⟩, load, hm, hmx, hw, his, hload, hfrom⟩
    have hexp := (h.exposed_iff hload).2 ⟨start, made, is, hm, hmx, hw, his⟩
    obtain ⟨block, hb, -⟩ := Option.bind_eq_some_iff.1 hload
    exact ⟨b, Table.mem_keys.2 ⟨block, hb⟩,
      (mem_badReadsIn_iff (h.climbing b)).2 ⟨k, load, hload, hfrom, hexp⟩⟩

/-! ## The solution -/

theorem walked_visit {known : Table Slots} (h : f.Walked jumps known) {b : BlockId}
    (hjumps : ∀ c l, known.get? c = some l → jumps c b) : f.Walked jumps (f.visit known b) := by
  intro c block l x hc hl hx
  cases hb : f.slotsAtEnd? known b with
  | none =>
    rw [visit_of_none hb] at hl
    exact h c block l x hc hl hx
  | some l' =>
    rw [get?_visit hb] at hl
    split at hl
    · rename_i hcb
      cases hl; subst hcb
      rw [slotsAt_end hc] at hb
      cases hb
      exact reachesUnassigned_of_exposed h hjumps hc _ (le_refl _) hx
    · exact h c block l x hc hl hx

theorem walked_empty : f.Walked jumps .empty := by
  intro b block l x _ hl
  rw [Table.get?_empty] at hl
  cases hl

/-- The solution is known on coming to any block. -/
theorem knownAlong_solve (f : Func) : f.KnownAlong (fun _ _ => True) fun _ => f.solve.known where
  climbing _ := climbing_solve
  settled b _ l _ hl := solve_settled b l hl
  along _ _ _ _ := trivial
  walked _ := solve_invariant walked_empty fun _ _ h => walked_visit h fun _ _ _ => trivial

/-- A slot is pending after solving exactly if some walk leads from behind an instruction that makes
it to a load from it without an assigning store to it, whatever loops, blocks out of reach and
repeated edges the function has. -/
theorem mem_pending_fixpoint_iff (f : Func) (x : LocalId) :
    x ∈ (f.initAnalysis .fixpoint).pending ↔
      ∃ (start : Point) (made : Instr) (is : List Instr) (stop : Point) (load : Instr),
        f.instrAt? start = some made ∧ made.slot? = some x ∧
        f.Walk start.next is stop ∧ (∀ i ∈ is, ¬ f.Assigns x i) ∧
        f.instrAt? stop = some load ∧ load.LoadsFrom x := by
  have hreads : (f.initAnalysis .fixpoint).recording.reads =
      f.blocks.keys.flatMap (f.badReadsIn f.solve.known) := by
    show (f.sweep f.solve.known f.blocks.keys).reads = _
    rw [sweep_of_settled solve_settled]
  rw [mem_pending_iff_mem_reads, hreads]
  exact f.knownAlong_solve.mem_reads_iff

end Func
end SSALint
