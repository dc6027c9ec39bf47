/-
The single pass against walks that ascend. A pass in stored order finds at the end of each block what the blocks
before it tell (`get?_singlePass`), so what it knows at a point comes over jumps to later blocks only. A slot is
pending exactly if some walk without a jump back, from behind an instruction that makes it to a load from it, passes
no assigning store to it (`mem_pending_singlePass_iff`).
-/
import SSALint.Proofs.Init.Walk

namespace SSALint.Func

variable {f : Func}

/-! ## One sweep in stored order -/

/-- At the head of a block only what is known of the blocks that lead there counts. -/
theorem slotsAtHead_congr {known known' : Table Slots} {b : BlockId}
    (h : ∀ c, f.Leads c b → known.get? c = known'.get? c) : f.slotsAtHead known b = f.slotsAtHead known' b := by
  unfold slotsAtHead
  rw [List.filterMap_congr fun c hc => h c (edge_flow_iff.1 (Graph.mem_predecessors.1 hc))]

theorem slotsAtEnd?_congr {known known' : Table Slots} {b : BlockId}
    (h : ∀ c, f.Leads c b → known.get? c = known'.get? c) : f.slotsAtEnd? known b = f.slotsAtEnd? known' b := by
  unfold slotsAtEnd?
  rw [slotsAtHead_congr h]

theorem badReadsIn_congr {known known' : Table Slots} {b : BlockId}
    (h : ∀ c, f.Leads c b → known.get? c = known'.get? c) : f.badReadsIn known b = f.badReadsIn known' b := by
  unfold badReadsIn
  rw [slotsAtHead_congr h]

theorem reads_sweep_cons (known : Table Slots) (b : BlockId) (bs : List BlockId) :
    (f.sweep known (b :: bs)).reads = f.badReadsIn known b ++ (f.sweep (f.visit known b) bs).reads := by
  cases hb : f.slotsAtEnd? known b with
  | none =>
    rw [sweep_cons_of_none hb, visit_of_none hb, badReadsIn_of_none hb, List.nil_append]
  | some l =>
    by_cases hk : known.get? b = some l
    · rw [sweep_cons_of_same hb hk, visit_of_same hb hk]
    · rw [sweep_cons_of_change hb hk]

/-- What a table tells of the blocks before one. -/
def before (known : Table Slots) (b : BlockId) : Table Slots := known.filter fun c _ => c < b

theorem get?_before_eq_some_iff {known : Table Slots} {b c : BlockId} {l : Slots} :
    (before known b).get? c = some l ↔ known.get? c = some l ∧ c < b := by
  unfold before
  rw [Table.get?_filter, Option.filter_eq_some_iff, decide_eq_true_iff]

/-- A block of which nothing is known is told of by its visit alone. -/
theorem get?_visit_of_new {known : Table Slots} {b : BlockId} (h : known.get? b = none) :
    (f.visit known b).get? b = f.slotsAtEnd? known b := by
  cases hb : f.slotsAtEnd? known b with
  | none => rw [visit_of_none hb, h]
  | some l => rw [get?_visit hb, if_pos rfl]

/-- Of the blocks before the ones that it visits a sweep tells what was known when it began. -/
theorem get?_before_sweep {bs : List BlockId} {b : BlockId} (hbs : ∀ c ∈ bs, b ≤ c) {known : Table Slots}
    (hknown : ∀ c l, known.get? c = some l → c < b) (c : BlockId) :
    (before (f.sweep known bs).known b).get? c = known.get? c := by
  have hkept : c < b → (f.sweep known bs).known.get? c = known.get? c := fun hc =>
    get?_sweep_of_not_mem (fun h => Nat.not_lt.2 (hbs c h) hc) known
  ext l
  rw [get?_before_eq_some_iff]
  constructor
  · rintro ⟨hl, hc⟩
    exact hkept hc ▸ hl
  · intro hl
    have hc := hknown c l hl
    exact ⟨(hkept hc).trans hl, hc⟩

/-- A sweep in ascending order, from a table that tells of earlier blocks only. -/
theorem sweep_ascending {bs : List BlockId} (hbs : bs.Pairwise (· < ·)) {known : Table Slots}
    (hknown : ∀ c l, known.get? c = some l → ∀ b ∈ bs, c < b) :
    (∀ b ∈ bs, (f.sweep known bs).known.get? b = f.slotsAtEnd? (before (f.sweep known bs).known b) b) ∧
    (f.sweep known bs).reads = bs.flatMap fun b => f.badReadsIn (before (f.sweep known bs).known b) b := by
  induction bs generalizing known with
  | nil => exact ⟨fun b hb => absurd hb List.not_mem_nil, rfl⟩
  | cons b bs ih =>
    obtain ⟨hb, hbs⟩ := List.pairwise_cons.1 hbs
    have hnew : known.get? b = none := by
      cases h : known.get? b with
      | none => rfl
      | some l => exact absurd (hknown b l h b List.mem_cons_self) (Nat.lt_irrefl b)
    have hlater : ∀ c l, (f.visit known b).get? c = some l → ∀ d ∈ bs, c < d := by
      intro c l hl d hd
      by_cases hc : c = b
      · exact hc ▸ hb d hd
      · rw [get?_visit_of_ne hc] at hl
        exact hknown c l hl d (List.mem_cons_of_mem _ hd)
    obtain ⟨hends, hreads⟩ := ih hbs hlater
    have hbefore := get?_before_sweep (f := f)
      (List.forall_mem_cons.2 ⟨Nat.le_refl b, fun c hc => Nat.le_of_lt (hb c hc)⟩)
      fun c l hl => hknown c l hl b List.mem_cons_self
    rw [known_sweep_cons] at hbefore ⊢
    refine ⟨List.forall_mem_cons.2 ⟨?_, hends⟩, ?_⟩
    · rw [get?_sweep_of_not_mem fun h => Nat.lt_irrefl b (hb b h), get?_visit_of_new hnew,
        slotsAtEnd?_congr fun c _ => hbefore c]
    · rw [reads_sweep_cons, hreads, List.flatMap_cons, badReadsIn_congr fun c _ => hbefore c]

/-- What a single pass knows in the end. -/
def singlePass (f : Func) : Table Slots := (f.sweep .empty f.blocks.keys).known

theorem sweep_stored (f : Func) :
    (∀ c, c ∉ f.blocks.keys → f.singlePass.get? c = none) ∧
    (∀ b ∈ f.blocks.keys, f.singlePass.get? b = f.slotsAtEnd? (before f.singlePass b) b) ∧
    (f.initAnalysis .singlePass).recording.reads =
      f.blocks.keys.flatMap fun b => f.badReadsIn (before f.singlePass b) b := by
  have hempty : ∀ c l, (Table.empty : Table Slots).get? c = some l → ∀ b ∈ f.blocks.keys, c < b := by
    intro c l hl
    rw [Table.get?_empty] at hl
    cases hl
  obtain ⟨hends, hreads⟩ := sweep_ascending f.blocks.pairwise_keys hempty
  exact ⟨fun c hc => (get?_sweep_of_not_mem hc .empty).trans (Table.get?_empty c), hends, hreads⟩

/-- A single pass finds at the end of a block what the blocks before it call for. -/
theorem get?_singlePass (f : Func) (b : BlockId) :
    f.singlePass.get? b = f.slotsAtEnd? (before f.singlePass b) b := by
  obtain ⟨hother, hends, -⟩ := f.sweep_stored
  by_cases hb : b ∈ f.blocks.keys
  · exact hends b hb
  · have hnone : f.blocks.get? b = none := by
      rw [Option.eq_none_iff_forall_ne_some]
      exact fun block h => hb (Table.mem_keys.2 ⟨block, h⟩)
    rw [hother b hb]
    unfold slotsAtEnd?
    rw [hnone]
    rfl

theorem climbing_singlePass (f : Func) : f.Climbing f.singlePass :=
  sweep_invariant (P := f.Climbing) (fun _ b h => climbing_visit h b) climbing_empty _

/-- What is known when a single pass comes to a block. -/
theorem climbing_before (f : Func) (b : BlockId) : f.Climbing (before f.singlePass b) where
  below c l hl := by
    obtain ⟨hl, hc⟩ := get?_before_eq_some_iff.1 hl
    rw [get?_singlePass] at hl
    refine slotsAtEnd?_mono (fun d m hm => ?_) hl
    obtain ⟨hm, hd⟩ := get?_before_eq_some_iff.1 hm
    exact ⟨m, get?_before_eq_some_iff.2 ⟨hm, hd.trans hc⟩, le_refl m⟩
  tracks c l hl := f.climbing_singlePass.tracks c l (get?_before_eq_some_iff.1 hl).1

/-! ## Walks that ascend -/

/-- Control can get from one point to another over the given instructions, with every jump to a later block. -/
def Ascent (f : Func) : Point → List Instr → Point → Prop := f.WalkBy (· < ·)

/-- By induction on the block: on coming to it only earlier ones are told of. -/
theorem walked_singlePass (f : Func) : f.Walked (· < ·) f.singlePass := by
  intro b
  induction b using Nat.strong_induction_on with
  | _ b ih =>
    intro block l x hb hl hx
    have hwalked : f.Walked (· < ·) (before f.singlePass b) := by
      intro c source m y hc hm hy
      obtain ⟨hm, hlt⟩ := get?_before_eq_some_iff.1 hm
      exact ih c hlt source m y hc hm hy
    rw [get?_singlePass, slotsAt_end hb] at hl
    cases hl
    exact reachesUnassigned_of_exposed hwalked (fun c m hm => (get?_before_eq_some_iff.1 hm).2) hb _ (le_refl _) hx

/-- On coming to a block a single pass knows of the ones before it. -/
theorem knownAlong_before (f : Func) : f.KnownAlong (· < ·) (before f.singlePass) where
  climbing := f.climbing_before
  settled b _ _ hlt hl := get?_before_eq_some_iff.2 ⟨(f.get?_singlePass b).trans hl, hlt⟩
  along _ _ _ hl := (get?_before_eq_some_iff.1 hl).2
  walked _ c block l x hc hl hx := f.walked_singlePass c block l x hc (get?_before_eq_some_iff.1 hl).1 hx

/-- A slot is pending after a single pass exactly if some walk that only jumps to later blocks leads from behind
an instruction that makes it to a load from it without an assigning store to it. -/
theorem mem_pending_singlePass_iff (f : Func) (x : LocalId) :
    x ∈ (f.initAnalysis .singlePass).pending ↔
      ∃ (start : Point) (made : Instr) (is : List Instr) (stop : Point) (load : Instr),
        f.instrAt? start = some made ∧ made.slot? = some x ∧
        f.Ascent start.next is stop ∧ (∀ i ∈ is, ¬ f.Assigns x i) ∧
        f.instrAt? stop = some load ∧ load.LoadsFrom x := by
  rw [mem_pending_iff_mem_reads, f.sweep_stored.2.2]
  exact f.knownAlong_before.mem_reads_iff

end SSALint.Func
