/-
Computations that may fail: when a sequence of them, or the same one for every element of a list,
succeeds, and which errors it may end with.
-/
import Mathlib.Data.List.Basic

namespace SSALint.Outcome

variable {ε α β : Type}

theorem bind_eq_ok_iff {x : Except ε α} {f : α → Except ε β} {b : β} :
    x >>= f = .ok b ↔ ∃ a, x = .ok a ∧ f a = .ok b := by
  cases x with
  | error e => simp [bind, Except.bind]
  | ok a => simp [bind, Except.bind]

theorem bind_eq_error_iff {x : Except ε α} {f : α → Except ε β} {e : ε} :
    x >>= f = .error e ↔ x = .error e ∨ ∃ a, x = .ok a ∧ f a = .error e := by
  cases x with
  | error e' => simp [bind, Except.bind]
  | ok a => simp [bind, Except.bind]

theorem pure_eq_ok_iff {a b : α} : (pure a : Except ε α) = .ok b ↔ a = b := by
  simp [pure, Except.pure]

theorem toOption_eq_some_iff {x : Except ε α} {a : α} : x.toOption = some a ↔ x = .ok a := by
  cases x <;> simp [Except.toOption]

theorem ite_eq_ok_iff {c : Prop} [Decidable c] {e : ε} {u : Unit} :
    (if c then .ok () else .error e : Except ε Unit) = .ok u ↔ c := by
  split <;> simp [*]

/-- A check of a list succeeds if that of each element does. -/
theorem forM_eq_ok_iff {check : α → Except ε Unit} {xs : List α} {u : Unit} :
    xs.forM check = .ok u ↔ ∀ x ∈ xs, check x = .ok () := by
  induction xs with
  | nil => simp [List.forM, pure, Except.pure]
  | cons x xs ih =>
    show check x >>= (fun _ => xs.forM check) = _ ↔ _
    rw [bind_eq_ok_iff, List.forall_mem_cons]
    constructor
    · rintro ⟨⟨⟩, hx, hxs⟩
      exact ⟨hx, ih.1 hxs⟩
    · rintro ⟨hx, hxs⟩
      exact ⟨(), hx, ih.2 hxs⟩

theorem foldlM_nil_eq_ok_iff {f : β → α → Except ε β} {b c : β} :
    [].foldlM f b = .ok c ↔ b = c := by
  rw [List.foldlM_nil, pure_eq_ok_iff]

theorem foldlM_cons_eq_ok_iff {f : β → α → Except ε β} {b c : β} {x : α} {xs : List α} :
    (x :: xs).foldlM f b = .ok c ↔ ∃ d, f b x = .ok d ∧ xs.foldlM f d = .ok c := by
  rw [List.foldlM_cons, bind_eq_ok_iff]

/-- An error that no step raises is not raised by a row of them. -/
theorem foldlM_ne_error {f : β → α → Except ε β} {e : ε} (h : ∀ b a, f b a ≠ .error e) (xs : List α) (b : β) :
    xs.foldlM f b ≠ .error e := by
  induction xs generalizing b with
  | nil => rw [List.foldlM_nil]; nofun
  | cons x xs ih =>
    rw [List.foldlM_cons, Ne, bind_eq_error_iff]
    rintro (hx | ⟨c, -, hxs⟩)
    · exact h b x hx
    · exact ih c hxs

/-- A computation for every element of a list succeeds if each one does. -/
theorem mapM_eq_ok {f : α → Except ε β} {g : α → β} {xs : List α} (h : ∀ x ∈ xs, f x = .ok (g x)) :
    xs.mapM f = .ok (xs.map g) := by
  induction xs with
  | nil => rfl
  | cons x xs ih =>
    obtain ⟨hx, hxs⟩ := List.forall_mem_cons.1 h
    rw [List.mapM_cons, hx, ih hxs]
    rfl

theorem mapM_congr {f g : α → Except ε β} {xs : List α} (h : ∀ x ∈ xs, f x = g x) : xs.mapM f = xs.mapM g := by
  induction xs with
  | nil => rfl
  | cons x xs ih =>
    obtain ⟨hx, hxs⟩ := List.forall_mem_cons.1 h
    rw [List.mapM_cons, List.mapM_cons, hx, ih hxs]

end SSALint.Outcome
