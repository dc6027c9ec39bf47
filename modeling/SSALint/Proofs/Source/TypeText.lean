/-
The grammar of types against the text of types. What the grammar yields some text names (`writable_ty`), and of the
types that some text names each is read back from its own, wherever a word ends behind it. So these are the types that
are read back, and where one of their texts ends there is no choice (`ty_print_spec`).
-/
import SSALint.Proofs.Source.ReadsType
import SSALint.Proofs.Source.Parser

namespace SSALint

theorem Ty.writableFields_iff {ts : List Ty} : WritableFields ts ↔ ∀ t ∈ ts, t.Writable := by
  induction ts with
  | nil => simp [WritableFields]
  | cons t ts ih => rw [WritableFields, ih, List.forall_mem_cons]

namespace Source

/-! ## What the grammar yields -/

theorem writable_simpleTy? {name : String} {t : Ty} (h : simpleTy? name = some t) : t.Writable := by
  unfold simpleTy? at h
  split at h
  case h_7 =>
    split at h
    · simp only at h
      split at h
      · rename_i digits _ hbits
        cases h
        intro hzero
        have hmod := congrArg UInt32.toNat hzero
        rw [UInt32.toNat_ofNat', Nat.mod_eq_of_lt hbits.2.2.2, UInt32.toNat_zero] at hmod
        exact hbits.2.2.1.ne' hmod
      · cases h
    · cases h
  all_goals
    cases h
    trivial

theorem writable_simpleTy : simpleTy.Yields Ty.Writable := by
  refine .skip fun place => .skip fun name => ?_
  cases ht : simpleTy? name with
  | none => exact .failAt
  | some t => exact .pure (writable_simpleTy? ht)

theorem writable_elements {p : Parser Ty} (hp : p.Yields Ty.Writable) (closing : String) {make : UInt64 → Ty → Ty}
    (hmake : ∀ length elem, elem.Writable → (make length elem).Writable) :
    (elements closing make p).Yields Ty.Writable :=
  .skip fun length => .skip fun _ => .bind hp fun elem helem => .skip fun _ => .pure (hmake length elem helem)

/-- What is true of every item that is answered is true of all items between brackets. -/
theorem Parser.Yields.listUntil {α : Type} {closing : String} {item : Parser α} {Q : α → Prop}
    (hitem : item.Yields Q) : (listUntil closing item).Yields fun as => ∀ a ∈ as, Q a := by
  refine .skip fun closed => ?_
  cases closed with
  | true => exact .pure nofun
  | false => exact .bind (.sepBy1 hitem) fun items hitems => .skip fun _ => .pure hitems.2

theorem writable_tyWithin (n : Nat) : (tyWithin n).Yields Ty.Writable := by
  induction n with
  | zero => exact .fail
  | succ n ih =>
    refine .skip fun _ => .skip fun isArray => ?_
    cases isArray with
    | true => exact writable_elements ih "]" fun _ _ h => h
    | false =>
      refine .skip fun isVector => ?_
      cases isVector with
      | true => exact writable_elements ih ">" fun _ _ h => h
      | false =>
        refine .skip fun isStruct => ?_
        cases isStruct with
        | true => exact .bind (.listUntil ih) fun _ h => .pure (Ty.writableFields_iff.2 h)
        | false => exact writable_simpleTy

/-- Every type that is read could be written. -/
theorem writable_ty : ty.Yields Ty.Writable := fun s => writable_tyWithin (s.length + 1) s

/-! ## There and back -/

theorem ty_print {t : Ty} (ht : t.Writable) {rest : List Char} (hrest : Stops rest) :
    ty (t.print.toList ++ rest) = .ok (t, rest) := by
  obtain ⟨_, hread, rfl⟩ := reads_ty blanks_nil ht rest hrest
  exact hread

/-- The types that are read back from their texts wherever a word ends behind them are those without an integer of no
bits. Texts of two such types with something behind each are the same only if the types are, and what is behind
them. -/
theorem ty_print_spec :
    (∀ t : Ty, t.Writable ↔ ∀ rest, Stops rest → ty (t.print.toList ++ rest) = .ok (t, rest)) ∧
    (∀ t u : Ty, t.Writable → u.Writable → ∀ rest rest', Stops rest → Stops rest' →
      t.print.toList ++ rest = u.print.toList ++ rest' → t = u ∧ rest = rest') ∧
    Set.InjOn Ty.print {t | t.Writable} := by
  have hstops : Stops [] := by simp [Stops]
  have happend : ∀ t u : Ty, t.Writable → u.Writable → ∀ rest rest', Stops rest → Stops rest' →
      t.print.toList ++ rest = u.print.toList ++ rest' → t = u ∧ rest = rest' := by
    intro t u ht hu rest rest' hrest hrest' heq
    have hread := (ty_print ht hrest).symm.trans ((congrArg ty heq).trans (ty_print hu hrest'))
    exact Prod.mk.inj (Except.ok.inj hread)
  refine ⟨fun t => ⟨fun ht rest hrest => ty_print ht hrest, fun h => writable_ty _ _ _ (h [] hstops)⟩, happend, ?_⟩
  intro t ht u hu heq
  exact (happend t u ht hu [] [] hstops hstops (by rw [heq])).1

/-- A struct with an array of vectors in it, before the comma that stands behind a type in a list. -/
theorem ty_print_nested :
    (Ty.struct [.int 32, .array 4 (.vector 2 .double), .struct []]).Writable ∧ Stops ", ptr".toList ∧
      ty ((Ty.struct [.int 32, .array 4 (.vector 2 .double), .struct []]).print.toList ++ ", ptr".toList) =
        .ok (.struct [.int 32, .array 4 (.vector 2 .double), .struct []], ", ptr".toList) := by
  have hwritable : (Ty.struct [.int 32, .array 4 (.vector 2 .double), .struct []]).Writable := by decide
  have hstops : Stops ", ptr".toList := stops_cons rfl
  exact ⟨hwritable, hstops, (ty_print_spec.1 _).1 hwritable _ hstops⟩

end Source
end SSALint
