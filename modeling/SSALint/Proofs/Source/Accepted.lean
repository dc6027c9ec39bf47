/-
Accepted texts. The module that a text writes keeps the rules for modules, so that it is loaded; it is
numbered without gaps, and globals, functions, blocks and local values follow the order in which the text
defines them (`parseModule_spec`).
-/
import SSALint.Analyzer
import SSALint.Proofs.Source.Outline
import SSALint.Proofs.Source.Places
import Mathlib

namespace SSALint

open Source

theorem parseModule_eq_ok_iff {text : String} {m : Module} :
    parseModule text = .ok m ↔ read text.toList = .ok m := by
  unfold parseModule
  cases read text.toList <;> simp

/-- What a text writes is a well-formed module: it keeps the rules for modules and is loaded as it is, and
its keys and names follow the definitions of the text. -/
theorem parseModule_spec {text : String} {m : Module} (h : parseModule text = .ok m) :
    m.verify = .ok () ∧ loadModule text = .ok m ∧ m.WellFormed ∧
      ∃ items, program text.toList = .ok (items, []) ∧
        InOrder text.toList (items.flatMap Item.definitions) [] ∧ Follows items m := by
  obtain ⟨items, r, hprogram, hresolve⟩ := read_eq_ok_iff.1 (parseModule_eq_ok_iff.1 h)
  obtain ⟨rfl, hplaces, hproper⟩ := program_spec hprogram
  obtain ⟨symbols, ss, hr⟩ := resolved_of_resolve hresolve
  have hverify : m.verify = .ok () := Module.verify_eq_ok_iff.2 (hr.valid hproper)
  refine ⟨hverify, ?_, hr.wellFormed hproper, items, hprogram, hplaces, hr.follows⟩
  unfold loadModule
  rw [h]
  show m.verified = .ok m
  unfold Module.verified
  rw [hverify]

/-- A global that refers to a function further down. -/
def forwardText : String :=
  "@g = global ptr @f\ndefine i32 @f(i32 %x) \x7b\n  %0 = add i32 %x, 1\n  ret i32 %0\n\x7d"

/-- The module of `forwardText`. -/
def forwardModule : Module where
  globals := .ofValues [⟨0, "g", .ptr, some (.symbol (.func 0)), false⟩]
  funcs := .ofValues [{
    id := 0
    name := "f"
    ret := .int 32
    params := [0]
    variadic := false
    locals := .ofValues [⟨0, .int 32, some "x"⟩, ⟨1, .int 32, none⟩]
    blocks := .ofValues [⟨0, none, [⟨some 1, .binary .add (.int 32) (.var 0) (.const (.int 32 1))⟩],
      .ret (some (.var 1))⟩] }]

theorem parseModule_forwardText : parseModule forwardText = .ok forwardModule ∧
    forwardModule.verify = .ok () ∧ loadModule forwardText = .ok forwardModule ∧ forwardModule.WellFormed ∧
      ∃ items, program forwardText.toList = .ok (items, []) ∧
        InOrder forwardText.toList (items.flatMap Item.definitions) [] ∧ Follows items forwardModule := by
  have h : parseModule forwardText = .ok forwardModule := Outcome.toOption_eq_some_iff.1 (by decide +kernel)
  exact ⟨h, parseModule_spec h⟩

end SSALint
