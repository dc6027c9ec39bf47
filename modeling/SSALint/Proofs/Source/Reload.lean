/-
Reading back what was written. Every module that comes of a text, by loading, checking and removing dead functions,
can be printed; if it is legible the text that is printed is loaded again, as the compact module, and that is printed
as the same text (`Produced.reload_spec`). A module need not be legible: the label that a block without one shows may
be that of another block (`not_reload`).
-/
import SSALint.Proofs.Source.Compact
import SSALint.Proofs.Source.RoundTrip

namespace SSALint

open Source

/-- A canonical module, in which no terminator looks like another, is loaded from its text. -/
theorem Module.Canonical.loadModule_eq {m : Module} (hm : m.Canonical) (hd : m.Distinct) {text : String}
    (htext : m.text = .ok text) : loadModule text = .ok m := by
  unfold loadModule
  rw [hm.parseModule_text hd htext]
  show m.verified = .ok m
  unfold Module.verified
  rw [Module.verify_eq_ok_iff (u := ()) |>.2 hm.valid]

/-- Whatever comes of a text can be printed, and if it is legible it is read back: the text that is printed is loaded
again, and the module that it writes, the compact one, is printed as the very same text. -/
theorem Produced.reload_spec {source : String} {m : Module} (h : Produced source m) :
    ∃ text, m.text = .ok text ∧
      (m.Legible → loadModule text = .ok m.compact ∧ m.compact.text = .ok text) := by
  have hm := h.regular
  obtain ⟨text, htext⟩ := hm.valid.exists_text
  have hcompact : m.compact.text = .ok text := hm.text_compact.trans htext
  refine ⟨text, htext, fun hl => ⟨?_, hcompact⟩⟩
  exact (hm.canonical_compact h.wellSpelled hl).loadModule_eq hl.distinct_compact hcompact

/-- A text whose first function is dead; the second has a block without a label and a slot without a name, and calls
itself. -/
def gapText : String :=
  "declare void @f()\ndefine void @main() \x7b\n  %1 = alloca i8\n  call void @main()\n  ret void\n\x7d\n"

/-- The module of `gapText`, with or without its first function and a name for the slot. -/
def gapModule (first : Option Func) (slot : Option String) : Module where
  globals := .empty
  funcs := ⟨[first, some {
    id := 1, name := "main", ret := .void, params := [], variadic := false
    locals := .ofValues [⟨0, .ptr, slot⟩]
    blocks := .ofValues [⟨0, none, [⟨some 0, .alloca (.int 8)⟩, ⟨none, .call .void (.symbol (.func 1)) []⟩],
      .ret none⟩] }]⟩

theorem produced_gapModule : Produced gapText (gapModule none (some "lvar_0")) := by
  have hload : loadModule gapText = .ok (gapModule (some ⟨0, "f", .void, [], false, .empty, .empty⟩) none) :=
    Outcome.toOption_eq_some_iff.1 (by decide +kernel)
  exact .pruned {} (.checked .fixpoint (.loaded hload))
    (p := ⟨gapModule none (some "lvar_0"), "main", [⟨"f", 0⟩]⟩) (by cbv)

/-- What is left of the text when it is checked and what is dead is removed is read back. -/
theorem reload_gapModule : Produced gapText (gapModule none (some "lvar_0")) ∧
    (gapModule none (some "lvar_0")).Legible ∧ ∃ text, (gapModule none (some "lvar_0")).text = .ok text ∧
      loadModule text = .ok (gapModule none (some "lvar_0")).compact ∧
        (gapModule none (some "lvar_0")).compact.text = .ok text := by
  have hl : (gapModule none (some "lvar_0")).Legible := by decide +kernel
  obtain ⟨text, htext, hreload⟩ := produced_gapModule.reload_spec
  exact ⟨produced_gapModule, hl, text, htext, hreload hl⟩

/-! ## Labels that collide -/

/-- A text whose first block has no label, and whose second block has the label that the first one shows. -/
def collisionText : String := "define void @f() \x7b\n  br label %bb0\nbb0:\n  ret void\n\x7d\n"

/-- The module of `collisionText`. -/
def collisionModule : Module where
  globals := .empty
  funcs := .ofValues [{
    id := 0, name := "f", ret := .void, params := [], variadic := false, locals := .empty
    blocks := .ofValues [⟨0, none, [], .br 1⟩, ⟨1, some "bb0", [], .ret none⟩] }]

/-- A module that comes of a text need not be read back: two blocks may show under one label. -/
theorem not_reload : loadModule collisionText = .ok collisionModule ∧
    ∃ text, collisionModule.text = .ok text ∧ ∀ m, loadModule text ≠ .ok m := by
  refine ⟨Outcome.toOption_eq_some_iff.1 (by decide +kernel), _, rfl, fun m hm => ?_⟩
  have hnone : (loadModule "define void @f() \x7b\nbb0:\n  br label %bb0\nbb0:\n  ret void\n\x7d\n").toOption =
      none := by decide +kernel
  exact absurd (hnone.symm.trans (congrArg Except.toOption hm)) nofun

end SSALint
