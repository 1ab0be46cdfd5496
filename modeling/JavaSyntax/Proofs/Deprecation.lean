import JavaSyntax.Proofs.HeadDeclarations
import JavaSyntax.Proofs.Lexing
import JavaSyntax.Proofs.Rounds

/-!
Warnings about deprecated declarations. A file without errors is warned about for each declaration
whose documentation calls it deprecated while no annotation does, in the order of the names.
-/

namespace JavaSyntax.Session

open Diagnostic (Clean)
open Headed (headings)

/-- A file that is parsed without an error has only warnings for diagnostics: one for each
declaration that was read and that its documentation calls deprecated while no annotation does, in
the order of the names, each at the name. The declarations that were read are those of the tree, in
this order and without compact constructors, and any in parts that leave no tree behind, like
annotations inside a qualified type. -/
theorem unit_warns (settings : Settings) (source : Source)
    (hclean : Clean (start settings source).unit.2.diagnostics) :
    let session := start settings source
    ∃ read, (headings session.unit.1).Sublist read ∧
      session.setting.Warns read session.unit.2.diagnostics := by
  intro session
  obtain ⟨words, hlexes⟩ := lexesTo_of_clean_unit hclean
  have hstart : session.state.log = [] := congrArg State.log (start_state hlexes)
  obtain ⟨hrun, -⟩ := @enter_readsAll _ session (.items .empty) .empty rfl
  obtain ⟨-, read, ds, hread, hwarns, hlog⟩ :=
    run_gathers rule_gathers (start_fine settings source).placed (hrun _ (Nat.le_refl _))
      (isFresh_of_clean (after_unit session) hclean)
  have hds : session.unit.2.diagnostics = ds := by
    rw [hstart] at hlog
    exact hlog
  rw [hds]
  exact ⟨read, hread, hwarns⟩

/-- No rule looks into the documentation of a compact constructor. -/
example :
    (start .standard (.ofText "R.java"
      "record R(int a) { /** @deprecated */ R { } }")).unit.2.diagnostics = [] := by
  decide

end JavaSyntax.Session
