import JavaSyntax.Proofs.Rounds

/-!
A parse without errors gives a well-formed tree. Faults may be reported without being logged, when
one was logged at the same place or the budget is spent; but then the log has an error already. So a
log without errors means that no rule reported anything, and what was read then fits at every depth.
-/

namespace JavaSyntax

open Diagnostic (Clean)

/-- What was read without a report fits, and so does all that is inside it. -/
theorem Read.every_fits {setting : Setting} {ctx : Context} {s t : State} {c : Category}
    {tree : Tree c} (h : Read setting ctx s tree t) (hfresh : t.IsFresh) :
    tree.Every Context.inside Tree.Fits ctx := by
  induction h with
  | nil way => exact .mk ((Read.nil way).fits hfresh) fun p hp => by cases hp
  | cons first rest ih ih' =>
    refine .mk ((Read.cons first rest).fits hfresh) fun p hp => ?_
    rcases List.mem_cons.mp hp with rfl | hp
    · exact ih (rest.reaches.isFresh hfresh)
    · cases List.mem_singleton.mp hp
      exact ih' hfresh
  | none way => exact .mk ((Read.none way).fits hfresh) fun p hp => by cases hp
  | some here ih =>
    refine .mk ((Read.some here).fits hfresh) fun p hp => ?_
    cases List.mem_singleton.mp hp
    exact ih hfresh
  | node isNode before way after extent fits sits parts ih =>
    have hlast := after.isFresh hfresh
    exact .mk (fits hlast) fun p hp => ih p hp hlast

/-- At every depth the tree is no error marker and has what its kind needs. -/
def Tree.WellFormed {c : Category} (tree : Tree c) : Prop :=
  tree.Every Context.inside Tree.Fits .plain

/-- A file has no error marker, neither at its top nor at any depth, and each of its trees is
well-formed. -/
def CompilationUnit.WellFormed (unit : CompilationUnit) : Prop :=
  ∀ item ∈ unit.items, item.isProper = true ∧ ∀ p ∈ item.parts, p.2.WellFormed

theorem WholeRead.wellFormed {setting : Setting} {s t : State} {tree : Tree .expr}
    (h : WholeRead setting s tree t) (hfresh : t.IsFresh) : tree.WellFormed := by
  cases h with
  | taken taken way atEnd =>
    exact (taken.soFar.parts _ List.mem_cons_self .plain trivial).every_fits (way.isFresh hfresh)
  | failed before way marker stale => exact absurd hfresh stale

theorem Listed.wellFormed {setting : Setting} {s t : State} {items : List UnitItem}
    (h : Listed setting s items t) (hfresh : t.IsFresh) :
    ∀ item ∈ items, item.isProper = true ∧ ∀ p ∈ item.parts, p.2.WellFormed := by
  induction h with
  | nil atEnd => nofun
  | cons first rest ih =>
    have hm := rest.reaches.isFresh hfresh
    intro item hitem
    rcases List.mem_cons.mp hitem with rfl | hitem
    · exact ⟨first.isProper hm, fun p hp => (first.parts p hp).every_fits hm⟩
    · exact ih hfresh item hitem

namespace Session

/-- Whatever a text and its settings are: if an entry point of a new session logs no error, then
what it returns is well-formed. -/
theorem wellFormed_of_clean (settings : Settings) (source : Source) :
    let session := start settings source
    (Clean session.unit.2.diagnostics → session.unit.1.WellFormed) ∧
    (Clean session.expression.2.diagnostics → session.expression.1.WellFormed) ∧
    (Clean session.typeUse.2.diagnostics → session.typeUse.1.WellFormed) := by
  intro session
  have hs : Fine session.layout session.state := start_fine settings source
  refine ⟨fun h => ?_, fun h => ?_, fun h => ?_⟩
  · exact (unit_listed hs).wellFormed (isFresh_of_clean (after_unit _) h)
  · exact (expression_whole hs).wellFormed (isFresh_of_clean (after_expression _) h)
  · exact (typeUse_whole hs).wellFormed (isFresh_of_clean (after_typeUse _) h)

/-- A class with a constructor that calls something. -/
theorem wellFormed_of_clean_class :
    let session := start .standard (.ofText "A.java" "class A { A() { f(); } }")
    Clean session.unit.2.diagnostics ∧ session.unit.1.items.length = 1 ∧
      session.unit.1.WellFormed := by
  intro session
  have hclean : Clean session.unit.2.diagnostics := by
    unfold Clean
    decide
  exact ⟨hclean, by decide, (wellFormed_of_clean .standard _).1 hclean⟩

end Session

end JavaSyntax
