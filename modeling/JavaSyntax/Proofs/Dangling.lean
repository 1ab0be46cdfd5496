import JavaSyntax.Proofs.Spans

/-!
An `else` belongs to the nearest `if`. Behind a statement that could still take an `else` none comes
next, so where an `if` takes one itself, no `if` without one stands at the end of its first branch.
This does not depend on whether the statements were read without errors.
-/

namespace JavaSyntax

/-- The first branch of an `if` with an `else` does not end in an `if` without one. -/
def Tree.BindsElse : {c : Category} → Tree c → Prop
  | _, .ifStmt _ yes (.some _) _ => ¬yes.Dangles
  | _, _ => True

theorem Tree.Sits.bindsElse {s : State} {c : Category} {tree : Tree c} (h : tree.Sits s) :
    tree.BindsElse := by
  cases tree with
  | ifStmt condition yes no e =>
    cases no with
    | none => trivial
    | some no => exact h
  | _ => trivial

namespace Session

/-- Whatever a text, its settings and the entry points called before are: at every depth of what an
entry point returns, every `else` belongs to the nearest `if` that it can belong to. -/
theorem elses_nearest (settings : Settings) (source : Source) (before : List Entry) :
    let session := (start settings source).afterAll before
    (∀ item ∈ session.unit.1.items, ∀ p ∈ item.parts, p.2.Everywhere Tree.BindsElse) ∧
    session.expression.1.Everywhere Tree.BindsElse ∧
    session.typeUse.1.Everywhere Tree.BindsElse := by
  intro session
  exact everywhere (fine_afterAll settings source before).2
    (fun _ _ _ _ _ _ hsits => hsits.bindsElse) fun _ => trivial

/-- The `else` is read with the second `if`. -/
example :
    let source := Source.ofText "A.java" "() -> \x7b if (a) if (b) f(); else g(); \x7d"
    (match (start .standard source).expression.1 with
    | .lambda _ (.blockBody (.block (.cons (.ifStmt _ first second _) .nil) _)) _ =>
      (first matches .ifStmt _ _ (.some _) _) && (second matches .none)
    | _ => false) = true := by
  decide

end Session

end JavaSyntax
