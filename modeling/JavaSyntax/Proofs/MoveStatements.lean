import JavaSyntax.Proofs.MoveExpressions

/-!
The rules for modifiers, variables, statements and switches move.
-/

namespace JavaSyntax

open Grammar
open Movable (move)

namespace Moves

variable {n : Nat}

theorem nextModifier_eq {ts us : List Symbol} (h : Sees ts us) :
    nextModifier us = nextModifier ts := by
  unfold nextModifier
  rw [h.lookup, h.isSealed, h.isNonSealed]

protected theorem modifierRun : Moves n modifierRun modifierRun := by
  unfold Grammar.modifierRun
  apply ahead_bind
  intro ts us hts
  rw [hts.next _ rfl, hts.next _ rfl, nextModifier_eq hts]
  apply ite rfl
  · apply bind (call rfl rfl)
    intro first
    apply bind (call rfl rfl)
    intro ⟨modifiers, annotations⟩
    exact .done (modifiers, Tree.cons first annotations)
  · cases nextModifier ts with
    | some found =>
      apply advance_bind
      apply bind (call rfl rfl)
      intro ⟨modifiers, annotations⟩
      exact .done (found.1 :: modifiers, annotations)
    | none => exact .done ([], Tree.nil)

protected theorem modifiers : Moves n modifiers modifiers := by
  unfold Grammar.modifiers
  apply view_bind
  intro v v' hv
  apply bind (call rfl rfl)
  intro ⟨modifiers, annotations⟩
  rw [hv.mark, hv.doc]
  exact .done (⟨modifiers, annotations, v.mark, v.doc⟩ : Modifiers)

/-! Variables. -/

protected theorem declarator (name : String) (start : Mark) :
    Moves n (declarator name start) (declarator name (start.move n)) := by
  unfold Grammar.declarator
  apply dims_bind
  intro k
  apply accept_bind
  intro found
  apply bind (optionIf Moves.initialValue rfl)
  intro init
  apply since_bind
  intro extent
  exact .done (Tree.declarator name k init extent)

protected theorem declarators (name : String) (start : Mark) :
    Moves n (declarators name start) (declarators name (start.move n)) := by
  unfold Grammar.declarators
  apply bind (Moves.declarator name start)
  intro first
  apply accept_bind
  intro found
  apply ite rfl
  · apply mark_bind
    intro start
    apply identifier_bind
    intro name
    apply bind (call rfl rfl)
    intro rest
    exact .done (Tree.cons first rest)
  · exact .done (Tree.cons first .nil)

protected theorem variableNames : Moves n variableNames variableNames := by
  unfold Grammar.variableNames
  apply mark_bind
  intro start
  apply identifier_bind
  intro name
  exact call rfl rfl

protected theorem localVariables (mods : Modifiers) :
    Moves n (localVariables mods) (localVariables (move n mods)) := by
  unfold Grammar.localVariables
  apply bind (call rfl rfl)
  intro type
  apply bind Moves.variableNames
  intro names
  apply require_bind
  apply since_bind
  intro extent
  exact .done (Tree.localVariables (.varDecl mods.undocumented mods.annotations type names extent))

/-! Statements. -/

protected theorem checkStandalone (e : Tree .expr) :
    Moves n (checkStandalone e) (checkStandalone (e.move n)) :=
  ite (e.mayStandAlone_move n) (.done ()) (.fault trivial)

protected theorem parenExpr : Moves n parenExpr parenExpr := by
  unfold Grammar.parenExpr
  apply expect_bind
  apply bind (call rfl rfl)
  intro inner
  apply expect_bind
  exact .done inner

protected theorem exprStatement (start : Mark) :
    Moves n (exprStatement start) (exprStatement (start.move n)) := by
  unfold Grammar.exprStatement
  apply bind (call rfl rfl)
  intro e
  apply bind (Moves.checkStandalone e)
  intro _
  apply require_bind
  apply since_bind
  intro extent
  exact .done (Tree.exprStmt (.standalone e extent))

protected theorem localDeclaration : Moves n localDeclaration localDeclaration := by
  unfold Grammar.localDeclaration
  apply bind Moves.modifiers
  intro mods
  apply ahead_bind
  intro ts us hts
  apply ite hts.isTypeDecl
  · apply bind (call rfl rfl)
    intro decl
    exact .done (Tree.localType decl)
  · exact Moves.localVariables mods

protected theorem ifStatement (start : Mark) :
    Moves n (ifStatement start) (ifStatement (start.move n)) := by
  unfold Grammar.ifStatement
  apply advance_bind
  apply bind Moves.parenExpr
  intro condition
  apply bind (call rfl rfl)
  intro yes
  apply accept_bind
  intro found
  apply bind (optionIf (call rfl rfl) rfl)
  intro no
  apply since_bind
  intro extent
  exact .done (Tree.ifStmt condition yes no extent)

protected theorem whileStatement (start : Mark) :
    Moves n (whileStatement start) (whileStatement (start.move n)) := by
  unfold Grammar.whileStatement
  apply advance_bind
  apply bind Moves.parenExpr
  intro condition
  apply bind (call rfl rfl)
  intro body
  apply since_bind
  intro extent
  exact .done (Tree.whileStmt condition body extent)

protected theorem doStatement (start : Mark) :
    Moves n (doStatement start) (doStatement (start.move n)) := by
  unfold Grammar.doStatement
  apply advance_bind
  apply bind (call rfl rfl)
  intro body
  apply expect_bind
  apply bind Moves.parenExpr
  intro condition
  apply require_bind
  apply since_bind
  intro extent
  exact .done (Tree.doStmt body condition extent)

protected theorem standalones : Moves n standalones standalones := by
  unfold Grammar.standalones
  apply mark_bind
  intro start
  apply bind (call rfl rfl)
  intro e
  apply bind (Moves.checkStandalone e)
  intro _
  apply since_bind
  intro extent
  apply accept_bind
  intro found
  apply bind (listIf (call rfl rfl) rfl)
  intro rest
  exact .done (Tree.cons (.standalone e extent) rest)

theorem declaresVariables_eq {ts us : List Symbol} (h : Sees ts us) :
    declaresVariables us = declaresVariables ts := by
  unfold declaresVariables
  rw [h.isLocalVariable, h.nextOneOf]

protected theorem forInit : Moves n forInit forInit := by
  unfold Grammar.forInit
  apply ahead_bind
  intro ts us hts
  apply ite (hts.next _ rfl)
  · exact .done (Tree.forExprs .nil)
  · apply ite (declaresVariables_eq hts)
    · apply bind Moves.modifiers
      intro mods
      apply bind (call rfl rfl)
      intro type
      apply bind Moves.variableNames
      intro names
      apply since_bind
      intro extent
      exact .done
        (Tree.forVariables (.varDecl mods.undocumented mods.annotations type names extent))
    · apply bind (call rfl rfl)
      intro exprs
      exact .done (Tree.forExprs exprs)

protected theorem plainParam {further further' : Rule (Tree (.list .type))}
    (h : Moves n further further') : Moves n (plainParam further) (plainParam further') := by
  unfold Grammar.plainParam
  apply bind Moves.modifiers
  intro mods
  apply bind (call rfl rfl)
  intro type
  apply bind h
  intro types
  apply identifier_bind
  intro name
  apply since_bind
  intro extent
  exact .done (Tree.param mods.modifiers mods.annotations type name false extent, types)

protected theorem forStatement (start : Mark) :
    Moves n (forStatement start) (forStatement (start.move n)) := by
  unfold Grammar.forStatement
  apply advance_bind
  apply expect_bind
  apply ahead_bind
  intro ts us hts
  apply ite hts.isForEach
  · apply bind (Moves.plainParam (.done Tree.nil))
    intro ⟨param, _⟩
    apply expect_bind
    apply bind (call rfl rfl)
    intro iterable
    apply expect_bind
    apply bind (call rfl rfl)
    intro body
    apply since_bind
    intro extent
    exact .done (Tree.forEachStmt param iterable body extent)
  · apply bind Moves.forInit
    intro init
    apply expect_bind
    apply check_bind
    intro found
    apply bind (optionIf (call rfl rfl) rfl)
    intro condition
    apply expect_bind
    apply check_bind
    intro found
    apply bind (listIf (call rfl rfl) rfl)
    intro update
    apply expect_bind
    apply bind (call rfl rfl)
    intro body
    apply since_bind
    intro extent
    exact .done (Tree.forStmt init condition update body extent)

protected theorem resource : Moves n resource resource := by
  unfold Grammar.resource
  apply mark_bind
  intro start
  apply ahead_bind
  intro ts us hts
  apply ite (declaresVariables_eq hts)
  · apply bind Moves.modifiers
    intro mods
    apply bind (call rfl rfl)
    intro type
    apply identifier_bind
    intro name
    apply expect_bind
    apply bind (call rfl rfl)
    intro init
    apply since_bind
    intro extent
    exact .done (Tree.resourceVariable mods.modifiers type name init extent)
  · apply bind (call rfl rfl)
    intro e
    apply since_bind
    intro extent
    exact .done (Tree.resourceExpr e extent)

protected theorem resources : Moves n resources resources := by
  unfold Grammar.resources
  apply ahead_bind
  intro ts us hts
  apply ite (ends_eq hts _)
  · exact .done Tree.nil
  · exact separated .semicolon Moves.resource rfl rfl

protected theorem catches : Moves n catches catches := by
  unfold Grammar.catches
  apply mark_bind
  intro start
  apply accept_bind
  intro found
  apply ite rfl
  · apply expect_bind
    apply bind (Moves.plainParam (call rfl rfl))
    intro ⟨param, alternatives⟩
    apply expect_bind
    apply bind (call rfl rfl)
    intro block
    apply since_bind
    intro extent
    apply bind (call rfl rfl)
    intro rest
    exact .done (Tree.cons (.catchClause param alternatives block extent) rest)
  · exact .done Tree.nil

protected theorem tryStatement (start : Mark) :
    Moves n (tryStatement start) (tryStatement (start.move n)) := by
  unfold Grammar.tryStatement
  apply advance_bind
  apply accept_bind
  intro found
  apply bind
  · apply listIf _ rfl
    apply bind (call rfl rfl)
    intro resources
    apply expect_bind
    exact .done resources
  · intro resources
    apply bind (call rfl rfl)
    intro body
    apply bind (call rfl rfl)
    intro catches
    apply accept_bind
    intro found
    apply bind (optionIf (call rfl rfl) rfl)
    intro final
    have hlone : ((move n resources).isNil && (move n catches).isNil &&
        (move n final).toOption.isNone) =
          (resources.isNil && catches.isNil && final.toOption.isNone) := by
      have hresources : (move n resources).isNil = resources.isNil := resources.isNil_move n
      have hcatches : (move n catches).isNil = catches.isNil := catches.isNil_move n
      have hfinal : (move n final).toOption.isNone = final.toOption.isNone :=
        final.isNone_toOption_move n
      rw [hresources, hcatches, hfinal]
    apply ite hlone
    · exact report_bind
    · apply since_bind
      intro extent
      exact .done (Tree.tryStmt resources body catches final extent)

protected theorem synchronizedStatement (start : Mark) :
    Moves n (synchronizedStatement start) (synchronizedStatement (start.move n)) := by
  unfold Grammar.synchronizedStatement
  apply advance_bind
  apply bind Moves.parenExpr
  intro lock
  apply bind (call rfl rfl)
  intro body
  apply since_bind
  intro extent
  exact .done (Tree.synchronizedStmt lock body extent)

protected theorem returnStatement (start : Mark) :
    Moves n (returnStatement start) (returnStatement (start.move n)) := by
  unfold Grammar.returnStatement
  apply advance_bind
  apply check_bind
  intro found
  apply bind (optionIf (call rfl rfl) rfl)
  intro value
  apply require_bind
  apply since_bind
  intro extent
  exact .done (Tree.returnStmt value extent)

protected theorem jumpLabel : Moves n jumpLabel jumpLabel := by
  unfold Grammar.jumpLabel
  apply advance_bind
  apply check_bind
  intro found
  have hrest (label : Option String) :
      Moves n (require .semicolon >>= fun _ => Pure.pure label)
        (require .semicolon >>= fun _ => Pure.pure label) := by
    apply require_bind
    exact .done label
  apply ite rfl
  · refine bind (map .takeText ?_) hrest
    exact fun _ => rfl
  · exact hrest none

protected theorem throwStatement (start : Mark) :
    Moves n (throwStatement start) (throwStatement (start.move n)) := by
  unfold Grammar.throwStatement
  apply advance_bind
  apply bind (call rfl rfl)
  intro value
  apply require_bind
  apply since_bind
  intro extent
  exact .done (Tree.throwStmt value extent)

protected theorem assertStatement (start : Mark) :
    Moves n (assertStatement start) (assertStatement (start.move n)) := by
  unfold Grammar.assertStatement
  apply advance_bind
  apply bind (call rfl rfl)
  intro condition
  apply accept_bind
  intro found
  apply bind (optionIf (call rfl rfl) rfl)
  intro message
  apply require_bind
  apply since_bind
  intro extent
  exact .done (Tree.assertStmt condition message extent)

protected theorem yieldStatement (start : Mark) :
    Moves n (yieldStatement start) (yieldStatement (start.move n)) := by
  unfold Grammar.yieldStatement
  apply advance_bind
  apply bind (call rfl rfl)
  intro value
  apply require_bind
  apply since_bind
  intro extent
  exact .done (Tree.yieldStmt value extent)

protected theorem labeledStatement (start : Mark) :
    Moves n (labeledStatement start) (labeledStatement (start.move n)) := by
  unfold Grammar.labeledStatement
  apply takeText_bind
  intro label
  apply advance_bind
  apply bind (call rfl rfl)
  intro body
  apply since_bind
  intro extent
  exact .done (Tree.labeledStmt label body extent)

protected theorem plainStatement (start : Mark) :
    Moves n (plainStatement start) (plainStatement (start.move n)) := by
  unfold Grammar.plainStatement
  apply ahead_bind
  intro ts us hts
  apply ite hts.isLocalVariable
  · apply bind Moves.modifiers
    intro mods
    exact Moves.localVariables mods
  · exact Moves.exprStatement start

protected theorem namedStatement (start : Mark) {ts us : List Symbol} (h : Sees ts us) :
    Moves n (namedStatement start ts) (namedStatement (start.move n) us) := by
  unfold Grammar.namedStatement
  rw [h.isRecord, h.isSealed]
  apply ite h.isYield
  · exact Moves.yieldStatement start
  · apply ite (h.next _ rfl)
    · exact Moves.labeledStatement start
    · apply ite rfl
      · exact Moves.localDeclaration
      · exact Moves.plainStatement start

protected theorem stmt : Moves n stmt stmt := by
  unfold Grammar.stmt
  apply view_bind
  intro v v' hv
  rw [hv.sees.headKind, hv.mark]
  generalize v.ahead.head?.map Symbol.kind = k
  split
  · exact raise
  · apply bind (call rfl rfl)
    intro block
    exact .done (Tree.blockStmt block)
  · apply advance_bind
    apply since_bind
    intro extent
    exact .done (Tree.emptyStmt extent)
  · exact Moves.ifStatement v.mark
  · exact Moves.whileStatement v.mark
  · exact Moves.doStatement v.mark
  · exact Moves.forStatement v.mark
  · exact Moves.tryStatement v.mark
  · apply advance_bind
    apply bind (call rfl rfl)
    intro ⟨selector, cases⟩
    apply since_bind
    intro extent
    exact .done (Tree.switchStmt selector cases extent)
  · apply ite (hv.sees.next _ rfl)
    · exact Moves.synchronizedStatement v.mark
    · exact Moves.plainStatement v.mark
  · exact Moves.returnStatement v.mark
  · apply bind Moves.jumpLabel
    intro label
    apply since_bind
    intro extent
    exact .done (Tree.breakStmt label extent)
  · apply bind Moves.jumpLabel
    intro label
    apply since_bind
    intro extent
    exact .done (Tree.continueStmt label extent)
  · exact Moves.throwStatement v.mark
  · exact Moves.assertStatement v.mark
  · exact Moves.localDeclaration
  · exact Moves.localDeclaration
  · exact Moves.localDeclaration
  · exact Moves.localDeclaration
  · exact Moves.localDeclaration
  · exact Moves.localDeclaration
  · exact Moves.localDeclaration
  · exact Moves.localDeclaration
  · exact Moves.namedStatement v.mark hv.sees
  · exact Moves.plainStatement v.mark

protected theorem block : Moves n block block := by
  unfold Grammar.block
  apply mark_bind
  intro start
  apply expect_bind
  apply bind (call rfl rfl)
  intro statements
  apply require_bind
  apply since_bind
  intro extent
  exact .done (Tree.block statements extent)

protected theorem statements (inSwitch : Bool) :
    Moves n (statements inSwitch) (statements inSwitch) := by
  unfold Grammar.statements
  apply view_bind
  intro v v' hv
  have hends : (endsStatements inSwitch v'.ahead || !v'.running) =
      (endsStatements inSwitch v.ahead || !v.running) := by
    unfold endsStatements
    rw [hv.sees.isEmpty, hv.sees.next _ rfl, hv.sees.nextOneOf, hv.running, hv.running']
  apply ite hends
  · exact .done Tree.nil
  · apply attempt_bind rfl rfl
    · intro first
      apply bind (call rfl rfl)
      intro rest
      exact .done (Tree.cons first rest)
    · intro error
      trivial

/-! Switches. -/

protected theorem switchRest (isExpr : Bool) :
    Moves n (switchRest isExpr) (switchRest isExpr) := by
  unfold Grammar.switchRest
  apply bind Moves.parenExpr
  intro selector
  apply expect_bind
  apply bind (call rfl rfl)
  intro cases
  apply require_bind
  exact .done (selector, cases)

/-- A loop that ends at the end of the file, at a closing brace or with the budget. -/
theorem loopEnds_eq {v v' : View} (h : v.Beside n v') :
    (v'.ahead.isEmpty || Lookahead.next [.rbrace] v'.ahead || !v'.running) =
      (v.ahead.isEmpty || Lookahead.next [.rbrace] v.ahead || !v.running) := by
  rw [ends_eq h.sees, h.running, h.running']

protected theorem switchCases (isExpr : Bool) :
    Moves n (switchCases isExpr) (switchCases isExpr) := by
  unfold Grammar.switchCases
  apply view_bind
  intro v v' hv
  apply ite (loopEnds_eq hv)
  · exact .done Tree.nil
  · apply attempt_bind rfl rfl
    · intro first
      apply bind (call rfl rfl)
      intro rest
      exact .done (Tree.cons first rest)
    · intro error
      trivial

protected theorem labels : Moves n labels labels := by
  unfold Grammar.labels
  exact separated .comma (call rfl rfl) rfl rfl

protected theorem caseLabels : Moves n caseLabels caseLabels := by
  unfold Grammar.caseLabels
  apply accept_bind
  intro found
  apply ite rfl
  · exact .done Tree.nil
  · apply accept_bind
    intro found
    apply ite rfl
    · exact callLabels rfl rfl
    · apply view_bind
      intro v v' hv
      exact raise

protected theorem arrowBody (isExpr : Bool) : Moves n (arrowBody isExpr) (arrowBody isExpr) := by
  unfold Grammar.arrowBody
  apply view_bind
  intro v v' hv
  apply ite (hv.sees.next _ rfl)
  · apply bind (call rfl rfl)
    intro block
    exact .done (Tree.blockStmt block)
  · apply ite (hv.sees.next _ rfl)
    · exact call rfl rfl
    · apply bind (call rfl rfl)
      intro e
      have hrest : Moves n
          (require .semicolon >>= fun _ => since v.mark >>= fun extent =>
            Pure.pure (Tree.exprStmt (.standalone e extent)))
          (require .semicolon >>= fun _ => since v'.mark >>= fun extent =>
            Pure.pure (Tree.exprStmt (.standalone (e.move n) extent))) := by
        rw [hv.mark]
        apply require_bind
        apply since_bind
        intro extent
        exact .done (Tree.exprStmt (.standalone e extent))
      apply ite rfl
      · apply bind (Moves.checkStandalone e)
        intro _
        exact hrest
      · exact hrest

protected theorem switchCase (isExpr : Bool) :
    Moves n (switchCase isExpr) (switchCase isExpr) := by
  unfold Grammar.switchCase
  apply mark_bind
  intro start
  apply bind Moves.caseLabels
  intro labels
  apply accept_bind
  intro found
  apply ite rfl
  · apply bind (Moves.arrowBody isExpr)
    intro body
    apply since_bind
    intro extent
    exact .done (Tree.switchCase labels true (.cons body .nil) extent)
  · apply view_bind
    intro v v' hv
    apply ite (hv.sees.next _ rfl)
    · apply advance_bind
      apply bind (call rfl rfl)
      intro statements
      apply since_bind
      intro extent
      exact .done (Tree.switchCase labels false statements extent)
    · exact raise_bind

end Moves

end JavaSyntax
