import JavaSyntax.Proofs.HeadExpressions

/-!
The rules for modifiers, variables, statements and switches gather the headings of their trees. The
annotations of a resource are dropped.
-/

namespace JavaSyntax

open Grammar
open Headed (headings)

namespace Rule.IsQuiet

variable {layout : Layout}

theorem checkStandalone (e : Tree .expr) : (Grammar.checkStandalone e).IsQuiet layout :=
  ite (pure ()) report

theorem jumpLabel : Grammar.jumpLabel.IsQuiet layout := by
  intro s hs Q h
  unfold Grammar.jumpLabel
  apply Gathers.quiet_bind (.advance _)
  intro _ _
  apply Gathers.quiet_bind (.check _)
  intro found _
  apply Gathers.joined
  apply Gathers.quiet_bind (.ite (.map .takeText _) (.pure none))
  intro label _
  apply Gathers.quiet_bind (.require _)
  intro _ t
  exact .done (h label t)

end Rule.IsQuiet

namespace Rule.Announces

open Rule.Gathers (part_bind whole_bind quiet_bind since_bind ahead_bind dropped_bind
  attempt_bind)

variable {layout : Layout}

protected theorem modifierRun : modifierRun.Announces layout := by
  intro s
  unfold Grammar.modifierRun
  apply ahead_bind
  apply Gathers.ite
  · apply part_bind (call rfl rfl)
    intro first _
    apply part_bind (call rfl rfl)
    intro rest _
    exact .done rfl
  · cases nextModifier s.ahead with
    | some found =>
      apply quiet_bind (.advance _)
      intro _ _
      apply part_bind (call rfl rfl)
      intro rest _
      exact .done rfl
    | none => exact .done rfl

protected theorem modifiers : modifiers.Announces layout := by
  intro s
  unfold Grammar.modifiers
  apply quiet_bind .view
  intro v _
  apply part_bind (call rfl rfl)
  intro run _
  exact .done rfl

/-! Variables. -/

theorem declarator (name : String) (start : Mark) (s : State) :
    (Grammar.declarator name start).Gathers layout s [] fun value _ hs =>
      (∀ rest, (Tree.cons value rest).firstName = name) ∧ headings value = hs := by
  unfold Grammar.declarator
  apply quiet_bind .dims
  intro n _
  apply quiet_bind (.accept _)
  intro found _
  apply part_bind (optionIf Announces.initialValue)
  intro init _
  apply since_bind
  intro e _
  exact .done ⟨fun _ => rfl, rfl⟩

theorem declarators (name : String) (start : Mark) (s : State) :
    (Grammar.declarators name start).Gathers layout s [] fun names _ hs =>
      names.firstName = name ∧ headings names = hs := by
  unfold Grammar.declarators
  apply Gathers.bind
  apply Gathers.weaken (declarator name start s)
  rintro first _ _ ⟨hname, rfl⟩
  apply quiet_bind (.accept _)
  intro found _
  apply Gathers.ite
  · apply quiet_bind .mark
    intro start _
    apply quiet_bind .identifier
    intro next _
    apply part_bind (call rfl rfl)
    intro rest _
    exact .done ⟨hname rest, rfl⟩
  · exact .done ⟨hname .nil, List.append_nil _⟩

protected theorem variableNames : variableNames.Announces layout := by
  intro s
  unfold Grammar.variableNames
  apply quiet_bind .mark
  intro start _
  apply quiet_bind .identifier
  intro name _
  exact call rfl rfl _

theorem localVariables (mods : Modifiers) (s : State) :
    (Grammar.localVariables mods).Gathers layout s (headings mods) fun value _ hs =>
      headings value = hs := by
  unfold Grammar.localVariables
  apply part_bind (call rfl rfl)
  intro type _
  apply part_bind Announces.variableNames
  intro names _
  apply quiet_bind (.require _)
  intro _ _
  exact Gathers.close fun _ => rfl

/-! Statements. -/

protected theorem parenExpr : parenExpr.Announces layout := by
  intro s
  unfold Grammar.parenExpr
  apply quiet_bind (.expect _)
  intro _ _
  apply part_bind (call rfl rfl)
  intro inner _
  apply quiet_bind (.expect _)
  intro _ _
  exact .done rfl

protected theorem exprStatement (start : Mark) : (exprStatement start).Announces layout := by
  intro s
  unfold Grammar.exprStatement
  apply part_bind (call rfl rfl)
  intro value _
  apply quiet_bind (.checkStandalone _)
  intro _ _
  apply quiet_bind (.require _)
  intro _ _
  exact Gathers.close fun _ => rfl

protected theorem localDeclaration : localDeclaration.Announces layout := by
  intro s
  unfold Grammar.localDeclaration
  apply part_bind Announces.modifiers
  intro mods t
  apply ahead_bind
  apply Gathers.ite
  · apply whole_bind (Gathers.call rfl rfl)
    intro decl _
    exact .done rfl
  · exact localVariables mods t

protected theorem ifStatement (start : Mark) : (ifStatement start).Announces layout := by
  intro s
  unfold Grammar.ifStatement
  apply quiet_bind (.advance _)
  intro _ _
  apply part_bind Announces.parenExpr
  intro condition _
  apply part_bind (call rfl rfl)
  intro yes _
  apply quiet_bind (.accept _)
  intro found _
  apply part_bind (optionIf (call rfl rfl))
  intro no _
  exact Gathers.close fun _ => rfl

protected theorem whileStatement (start : Mark) : (whileStatement start).Announces layout := by
  intro s
  unfold Grammar.whileStatement
  apply quiet_bind (.advance _)
  intro _ _
  apply part_bind Announces.parenExpr
  intro condition _
  apply part_bind (call rfl rfl)
  intro body _
  exact Gathers.close fun _ => rfl

protected theorem doStatement (start : Mark) : (doStatement start).Announces layout := by
  intro s
  unfold Grammar.doStatement
  apply quiet_bind (.advance _)
  intro _ _
  apply part_bind (call rfl rfl)
  intro body _
  apply quiet_bind (.expect _)
  intro _ _
  apply part_bind Announces.parenExpr
  intro condition _
  apply quiet_bind (.require _)
  intro _ _
  exact Gathers.close fun _ => rfl

protected theorem standalones : standalones.Announces layout := by
  intro s
  unfold Grammar.standalones
  apply quiet_bind .mark
  intro start _
  apply part_bind (call rfl rfl)
  intro value _
  apply quiet_bind (.checkStandalone _)
  intro _ _
  apply since_bind
  intro e _
  apply quiet_bind (.accept _)
  intro found _
  apply part_bind (listIf (call rfl rfl))
  intro rest _
  exact .done rfl

protected theorem forInit : forInit.Announces layout := by
  intro s
  unfold Grammar.forInit
  apply ahead_bind
  apply Gathers.ite
  · exact .done rfl
  · apply Gathers.ite
    · apply part_bind Announces.modifiers
      intro mods _
      apply part_bind (call rfl rfl)
      intro type _
      apply part_bind Announces.variableNames
      intro names _
      exact Gathers.close fun _ => rfl
    · apply part_bind (call rfl rfl)
      intro exprs _
      exact .done rfl

protected theorem plainParam {further : Rule (Tree (.list .type))} (h : further.Announces layout) :
    (plainParam further).Announces layout := by
  intro s
  unfold Grammar.plainParam
  apply part_bind Announces.modifiers
  intro mods _
  apply part_bind (call rfl rfl)
  intro type _
  apply part_bind h
  intro types _
  apply quiet_bind .identifier
  intro name _
  exact Gathers.close fun _ => rfl

protected theorem forStatement (start : Mark) : (forStatement start).Announces layout := by
  intro s
  unfold Grammar.forStatement
  apply quiet_bind (.advance _)
  intro _ _
  apply quiet_bind (.expect _)
  intro _ _
  apply ahead_bind
  apply Gathers.ite
  · apply part_bind (Announces.plainParam (done rfl))
    rintro ⟨param, types⟩ _
    apply Gathers.drop (List.sublist_append_left (headings param) (headings types))
    apply quiet_bind (.expect _)
    intro _ _
    apply part_bind (call rfl rfl)
    intro iterable _
    apply quiet_bind (.expect _)
    intro _ _
    apply part_bind (call rfl rfl)
    intro body _
    exact Gathers.close fun _ => rfl
  · apply part_bind Announces.forInit
    intro init _
    apply quiet_bind (.expect _)
    intro _ _
    apply quiet_bind (.check _)
    intro found _
    apply part_bind (optionIf (call rfl rfl))
    intro condition _
    apply quiet_bind (.expect _)
    intro _ _
    apply quiet_bind (.check _)
    intro found _
    apply part_bind (listIf (call rfl rfl))
    intro update _
    apply quiet_bind (.expect _)
    intro _ _
    apply part_bind (call rfl rfl)
    intro body _
    exact Gathers.close fun _ => rfl

protected theorem resource : resource.Announces layout := by
  intro s
  unfold Grammar.resource
  apply quiet_bind .mark
  intro start _
  apply ahead_bind
  apply Gathers.ite
  · apply dropped_bind Announces.modifiers
    intro mods _
    apply part_bind (call rfl rfl)
    intro type _
    apply quiet_bind .identifier
    intro name _
    apply quiet_bind (.expect _)
    intro _ _
    apply part_bind (call rfl rfl)
    intro init _
    exact Gathers.close fun _ => rfl
  · apply part_bind (call rfl rfl)
    intro value _
    exact Gathers.close fun _ => rfl

protected theorem resources : resources.Announces layout := by
  intro s
  unfold Grammar.resources
  apply ahead_bind
  apply Gathers.ite
  · exact .done rfl
  · exact separated .semicolon Announces.resource rfl rfl _

protected theorem catches : catches.Announces layout := by
  intro s
  unfold Grammar.catches
  apply quiet_bind .mark
  intro start _
  apply quiet_bind (.accept _)
  intro found _
  apply Gathers.ite
  · apply quiet_bind (.expect _)
    intro _ _
    apply part_bind (Announces.plainParam (call rfl rfl))
    intro handled _
    apply quiet_bind (.expect _)
    intro _ _
    apply part_bind (call rfl rfl)
    intro block _
    apply since_bind
    intro e _
    apply part_bind (call rfl rfl)
    intro rest _
    exact .done rfl
  · exact .done rfl

protected theorem tryStatement (start : Mark) : (tryStatement start).Announces layout := by
  intro s
  unfold Grammar.tryStatement
  apply quiet_bind (.advance _)
  intro _ _
  apply quiet_bind (.accept _)
  intro opened _
  have hgroup : (Grammar.call .resources >>= fun resources => expect .rparen >>= fun _ =>
      pure resources).Announces layout := by
    intro s
    apply part_bind (call rfl rfl)
    intro resources _
    apply quiet_bind (.expect _)
    intro _ _
    exact .done rfl
  apply part_bind (listIf hgroup)
  intro resources _
  apply part_bind (call rfl rfl)
  intro body _
  apply part_bind (call rfl rfl)
  intro catches _
  apply quiet_bind (.accept _)
  intro found _
  apply part_bind (optionIf (call rfl rfl))
  intro final _
  apply Gathers.optional .report
  intro _
  exact Gathers.close fun _ => rfl

protected theorem synchronizedStatement (start : Mark) :
    (synchronizedStatement start).Announces layout := by
  intro s
  unfold Grammar.synchronizedStatement
  apply quiet_bind (.advance _)
  intro _ _
  apply part_bind Announces.parenExpr
  intro lock _
  apply part_bind (call rfl rfl)
  intro body _
  exact Gathers.close fun _ => rfl

protected theorem returnStatement (start : Mark) : (returnStatement start).Announces layout := by
  intro s
  unfold Grammar.returnStatement
  apply quiet_bind (.advance _)
  intro _ _
  apply quiet_bind (.check _)
  intro found _
  apply part_bind (optionIf (call rfl rfl))
  intro value _
  apply quiet_bind (.require _)
  intro _ _
  exact Gathers.close fun _ => rfl

protected theorem throwStatement (start : Mark) : (throwStatement start).Announces layout := by
  intro s
  unfold Grammar.throwStatement
  apply quiet_bind (.advance _)
  intro _ _
  apply part_bind (call rfl rfl)
  intro value _
  apply quiet_bind (.require _)
  intro _ _
  exact Gathers.close fun _ => rfl

protected theorem assertStatement (start : Mark) : (assertStatement start).Announces layout := by
  intro s
  unfold Grammar.assertStatement
  apply quiet_bind (.advance _)
  intro _ _
  apply part_bind (call rfl rfl)
  intro condition _
  apply quiet_bind (.accept _)
  intro found _
  apply part_bind (optionIf (call rfl rfl))
  intro message _
  apply quiet_bind (.require _)
  intro _ _
  exact Gathers.close fun _ => rfl

protected theorem yieldStatement (start : Mark) : (yieldStatement start).Announces layout := by
  intro s
  unfold Grammar.yieldStatement
  apply quiet_bind (.advance _)
  intro _ _
  apply part_bind (call rfl rfl)
  intro value _
  apply quiet_bind (.require _)
  intro _ _
  exact Gathers.close fun _ => rfl

protected theorem labeledStatement (start : Mark) : (labeledStatement start).Announces layout := by
  intro s
  unfold Grammar.labeledStatement
  apply quiet_bind .takeText
  intro label _
  apply quiet_bind (.advance _)
  intro _ _
  apply part_bind (call rfl rfl)
  intro body _
  exact Gathers.close fun _ => rfl

protected theorem plainStatement (start : Mark) : (plainStatement start).Announces layout := by
  intro s
  unfold Grammar.plainStatement
  apply ahead_bind
  apply Gathers.ite
  · apply part_bind Announces.modifiers
    intro mods t
    exact localVariables mods t
  · exact Announces.exprStatement start _

protected theorem namedStatement (start : Mark) (ts : List Symbol) :
    (namedStatement start ts).Announces layout :=
  ite (Announces.yieldStatement start) <| ite (Announces.labeledStatement start) <|
    ite Announces.localDeclaration (Announces.plainStatement start)

protected theorem stmt : stmt.Announces layout := by
  intro s
  unfold Grammar.stmt
  apply quiet_bind .view
  intro v _
  generalize v.ahead.head?.map Symbol.kind = k
  dsimp only
  split
  · trivial
  · apply part_bind (call rfl rfl)
    intro block _
    exact .done rfl
  · apply quiet_bind (.advance _)
    intro _ _
    exact Gathers.close fun _ => rfl
  · exact Announces.ifStatement _ _
  · exact Announces.whileStatement _ _
  · exact Announces.doStatement _ _
  · exact Announces.forStatement _ _
  · exact Announces.tryStatement _ _
  · apply quiet_bind (.advance _)
    intro _ _
    apply part_bind (call rfl rfl)
    intro rest _
    exact Gathers.close fun _ => rfl
  · exact Gathers.ite (Announces.synchronizedStatement _ _) (Announces.plainStatement _ _)
  · exact Announces.returnStatement _ _
  · apply quiet_bind .jumpLabel
    intro label _
    exact Gathers.close fun _ => rfl
  · apply quiet_bind .jumpLabel
    intro label _
    exact Gathers.close fun _ => rfl
  · exact Announces.throwStatement _ _
  · exact Announces.assertStatement _ _
  iterate 8 · exact Announces.localDeclaration _
  · exact Announces.namedStatement _ _ _
  · exact Announces.plainStatement _ _

/-! Blocks and switches. -/

protected theorem block : block.Announces layout := by
  intro s
  unfold Grammar.block
  apply quiet_bind .mark
  intro start _
  apply quiet_bind (.expect _)
  intro _ _
  apply part_bind (call rfl rfl)
  intro statements _
  apply quiet_bind (.require _)
  intro _ _
  exact Gathers.close fun _ => rfl

protected theorem statements (inSwitch : Bool) : (statements inSwitch).Announces layout := by
  intro s
  unfold Grammar.statements
  apply quiet_bind .view
  intro v _
  apply Gathers.ite
  · exact .done rfl
  · apply attempt_bind rfl rfl
    · intro first _
      apply part_bind (call rfl rfl)
      intro rest _
      exact .done rfl
    · intro error
      trivial

protected theorem switchRest (isExpr : Bool) : (switchRest isExpr).Announces layout := by
  intro s
  unfold Grammar.switchRest
  apply part_bind Announces.parenExpr
  intro selector _
  apply quiet_bind (.expect _)
  intro _ _
  apply part_bind (call rfl rfl)
  intro cases _
  apply quiet_bind (.require _)
  intro _ _
  exact .done rfl

protected theorem switchCases (isExpr : Bool) : (switchCases isExpr).Announces layout := by
  intro s
  unfold Grammar.switchCases
  apply quiet_bind .view
  intro v _
  apply Gathers.ite
  · exact .done rfl
  · apply attempt_bind rfl rfl
    · intro first _
      apply part_bind (call rfl rfl)
      intro rest _
      exact .done rfl
    · intro error
      trivial

protected theorem labels : labels.Announces layout :=
  separated .comma (call rfl rfl) rfl rfl

protected theorem caseLabels : caseLabels.Announces layout := by
  intro s
  unfold Grammar.caseLabels
  apply quiet_bind (.accept _)
  intro found _
  apply Gathers.ite
  · exact .done rfl
  · apply quiet_bind (.accept _)
    intro found _
    apply Gathers.ite
    · exact callLabels rfl rfl _
    · apply quiet_bind .view
      intro v _
      trivial

protected theorem arrowBody (isExpr : Bool) : (arrowBody isExpr).Announces layout := by
  intro s
  unfold Grammar.arrowBody
  apply quiet_bind .view
  intro v _
  apply Gathers.ite
  · apply part_bind (call rfl rfl)
    intro block _
    exact .done rfl
  · apply Gathers.ite
    · exact call rfl rfl _
    · apply part_bind (call rfl rfl)
      intro value _
      apply Gathers.optional (.checkStandalone _)
      intro _
      apply quiet_bind (.require _)
      intro _ _
      exact Gathers.close fun _ => rfl

protected theorem switchCase (isExpr : Bool) : (switchCase isExpr).Announces layout := by
  intro s
  unfold Grammar.switchCase
  apply quiet_bind .mark
  intro start _
  apply part_bind Announces.caseLabels
  intro labels _
  apply quiet_bind (.accept _)
  intro arrow _
  apply Gathers.ite
  · apply part_bind (Announces.arrowBody isExpr)
    intro body _
    exact Gathers.close fun _ => congrArg (headings labels ++ ·) (List.append_nil (headings body))
  · apply quiet_bind .view
    intro v _
    apply Gathers.ite
    · apply quiet_bind (.advance _)
      intro _ _
      apply part_bind (call rfl rfl)
      intro statements _
      exact Gathers.close fun _ => rfl
    · trivial

end Rule.Announces

end JavaSyntax
