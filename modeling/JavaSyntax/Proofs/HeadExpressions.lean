import JavaSyntax.Proofs.HeadTypes

/-!
The rules for expressions gather the headings of their trees. What stands in front of an array
creation is dropped, like the type arguments of a constructor and the annotations on the parameters
of a lambda.
-/

namespace JavaSyntax

open Grammar
open Headed (headings)

namespace Rule.Announces

open Rule.Gathers (part_bind whole_bind quiet_bind since_bind ahead_bind dropped_bind)

variable {layout : Layout}

protected theorem expr : expr.Announces layout := by
  intro s
  unfold Grammar.expr
  apply quiet_bind .startsLambda
  intro found _
  apply Gathers.ite
  · exact call rfl rfl _
  · apply quiet_bind .mark
    intro start _
    apply part_bind (call rfl rfl)
    intro target t
    apply ahead_bind
    cases lookup assignOp? t.ahead with
    | none => exact .done rfl
    | some op =>
      apply quiet_bind (.advance _)
      intro _ _
      apply part_bind (call rfl rfl)
      intro value _
      exact Gathers.close fun _ => rfl

protected theorem conditional : conditional.Announces layout := by
  intro s
  unfold Grammar.conditional
  apply quiet_bind .mark
  intro start _
  apply part_bind (call rfl rfl)
  intro condition _
  apply quiet_bind (.accept _)
  intro found _
  apply Gathers.ite
  · apply part_bind (call rfl rfl)
    intro yes _
    apply quiet_bind (.expect _)
    intro _ _
    apply quiet_bind .startsLambda
    intro found _
    apply Gathers.joined
    refine part_bind (ite (call rfl rfl) (call rfl rfl)) ?_
    intro no _
    exact Gathers.close fun _ => rfl
  · exact .done rfl

protected theorem binary (least : Nat) : (binary least).Announces layout := by
  intro s
  unfold Grammar.binary
  apply quiet_bind .mark
  intro start _
  apply part_bind (call rfl rfl)
  intro left _
  exact Gathers.call rfl rfl

/-- What an operator takes in goes on from its left operand. -/
theorem binaryRest (least : Nat) (start : Mark) (left : Tree .expr) (s : State) :
    (Grammar.binaryRest least start left).Gathers layout s (headings left) fun value _ hs =>
      headings value = hs := by
  unfold Grammar.binaryRest
  apply ahead_bind
  apply Gathers.ite
  · apply Gathers.ite
    · exact .done rfl
    · apply quiet_bind (.advance _)
      intro _ _
      apply quiet_bind (.accept _)
      intro _ _
      apply part_bind (call rfl rfl)
      intro type _
      apply quiet_bind (.check _)
      intro found _
      have hagain (binding : Option String) (t : State) :
          (since start >>= fun e => Grammar.call (.binaryRest least start
            (.instanceOf left type binding e))).Gathers layout t (headings left ++ headings type)
              fun value _ hs => headings value = hs := by
        apply since_bind
        intro e _
        exact Gathers.call rfl rfl
      apply Gathers.ite
      · exact quiet_bind (.map .takeText _) hagain
      · exact hagain none _
  · cases lookup binaryOp? s.ahead with
    | none => exact .done rfl
    | some found =>
      apply Gathers.ite
      · exact .done rfl
      · apply quiet_bind (.advance _)
        intro _ _
        apply part_bind (call rfl rfl)
        intro right _
        apply since_bind
        intro e _
        exact Gathers.call rfl rfl

protected theorem literal (negatedFrom : Option Mark) : (literal negatedFrom).Announces layout := by
  intro s
  unfold Grammar.literal
  apply quiet_bind .view
  intro v _
  cases v.ahead.head?.bind (literalValue · negatedFrom.isSome) with
  | none => trivial
  | some value =>
    apply quiet_bind (.advance _)
    intro _ _
    apply since_bind
    intro e _
    cases value with
    | ok value => exact .done rfl
    | error error => trivial

protected theorem arguments : arguments.Announces layout := by
  intro s
  unfold Grammar.arguments
  apply quiet_bind (.expect _)
  intro _ _
  apply quiet_bind (.check _)
  intro found _
  apply part_bind (listIf (call rfl rfl))
  intro args _
  apply quiet_bind (.expect _)
  intro _ _
  exact .done rfl

protected theorem exprList : exprList.Announces layout :=
  separated .comma (call rfl rfl) rfl rfl

protected theorem nameOrCall (start : Mark) : (nameOrCall start).Announces layout := by
  intro s
  unfold Grammar.nameOrCall
  apply quiet_bind .takeText
  intro name _
  apply quiet_bind (.check _)
  intro found _
  apply Gathers.ite
  · apply part_bind Announces.arguments
    intro args _
    exact Gathers.close fun _ => rfl
  · exact Gathers.close fun _ => rfl

/-! Arrays and objects. -/

protected theorem arrayInit : arrayInit.Announces layout := by
  intro s
  unfold Grammar.arrayInit
  apply quiet_bind .mark
  intro start _
  apply quiet_bind (.expect _)
  intro _ _
  apply part_bind (call rfl rfl)
  intro elements _
  apply quiet_bind (.expect _)
  intro _ _
  exact Gathers.close fun _ => rfl

protected theorem initialValue : initialValue.Announces layout := by
  intro s
  unfold Grammar.initialValue
  apply quiet_bind (.check _)
  intro found _
  apply Gathers.ite
  · apply part_bind (call rfl rfl)
    intro init _
    exact .done rfl
  · exact call rfl rfl _

protected theorem arrayElements : arrayElements.Announces layout := by
  intro s
  unfold Grammar.arrayElements
  apply ahead_bind
  apply Gathers.ite
  · exact .done rfl
  · exact separated .comma Announces.initialValue rfl rfl _

protected theorem sizes : sizes.Announces layout := by
  intro s
  unfold Grammar.sizes
  apply ahead_bind
  apply Gathers.ite
  · apply quiet_bind (.advance _)
    intro _ _
    apply part_bind (call rfl rfl)
    intro first _
    apply quiet_bind (.expect _)
    intro _ _
    apply part_bind (call rfl rfl)
    intro rest _
    exact .done rfl
  · exact .done rfl

theorem newArray (start : Mark) (type : Tree .type) (s : State) :
    (Grammar.newArray start type).Gathers layout s (headings type) fun value _ hs =>
      headings value = hs := by
  cases type with
  | type outer name args diamond annotations read extent =>
    unfold Grammar.newArray
    apply part_bind (listIf (call rfl rfl))
    intro sizes _
    apply Gathers.joined
    apply quiet_bind (.ite .dims (.pure read))
    intro n _
    apply quiet_bind (.check _)
    intro found _
    apply part_bind (optionIf (call rfl rfl))
    intro init _
    apply Gathers.ite
    · apply quiet_bind .view
      intro v _
      trivial
    · exact Gathers.close fun _ => rfl

protected theorem classBody (owner : String) : (classBody owner).Announces layout := by
  intro s
  unfold Grammar.classBody
  apply quiet_bind (.expect _)
  intro _ _
  apply part_bind (call rfl rfl)
  intro members _
  apply quiet_bind (.require _)
  intro _ _
  exact .done rfl

/-- A creation goes on from the object in front of it; an array is created without one. -/
theorem creation (start : Mark) (outer : Tree (.option .expr)) (s : State) :
    (Grammar.creation start outer).Gathers layout s (headings outer) fun value _ hs =>
      headings value = hs := by
  unfold Grammar.creation
  apply quiet_bind (.expect _)
  intro _ _
  apply quiet_bind (.check _)
  intro opened _
  apply dropped_bind (listIf (call rfl rfl))
  intro _ _
  apply part_bind (call rfl rfl)
  intro type _
  apply quiet_bind (.check _)
  intro found t
  apply Gathers.ite
  · exact .drop (List.sublist_append_right (headings outer) (headings type)) (newArray start type t)
  · apply part_bind Announces.arguments
    intro args _
    apply quiet_bind (.check _)
    intro found _
    apply part_bind (optionIf (Announces.classBody ""))
    intro body _
    exact Gathers.close fun _ => rfl

protected theorem primitiveExpr : primitiveExpr.Announces layout := by
  intro s
  unfold Grammar.primitiveExpr
  apply part_bind (call rfl rfl)
  intro type _
  apply quiet_bind .view
  intro v _
  apply Gathers.ite
  · exact .done rfl
  · trivial

protected theorem primary : primary.Announces layout := by
  intro s
  unfold Grammar.primary
  apply quiet_bind .view
  intro v _
  generalize v.ahead.head?.map Symbol.kind = k
  dsimp only
  split
  · exact Announces.nameOrCall _ _
  · exact Announces.nameOrCall _ _
  · apply quiet_bind (.advance _)
    intro _ _
    apply part_bind (call rfl rfl)
    intro inner _
    apply quiet_bind (.expect _)
    intro _ _
    exact Gathers.close fun _ => rfl
  · exact creation _ .none _
  · apply quiet_bind (.advance _)
    intro _ _
    apply part_bind (call rfl rfl)
    intro rest _
    exact Gathers.close fun _ => rfl
  · apply Gathers.ite
    · apply part_bind (call rfl rfl)
      intro type _
      exact .done rfl
    · exact Announces.nameOrCall _ _
  · apply Gathers.ite
    · exact Announces.literal none _
    · apply Gathers.ite
      · exact Announces.primitiveExpr _
      · trivial
  · trivial

/-! What follows a primary goes on from it. -/

theorem memberSelector (start : Mark) (target : Tree .expr) (s : State) :
    (Grammar.memberSelector start target).Gathers layout s (headings target) fun value _ hs =>
      headings value = hs := by
  unfold Grammar.memberSelector
  apply ahead_bind
  apply Gathers.ite
  · apply quiet_bind .takeText
    intro name _
    exact Gathers.close fun _ => rfl
  · apply Gathers.ite
    · apply quiet_bind .takeText
      intro name _
      apply quiet_bind (.check _)
      intro found _
      apply Gathers.ite
      · apply part_bind Announces.arguments
        intro args _
        exact Gathers.close fun _ =>
          congrArg (· ++ headings args) (List.append_nil (headings target))
      · exact Gathers.close fun _ => rfl
    · apply Gathers.ite
      · exact creation start (.some target) _
      · apply part_bind (listIf (call rfl rfl))
        intro typeArgs _
        apply quiet_bind .identifier
        intro name _
        apply quiet_bind (.check _)
        intro found _
        apply Gathers.ite
        · apply part_bind Announces.arguments
          intro args _
          exact Gathers.close fun _ => rfl
        · apply since_bind
          intro e _
          exact .drop (List.sublist_append_left (headings target) _) (.done rfl)

theorem referenceSelector (start : Mark) (target : Tree .expr) (s : State) :
    (Grammar.referenceSelector start target).Gathers layout s (headings target) fun value _ hs =>
      headings value = hs := by
  unfold Grammar.referenceSelector
  apply quiet_bind (.check _)
  intro opened _
  apply part_bind (listIf (call rfl rfl))
  intro typeArgs _
  apply quiet_bind (.check _)
  intro found _
  apply Gathers.joined
  apply quiet_bind (.ite .takeText .identifier)
  intro name _
  exact Gathers.close fun _ => rfl

theorem selectors (start : Mark) (target : Tree .expr) (s : State) :
    (Grammar.selectors start target).Gathers layout s (headings target) fun value _ hs =>
      headings value = hs := by
  unfold Grammar.selectors
  apply quiet_bind (.accept _)
  intro found _
  apply Gathers.ite
  · apply whole_bind (memberSelector start target _)
    intro target _
    exact Gathers.call rfl rfl
  · apply quiet_bind (.accept _)
    intro found _
    apply Gathers.ite
    · apply part_bind (call rfl rfl)
      intro index _
      apply quiet_bind (.expect _)
      intro _ _
      apply since_bind
      intro e _
      exact Gathers.call rfl rfl
    · apply quiet_bind (.accept _)
      intro found _
      apply Gathers.ite
      · apply whole_bind (referenceSelector start target _)
        intro target _
        exact Gathers.call rfl rfl
      · exact .done rfl

theorem steps (start : Mark) (operand : Tree .expr) (s : State) :
    (Grammar.steps start operand).Gathers layout s (headings operand) fun value _ hs =>
      headings value = hs := by
  unfold Grammar.steps
  apply ahead_bind
  cases lookup trailingOp? s.ahead with
  | none => exact .done rfl
  | some op =>
    apply quiet_bind (.advance _)
    intro _ _
    apply since_bind
    intro e _
    exact Gathers.call rfl rfl

protected theorem trailing : trailing.Announces layout := by
  intro s
  unfold Grammar.trailing
  apply quiet_bind .mark
  intro start _
  apply part_bind Announces.primary
  intro first _
  apply whole_bind (Gathers.call rfl rfl)
  intro selected _
  exact Gathers.call rfl rfl

protected theorem cast : cast.Announces layout := by
  intro s
  unfold Grammar.cast
  apply quiet_bind .mark
  intro start _
  apply quiet_bind (.expect _)
  intro _ _
  apply part_bind (call rfl rfl)
  intro type _
  apply part_bind (call rfl rfl)
  intro bounds _
  apply quiet_bind (.expect _)
  intro _ _
  apply quiet_bind .startsLambda
  intro found _
  apply Gathers.joined
  refine part_bind (ite (call rfl rfl) (call rfl rfl)) ?_
  intro operand _
  exact Gathers.close fun _ => rfl

protected theorem unary : unary.Announces layout := by
  intro s
  unfold Grammar.unary
  apply quiet_bind .view
  intro v _
  cases lookup leadingOp? v.ahead with
  | some op =>
    apply quiet_bind (.advance _)
    intro _ _
    apply ahead_bind
    apply Gathers.ite
    · apply part_bind (Announces.literal _)
      intro number _
      exact Gathers.call rfl rfl
    · apply part_bind (call rfl rfl)
      intro operand _
      exact Gathers.close fun _ => rfl
  | none => exact Gathers.ite (Announces.cast _) (Announces.trailing _)

/-! Lambdas. -/

protected theorem lambdaParam : lambdaParam.Announces layout := by
  intro s
  unfold Grammar.lambdaParam
  apply quiet_bind .mark
  intro start _
  apply dropped_bind (call rfl rfl)
  rintro ⟨modifiers, annotations⟩ _
  apply ahead_bind
  apply Gathers.ite
  · apply quiet_bind .identifier
    intro name _
    exact Gathers.close fun _ => rfl
  · apply part_bind (call rfl rfl)
    intro type _
    apply quiet_bind (.accept _)
    intro found _
    apply quiet_bind .identifier
    intro name _
    apply since_bind
    intro e _
    cases found with
    | true => exact .done (type.headings_addDims 1)
    | false => exact .done rfl

protected theorem lambdaParamList : lambdaParamList.Announces layout :=
  separated .comma Announces.lambdaParam rfl rfl

protected theorem lambdaParams : lambdaParams.Announces layout := by
  intro s
  unfold Grammar.lambdaParams
  apply quiet_bind .view
  intro v _
  apply Gathers.ite
  · apply quiet_bind .takeText
    intro name _
    exact .done rfl
  · apply quiet_bind (.expect _)
    intro _ _
    apply quiet_bind (.check _)
    intro found _
    apply part_bind (listIf (call rfl rfl))
    intro params _
    apply quiet_bind (.expect _)
    intro _ _
    exact .done rfl

protected theorem lambda : lambda.Announces layout := by
  intro s
  unfold Grammar.lambda
  apply quiet_bind .mark
  intro start _
  apply part_bind Announces.lambdaParams
  intro params _
  apply quiet_bind (.expect _)
  intro _ _
  apply quiet_bind (.check _)
  intro found _
  apply Gathers.ite
  · apply part_bind (call rfl rfl)
    intro block _
    exact Gathers.close fun _ => rfl
  · apply part_bind (call rfl rfl)
    intro value _
    exact Gathers.close fun _ => rfl

end Rule.Announces

end JavaSyntax
