import JavaSyntax.Proofs.MoveTypes

/-!
The rules for expressions move.
-/

namespace JavaSyntax

open Grammar
open Movable (move)

namespace Moves

variable {n : Nat}

protected theorem expr : Moves n expr expr := by
  unfold Grammar.expr
  apply startsLambda_bind
  intro found
  apply ite rfl
  · exact call rfl rfl
  · apply mark_bind
    intro start
    apply bind (call rfl rfl)
    intro target
    apply ahead_bind
    intro ts us hts
    rw [hts.lookup]
    cases lookup assignOp? ts with
    | none => exact .done target
    | some op =>
      apply advance_bind
      apply bind (call rfl rfl)
      intro value
      apply since_bind
      intro extent
      exact .done (Tree.assign target op value extent)

protected theorem conditional : Moves n conditional conditional := by
  unfold Grammar.conditional
  apply mark_bind
  intro start
  apply bind (call rfl rfl)
  intro condition
  apply accept_bind
  intro found
  apply ite rfl
  · apply bind (call rfl rfl)
    intro yes
    have hrest (no : Tree .expr) :
        Moves n (since start >>= fun e => Pure.pure (Tree.conditional condition yes no e))
          (since (start.move n) >>= fun e =>
            Pure.pure (Tree.conditional (condition.move n) (yes.move n) (no.move n) e)) := by
      apply since_bind
      intro extent
      exact .done (Tree.conditional condition yes no extent)
    apply expect_bind
    apply startsLambda_bind
    intro found
    apply ite rfl
    · apply bind (call rfl rfl)
      exact hrest
    · apply bind (call rfl rfl)
      exact hrest
  · exact .done condition

protected theorem binary (least : Nat) : Moves n (binary least) (binary least) := by
  unfold Grammar.binary
  apply mark_bind
  intro start
  apply bind (call rfl rfl)
  intro left
  exact call rfl rfl

protected theorem binaryRest (least : Nat) (start : Mark) (left : Tree .expr) :
    Moves n (binaryRest least start left) (binaryRest least (start.move n) (left.move n)) := by
  unfold Grammar.binaryRest
  apply ahead_bind
  intro ts us hts
  apply ite (hts.next _ rfl)
  · split
    · exact .done left
    · apply advance_bind
      apply accept_bind
      intro _
      apply bind (call rfl rfl)
      intro type
      have hagain (binding : Option String) :
          Moves n (since start >>= fun e =>
              Grammar.call (.binaryRest least start (.instanceOf left type binding e)))
            (since (start.move n) >>= fun e => Grammar.call (.binaryRest least (start.move n)
              (.instanceOf (left.move n) (type.move n) binding e))) := by
        apply since_bind
        intro extent
        exact call rfl rfl
      apply check_bind
      intro found
      apply ite rfl
      · refine bind (map .takeText ?_) hagain
        exact fun _ => rfl
      · exact hagain none
  · rw [hts.lookup]
    cases lookup binaryOp? ts with
    | none => exact .done left
    | some found =>
      obtain ⟨op, level⟩ := found
      dsimp only
      split
      · exact .done left
      · apply advance_bind
        apply bind (call rfl rfl)
        intro right
        apply since_bind
        intro extent
        exact call rfl rfl

theorem literalValue_eq {ts us : List Symbol} (h : Sees ts us) (negated : Bool) :
    us.head?.bind (literalValue · negated) = ts.head?.bind (literalValue · negated) := by
  rcases h.cases with ⟨rfl, rfl⟩ | ⟨x, xs, y, ys, rfl, rfl, hkind, htext⟩
  · rfl
  · simp [literalValue, hkind, htext]

protected theorem literal (negatedFrom : Option Mark) :
    Moves n (literal negatedFrom) (literal (negatedFrom.map (Mark.move n))) := by
  unfold Grammar.literal
  apply view_bind
  intro v v' hv
  have hstart :
      (negatedFrom.map (Mark.move n)).getD v'.mark = (negatedFrom.getD v.mark).move n := by
    rw [hv.mark]
    cases negatedFrom <;> rfl
  rw [hstart, Option.isSome_map, literalValue_eq hv.sees]
  cases v.ahead.head?.bind (literalValue · negatedFrom.isSome) with
  | none => exact raise
  | some value =>
    apply advance_bind
    apply since_bind
    intro extent
    cases value with
    | ok value => exact .done (Tree.literal value extent)
    | error error => exact report_bind

protected theorem arguments : Moves n arguments arguments := by
  unfold Grammar.arguments
  apply expect_bind
  apply check_bind
  intro found
  apply bind (listIf (call rfl rfl) rfl)
  intro args
  apply expect_bind
  exact .done args

protected theorem exprList : Moves n exprList exprList := by
  unfold Grammar.exprList
  exact separated .comma (call rfl rfl) rfl rfl

protected theorem nameOrCall (start : Mark) :
    Moves n (nameOrCall start) (nameOrCall (start.move n)) := by
  unfold Grammar.nameOrCall
  apply takeText_bind
  intro name
  apply check_bind
  intro found
  apply ite rfl
  · apply bind Moves.arguments
    intro args
    apply since_bind
    intro extent
    exact .done (Tree.call .none .nil name args extent)
  · apply since_bind
    intro extent
    exact .done (Tree.ident name extent)

protected theorem arrayInit : Moves n arrayInit arrayInit := by
  unfold Grammar.arrayInit
  apply mark_bind
  intro start
  apply expect_bind
  apply bind (call rfl rfl)
  intro elements
  apply expect_bind
  apply since_bind
  intro extent
  exact .done (Tree.arrayInit elements extent)

protected theorem initialValue : Moves n initialValue initialValue := by
  unfold Grammar.initialValue
  apply check_bind
  intro found
  apply ite rfl
  · apply bind (call rfl rfl)
    intro init
    exact .done (Tree.arrayValue init)
  · exact call rfl rfl

protected theorem arrayElements : Moves n arrayElements arrayElements := by
  unfold Grammar.arrayElements
  apply ahead_bind
  intro ts us hts
  apply ite (ends_eq hts _)
  · exact .done Tree.nil
  · exact separated .comma Moves.initialValue rfl rfl

protected theorem sizes : Moves n sizes sizes := by
  unfold Grammar.sizes
  apply ahead_bind
  intro ts us hts
  rw [hts.next _ rfl, hts.next _ rfl]
  apply ite rfl
  · apply advance_bind
    apply bind (call rfl rfl)
    intro first
    apply expect_bind
    apply bind (call rfl rfl)
    intro rest
    exact .done (Tree.cons first rest)
  · exact .done Tree.nil

protected theorem newArray (start : Mark) (type : Tree .type) :
    Moves n (newArray start type) (newArray (start.move n) (type.move n)) := by
  cases type with
  | type outer name args diamond annotations read extent =>
    apply bind (listIf (call rfl rfl) rfl)
    intro sizes
    have hrest (k : Nat) :
        Moves n
          (check .lbrace >>= fun found => Grammar.optionIf found (Grammar.call .arrayInit) >>=
            fun init => if (sizes.isNil && init.toOption.isNone) = true then
                view >>= fun v => Grammar.raise ⟨.dimensionMissing, v.here⟩
              else since start >>= fun e => Pure.pure (Tree.newArray
                (.type outer name args diamond annotations 0 extent) sizes k init e))
          (check .lbrace >>= fun found => Grammar.optionIf found (Grammar.call .arrayInit) >>=
            fun init => if ((sizes.move n).isNil && init.toOption.isNone) = true then
                view >>= fun v => Grammar.raise ⟨.dimensionMissing, v.here⟩
              else since (start.move n) >>= fun e => Pure.pure (Tree.newArray
                ((Tree.type outer name args diamond annotations 0 extent).move n) (sizes.move n) k
                init e)) := by
      apply check_bind
      intro found
      apply bind (optionIf (call rfl rfl) rfl)
      intro init
      apply ite
      · have hnone : (move n init).toOption.isNone = init.toOption.isNone :=
          init.isNone_toOption_move n
        rw [Tree.isNil_move, hnone]
      · apply view_bind
        intro v v' hv
        exact raise
      · apply since_bind
        intro e
        exact .done (Tree.newArray (.type outer name args diamond annotations 0 extent) sizes k init
          e)
    apply ite rfl
    · apply dims_bind
      exact hrest
    · exact hrest read

protected theorem classBody (owner : String) : Moves n (classBody owner) (classBody owner) := by
  unfold Grammar.classBody
  apply expect_bind
  apply bind (call rfl rfl)
  intro members
  apply require_bind
  exact .done members

protected theorem creation (start : Mark) (outer : Tree (.option .expr)) :
    Moves n (creation start outer) (creation (start.move n) (outer.move n)) := by
  unfold Grammar.creation
  apply expect_bind
  apply check_bind
  intro found
  apply bind (listIf (call rfl rfl) rfl)
  intro _
  apply bind (call rfl rfl)
  intro type
  apply check_bind
  intro found
  have harray : (found || (move n type).isArray) = (found || type.isArray) :=
    congrArg _ (type.isArray_move n)
  apply ite harray
  · exact Moves.newArray start type
  · apply bind Moves.arguments
    intro args
    apply check_bind
    intro found
    apply bind (optionIf (Moves.classBody "") rfl)
    intro body
    apply since_bind
    intro extent
    exact .done (Tree.newObject outer type args body extent)

protected theorem primitiveExpr : Moves n primitiveExpr primitiveExpr := by
  unfold Grammar.primitiveExpr
  apply bind (call rfl rfl)
  intro type
  apply view_bind
  intro v v' hv
  rw [hv.sees.next _ rfl, hv.sees.next _ rfl]
  apply ite rfl
  · exact .done (Tree.typeExpr type)
  · exact raise

protected theorem primary : Moves n primary primary := by
  unfold Grammar.primary
  apply view_bind
  intro v v' hv
  rw [hv.sees.headKind, hv.mark]
  generalize v.ahead.head?.map Symbol.kind = k
  split
  · exact Moves.nameOrCall v.mark
  · exact Moves.nameOrCall v.mark
  · apply advance_bind
    apply bind (call rfl rfl)
    intro inner
    apply expect_bind
    apply since_bind
    intro extent
    exact .done (Tree.paren inner extent)
  · exact Moves.creation v.mark .none
  · apply advance_bind
    apply bind (call rfl rfl)
    intro ⟨selector, cases⟩
    apply since_bind
    intro extent
    exact .done (Tree.switchExpr selector cases extent)
  · apply ite hv.sees.isTypeQualifier
    · apply bind (call rfl rfl)
      intro type
      exact .done (Tree.typeExpr type)
    · exact Moves.nameOrCall v.mark
  · apply ite rfl
    · exact Moves.literal none
    · apply ite rfl
      · exact Moves.primitiveExpr
      · exact raise
  · exact raise

protected theorem memberSelector (start : Mark) (target : Tree .expr) :
    Moves n (memberSelector start target) (memberSelector (start.move n) (target.move n)) := by
  unfold Grammar.memberSelector
  have hselect : Moves n
      (takeText >>= fun name => since start >>= fun e => Pure.pure (Tree.select target name e))
      (takeText >>= fun name => since (start.move n) >>= fun e =>
        Pure.pure (Tree.select (target.move n) name e)) := by
    apply takeText_bind
    intro name
    apply since_bind
    intro extent
    exact .done (Tree.select target name extent)
  apply ahead_bind
  intro ts us hts
  apply ite (hts.nextOneOf _)
  · exact hselect
  · apply ite (hts.next _ rfl)
    · apply takeText_bind
      intro name
      apply check_bind
      intro found
      apply ite rfl
      · apply bind Moves.arguments
        intro args
        apply since_bind
        intro extent
        exact .done (Tree.call (.some target) .nil name args extent)
      · apply since_bind
        intro extent
        exact .done (Tree.select target name extent)
    · apply ite (hts.next _ rfl)
      · exact Moves.creation start (.some target)
      · apply bind (listIf (call rfl rfl) (hts.next _ rfl))
        intro typeArgs
        have hnil : (move n typeArgs).isNil = typeArgs.isNil := typeArgs.isNil_move n
        rw [hnil]
        apply identifier_bind
        intro name
        apply check_bind
        intro found
        apply ite rfl
        · apply bind Moves.arguments
          intro args
          apply since_bind
          intro extent
          exact .done (Tree.call (.some target) typeArgs name args extent)
        · apply since_bind
          intro extent
          exact .done (Tree.select target name extent)

protected theorem referenceSelector (start : Mark) (target : Tree .expr) :
    Moves n (referenceSelector start target)
      (referenceSelector (start.move n) (target.move n)) := by
  unfold Grammar.referenceSelector
  apply check_bind
  intro found
  apply bind (listIf (call rfl rfl) rfl)
  intro typeArgs
  have hrest (name : String) :
      Moves n (since start >>= fun e => Pure.pure (Tree.methodRef target typeArgs name e))
        (since (start.move n) >>= fun e =>
          Pure.pure (Tree.methodRef (target.move n) (typeArgs.move n) name e)) := by
    apply since_bind
    intro extent
    exact .done (Tree.methodRef target typeArgs name extent)
  apply check_bind
  intro found
  apply ite rfl
  · apply takeText_bind
    exact hrest
  · apply identifier_bind
    exact hrest

protected theorem selectors (start : Mark) (target : Tree .expr) :
    Moves n (selectors start target) (selectors (start.move n) (target.move n)) := by
  unfold Grammar.selectors
  apply accept_bind
  intro dot
  apply ite rfl
  · apply bind (Moves.memberSelector start target)
    intro selected
    exact call rfl rfl
  · apply accept_bind
    intro bracket
    apply ite rfl
    · apply bind (call rfl rfl)
      intro index
      apply expect_bind
      apply since_bind
      intro extent
      exact call rfl rfl
    · apply accept_bind
      intro colons
      apply ite rfl
      · apply bind (Moves.referenceSelector start target)
        intro selected
        exact call rfl rfl
      · exact .done target

protected theorem steps (start : Mark) (operand : Tree .expr) :
    Moves n (steps start operand) (steps (start.move n) (operand.move n)) := by
  unfold Grammar.steps
  apply ahead_bind
  intro ts us hts
  rw [hts.lookup]
  cases lookup trailingOp? ts with
  | none => exact .done operand
  | some op =>
    apply advance_bind
    apply since_bind
    intro extent
    exact call rfl rfl

protected theorem trailing : Moves n trailing trailing := by
  unfold Grammar.trailing
  apply mark_bind
  intro start
  apply bind Moves.primary
  intro first
  apply bind (call rfl rfl)
  intro selected
  exact call rfl rfl

protected theorem cast : Moves n cast cast := by
  unfold Grammar.cast
  apply mark_bind
  intro start
  apply expect_bind
  apply bind (call rfl rfl)
  intro type
  apply bind (call rfl rfl)
  intro bounds
  have hrest (operand : Tree .expr) :
      Moves n (since start >>= fun e => Pure.pure (Tree.cast type bounds operand e))
        (since (start.move n) >>= fun e =>
          Pure.pure (Tree.cast (type.move n) (bounds.move n) (operand.move n) e)) := by
    apply since_bind
    intro extent
    exact .done (Tree.cast type bounds operand extent)
  apply expect_bind
  apply startsLambda_bind
  intro found
  apply ite rfl
  · apply bind (call rfl rfl)
    exact hrest
  · apply bind (call rfl rfl)
    exact hrest

protected theorem unary : Moves n unary unary := by
  unfold Grammar.unary
  apply view_bind
  intro v v' hv
  rw [hv.sees.lookup, hv.mark]
  cases lookup leadingOp? v.ahead with
  | some op =>
    apply advance_bind
    apply ahead_bind
    intro ts us hts
    rw [hts.nextOneOf]
    split
    · apply bind (Moves.literal (some v.mark))
      intro number
      exact call rfl rfl
    · apply bind (call rfl rfl)
      intro operand
      apply since_bind
      intro extent
      exact .done (Tree.unary op operand extent)
  | none =>
    have hcast : (Lookahead.next [.lparen] v'.ahead && Lookahead.isCast v'.ahead) =
        (Lookahead.next [.lparen] v.ahead && Lookahead.isCast v.ahead) := by
      rw [hv.sees.next _ rfl]
      cases hparen : Lookahead.next [.lparen] v.ahead with
      | false => rfl
      | true => rw [hv.sees.isCast hparen]
    apply ite hcast
    · exact Moves.cast
    · exact Moves.trailing

protected theorem lambdaParam : Moves n lambdaParam lambdaParam := by
  unfold Grammar.lambdaParam
  apply mark_bind
  intro start
  apply bind (call rfl rfl)
  intro ⟨modifiers, _⟩
  have hrest (type : Tree (.option .type)) :
      Moves n (identifier >>= fun name => since start >>= fun e =>
          Pure.pure (Tree.lambdaParam modifiers type name e))
        (identifier >>= fun name => since (start.move n) >>= fun e =>
          Pure.pure (Tree.lambdaParam modifiers (type.move n) name e)) := by
    apply identifier_bind
    intro name
    apply since_bind
    intro extent
    exact .done (Tree.lambdaParam modifiers type name extent)
  apply ahead_bind
  intro ts us hts
  rw [hts.next _ rfl, hts.next _ rfl]
  apply ite rfl
  · exact hrest .none
  · apply bind (call rfl rfl)
    intro type
    apply accept_bind
    intro found
    cases found with
    | true =>
      have hdims : (Tree.some (type.addDims 1)).move n = .some ((type.move n).addDims 1) :=
        congrArg _ (Tree.addDims_move n type 1)
      have hvarargs := hrest (.some (type.addDims 1))
      rw [hdims] at hvarargs
      exact hvarargs
    | false => exact hrest (.some type)

protected theorem lambdaParamList : Moves n lambdaParamList lambdaParamList := by
  unfold Grammar.lambdaParamList
  exact separated .comma Moves.lambdaParam rfl rfl

protected theorem lambdaParams : Moves n lambdaParams lambdaParams := by
  unfold Grammar.lambdaParams
  apply view_bind
  intro v v' hv
  apply ite (hv.sees.next _ rfl)
  · rw [hv.here]
    apply takeText_bind
    intro name
    exact .done (Tree.cons (.lambdaParam [] .none name v.here) .nil)
  · apply expect_bind
    apply check_bind
    intro found
    apply bind (listIf (call rfl rfl) rfl)
    intro params
    apply expect_bind
    exact .done params

protected theorem lambda : Moves n lambda lambda := by
  unfold Grammar.lambda
  apply mark_bind
  intro start
  apply bind Moves.lambdaParams
  intro params
  have hrest (body : Tree .lambdaBody) :
      Moves n (since start >>= fun e => Pure.pure (Tree.lambda params body e))
        (since (start.move n) >>= fun e =>
          Pure.pure (Tree.lambda (params.move n) (body.move n) e)) := by
    apply since_bind
    intro extent
    exact .done (Tree.lambda params body extent)
  apply expect_bind
  apply check_bind
  intro found
  apply ite rfl
  · apply bind (call rfl rfl)
    intro block
    exact hrest (.blockBody block)
  · apply bind (call rfl rfl)
    intro value
    exact hrest (.exprBody value)

end Moves

end JavaSyntax
