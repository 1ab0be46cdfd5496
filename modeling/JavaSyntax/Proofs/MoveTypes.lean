import JavaSyntax.Proofs.Alongside

/-!
The rules for annotations, types, type arguments and type parameters move.
-/

namespace JavaSyntax

open Grammar
open Movable (move)

namespace Moves

variable {n : Nat}

protected theorem annot : Moves n annot annot := by
  unfold Grammar.annot
  apply mark_bind
  intro start
  apply expect_bind
  apply qualifiedName_bind
  intro name
  apply accept_bind
  intro found
  apply ite rfl
  · have hclose (elements : Tree (.list .element)) :
        Moves n (expect .rparen >>= fun _ => since start >>= fun e =>
            Pure.pure (Tree.annot name elements e))
          (expect .rparen >>= fun _ => since (start.move n) >>= fun e =>
            Pure.pure (Tree.annot name (elements.move n) e)) := by
      apply expect_bind
      apply since_bind
      intro extent
      exact .done (Tree.annot name elements extent)
    apply ahead_bind
    intro ts us hts
    apply ite (hts.next _ rfl)
    · apply bind (call rfl rfl)
      intro elements
      exact hclose elements
    · apply ite (hts.next _ rfl)
      · exact hclose .nil
      · apply bind (call rfl rfl)
        intro value
        exact hclose (.cons (.element none value) .nil)
  · apply since_bind
    intro extent
    exact .done (Tree.annot name .nil extent)

protected theorem annotations (onType : Bool) :
    Moves n (annotations onType) (annotations onType) := by
  unfold Grammar.annotations
  apply ahead_bind
  intro ts us hts
  rw [hts.next _ rfl, hts.next _ rfl]
  apply ite rfl
  · apply bind (call rfl rfl)
    intro first
    apply bind (call rfl rfl)
    intro rest
    exact .done (Tree.cons first rest)
  · exact .done Tree.nil

protected theorem namedElements : Moves n namedElements namedElements := by
  unfold Grammar.namedElements
  apply identifier_bind
  intro key
  apply expect_bind
  apply bind (call rfl rfl)
  intro value
  apply accept_bind
  intro found
  apply bind (listIf (call rfl rfl) rfl)
  intro rest
  exact .done (Tree.cons (.element (some key) value) rest)

protected theorem elementValue : Moves n elementValue elementValue := by
  unfold Grammar.elementValue
  apply ahead_bind
  intro ts us hts
  apply ite (hts.next _ rfl)
  · apply bind (call rfl rfl)
    intro annot
    exact .done (Tree.annotationValue annot)
  · apply ite (hts.next _ rfl)
    · apply mark_bind
      intro start
      apply advance_bind
      apply bind (call rfl rfl)
      intro elements
      apply expect_bind
      apply since_bind
      intro extent
      exact .done (Tree.arrayValue (.arrayInit elements extent))
    · exact call rfl rfl

/-- A list that ends at the end of the file or at a closing symbol. -/
theorem ends_eq {ts us : List Symbol} (h : Sees ts us) (k : Kind) :
    (us.isEmpty || Lookahead.next [k] us) = (ts.isEmpty || Lookahead.next [k] ts) := by
  rw [h.isEmpty, h.next _ rfl]

protected theorem elementValues : Moves n elementValues elementValues := by
  unfold Grammar.elementValues
  apply ahead_bind
  intro ts us hts
  apply ite (ends_eq hts _)
  · exact .done Tree.nil
  · exact separated .comma (call rfl rfl) rfl rfl

theorem completeType_move (annotations : Tree (.list .annot)) (k : Nat) (e : Extent)
    (type : Tree .type) : completeType (annotations.move n) k (e.move n) (type.move n) =
      (completeType annotations k e type).move n := by
  cases type
  rfl

protected theorem type : Moves n type type := by
  unfold Grammar.type
  apply mark_bind
  intro start
  apply bind (call rfl rfl)
  intro annotations
  have hrest (named : Tree .type) :
      Moves n (dims >>= fun k => since start >>= fun e =>
          Pure.pure (completeType annotations k e named))
        (dims >>= fun k => since (start.move n) >>= fun e =>
          Pure.pure (completeType (annotations.move n) k e (named.move n))) := by
    apply dims_bind
    intro k
    apply since_bind
    intro extent
    exact Moves.pure (completeType_move ..)
  apply view_bind
  intro v v' hv
  apply ite (hv.sees.next _ rfl)
  · apply takeText_bind
    intro name
    apply bind (call rfl rfl)
    intro named
    exact hrest named
  · have hprimitive : (v'.ahead.head?.any fun s => s.kind.isPrimitive) =
        v.ahead.head?.any fun s => s.kind.isPrimitive := by
      have hkind := congrArg (Option.any Kind.isPrimitive) hv.sees.headKind
      simpa [Option.any_map] using hkind
    apply ite hprimitive
    · apply takeText_bind
      intro name
      exact hrest (.type .none name .nil false .nil 0 (.point start))
    · exact raise_bind

protected theorem typeSegments (start : Mark) (outer : Tree (.option .type)) (name : String)
    (diamond : Bool) : Moves n (typeSegments start outer name diamond)
      (typeSegments (start.move n) (outer.move n) name diamond) := by
  unfold Grammar.typeSegments
  apply check_bind
  intro opened
  apply bind (listIf (call rfl rfl) rfl)
  intro args
  have hnil : (move n args).isNil = args.isNil := args.isNil_move n
  rw [hnil]
  apply ahead_bind
  intro ts us hts
  rw [hts.next _ rfl, hts.next _ rfl]
  apply ite rfl
  · apply advance_bind
    apply bind (call rfl rfl)
    intro _
    apply identifier_bind
    intro segment
    apply ite rfl
    · exact call rfl rfl
    · apply since_bind
      intro extent
      exact call rfl rfl
  · exact .done (Tree.type outer name args _ .nil 0 (.point start))

protected theorem closeAngle : Moves n closeAngle closeAngle := by
  unfold Grammar.closeAngle
  apply view_bind
  intro v v' hv
  apply ite (hv.sees.next _ rfl)
  · exact .advance 1 (.done ())
  · apply ite (hv.sees.nextOneOf _)
    · exact .splitAngle (.done ())
    · exact raise

protected theorem typeArgs : Moves n typeArgs typeArgs := by
  unfold Grammar.typeArgs
  apply expect_bind
  apply ahead_bind
  intro ts us hts
  have hcloses : closesAngle us = closesAngle ts := hts.nextOneOf _
  apply bind (listIf (call rfl rfl) (congrArg _ hcloses))
  intro args
  apply bind Moves.closeAngle
  intro _
  exact .done args

theorem annotatedType_move (before : Tree (.list .annot)) (e : Extent) (type : Tree .type) :
    annotatedType (before.move n) (e.move n) (type.move n) =
      (annotatedType before e type).move n := by
  cases type with
  | type outer name args diamond annotations dims extent =>
    exact congrArg (fun all => Tree.type (outer.move n) name (args.move n) diamond all dims
      (e.move n)) (Tree.append_move n before annotations).symm

protected theorem typeArg : Moves n typeArg typeArg := by
  unfold Grammar.typeArg
  apply mark_bind
  intro start
  apply bind (call rfl rfl)
  intro annotations
  apply accept_bind
  intro question
  apply ite rfl
  · apply accept_bind
    intro above
    apply ite rfl
    · apply bind (call rfl rfl)
      intro bound
      apply since_bind
      intro extent
      exact .done (Tree.wildcardExtends annotations bound extent)
    · apply accept_bind
      intro below
      apply ite rfl
      · apply bind (call rfl rfl)
        intro bound
        apply since_bind
        intro extent
        exact .done (Tree.wildcardSuper annotations bound extent)
      · apply since_bind
        intro extent
        exact .done (Tree.wildcard annotations extent)
  · apply bind (call rfl rfl)
    intro type
    apply since_bind
    intro extent
    exact Moves.pure (congrArg Tree.typeArg (annotatedType_move ..))

protected theorem typeArgList : Moves n typeArgList typeArgList := by
  unfold Grammar.typeArgList
  exact separated .comma Moves.typeArg rfl rfl

protected theorem typesAfter (separator : Kind) :
    Moves n (typesAfter separator) (typesAfter separator) := by
  unfold Grammar.typesAfter
  apply accept_bind
  intro found
  apply ite rfl
  · apply bind (call rfl rfl)
    intro first
    apply bind (call rfl rfl)
    intro rest
    exact .done (Tree.cons first rest)
  · exact .done Tree.nil

protected theorem typeList : Moves n typeList typeList := by
  unfold Grammar.typeList
  apply bind (call rfl rfl)
  intro first
  apply bind (call rfl rfl)
  intro rest
  exact .done (Tree.cons first rest)

protected theorem typeParam : Moves n typeParam typeParam := by
  unfold Grammar.typeParam
  apply mark_bind
  intro start
  apply bind (call rfl rfl)
  intro annotations
  apply identifier_bind
  intro name
  apply accept_bind
  intro found
  apply bind
  · apply listIf _ rfl
    apply bind (call rfl rfl)
    intro first
    apply bind (call rfl rfl)
    intro rest
    exact .done (Tree.cons first rest)
  · intro bounds
    apply since_bind
    intro extent
    exact .done (Tree.typeParam annotations name bounds extent)

protected theorem typeParamList : Moves n typeParamList typeParamList := by
  unfold Grammar.typeParamList
  exact separated .comma Moves.typeParam rfl rfl

protected theorem typeParams : Moves n typeParams typeParams := by
  unfold Grammar.typeParams
  apply accept_bind
  intro found
  apply ite rfl
  · apply bind (call rfl rfl)
    intro params
    apply bind Moves.closeAngle
    intro _
    exact .done params
  · exact .done Tree.nil

end Moves

end JavaSyntax
