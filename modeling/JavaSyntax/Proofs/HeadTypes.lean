import JavaSyntax.Proofs.Headings

/-!
The rules for annotations, types, type arguments and type parameters gather the headings of their
trees.
-/

namespace JavaSyntax

open Grammar
open Headed (headings)

@[simp] theorem Tree.headings_annotatedType (before : Tree (.list .annot)) (e : Extent)
    (type : Tree .type) :
    (annotatedType before e type).headings = before.headings ++ type.headings := by
  cases type with
  | type outer name args diamond annotations dims extent =>
    calc
      (before.append annotations).headings ++ outer.headings ++ args.headings
        = before.headings ++ annotations.headings ++ outer.headings ++ args.headings := by
          rw [Tree.headings_append]
      _ = before.headings ++ (annotations.headings ++ outer.headings ++ args.headings) := by
          simp only [List.append_assoc]

namespace Rule.Announces

open Rule.Gathers (part_bind whole_bind quiet_bind known_bind since_bind ahead_bind dropped_bind)

variable {layout : Layout}

/-! Annotations. -/

protected theorem annot : annot.Announces layout := by
  intro s
  unfold Grammar.annot
  apply quiet_bind .mark
  intro start _
  apply quiet_bind (.expect _)
  intro _ _
  apply quiet_bind .qualifiedName
  intro name _
  have hclosed (elements : Tree (.list .element)) (t : State) :
      (expect .rparen >>= fun _ => since start >>= fun e =>
        pure (Tree.annot name elements e)).Gathers layout t (headings elements)
          fun value _ hs => headings value = hs := by
    apply quiet_bind (.expect _)
    intro _ _
    exact Gathers.close fun _ => rfl
  apply quiet_bind (.accept _)
  intro found t
  apply Gathers.ite
  · apply ahead_bind
    apply Gathers.ite
    · exact whole_bind (call rfl rfl _) hclosed
    · apply Gathers.ite
      · exact hclosed .nil _
      · apply part_bind (call rfl rfl)
        intro value t
        have hone : headings (Tree.cons (.element none value) .nil) = [] ++ headings value :=
          List.append_nil _
        rw [← hone]
        exact hclosed _ t
  · exact Gathers.close fun _ => rfl

protected theorem annotations (onType : Bool) : (annotations onType).Announces layout := by
  intro s
  unfold Grammar.annotations
  apply ahead_bind
  apply Gathers.ite
  · apply part_bind (call rfl rfl)
    intro first _
    apply part_bind (call rfl rfl)
    intro rest _
    exact .done rfl
  · exact .done rfl

protected theorem namedElements : namedElements.Announces layout := by
  intro s
  unfold Grammar.namedElements
  apply quiet_bind .identifier
  intro key _
  apply quiet_bind (.expect _)
  intro _ _
  apply part_bind (call rfl rfl)
  intro value _
  apply quiet_bind (.accept _)
  intro found _
  apply part_bind (listIf (call rfl rfl))
  intro rest _
  exact .done rfl

protected theorem elementValue : elementValue.Announces layout := by
  intro s
  unfold Grammar.elementValue
  apply ahead_bind
  apply Gathers.ite
  · apply part_bind (call rfl rfl)
    intro annot _
    exact .done rfl
  · apply Gathers.ite
    · apply quiet_bind .mark
      intro start _
      apply quiet_bind (.advance _)
      intro _ _
      apply part_bind (call rfl rfl)
      intro elements _
      apply quiet_bind (.expect _)
      intro _ _
      exact Gathers.close fun _ => rfl
    · exact call rfl rfl _

protected theorem elementValues : elementValues.Announces layout := by
  intro s
  unfold Grammar.elementValues
  apply ahead_bind
  apply Gathers.ite
  · exact .done rfl
  · exact separated .comma (call rfl rfl) rfl rfl _

/-! Types. -/

protected theorem type : type.Announces layout := by
  intro s
  unfold Grammar.type
  apply quiet_bind .mark
  intro start _
  apply part_bind (call rfl rfl)
  intro annotations _
  have hcompleted (named : Tree .type) (hnamed : named.annotations = .nil) (t : State) :
      (dims >>= fun n => since start >>= fun e =>
        pure (completeType annotations n e named)).Gathers layout t
          (headings annotations ++ headings named) fun value _ hs => headings value = hs := by
    apply quiet_bind .dims
    intro n _
    apply since_bind
    intro e _
    cases named
    cases hnamed
    exact .done (List.append_assoc _ _ _)
  apply quiet_bind .view
  intro v _
  apply Gathers.ite
  · apply quiet_bind .takeText
    intro name _
    apply known_bind rfl rfl
    intro named t hnamed
    exact hcompleted named hnamed t
  · apply Gathers.ite
    · apply quiet_bind .takeText
      intro name t
      rw [← List.append_nil ([] ++ headings annotations)]
      exact hcompleted (.type .none name .nil false .nil 0 (.point start)) rfl t
    · trivial

/-- A type read from its name on goes on from the type around it. -/
theorem typeSegments (start : Mark) (outer : Tree (.option .type)) (name : String) (diamond : Bool)
    (s : State) : (Grammar.typeSegments start outer name diamond).Gathers layout s (headings outer)
      fun type _ hs => type.annotations = .nil ∧ headings type = hs := by
  unfold Grammar.typeSegments
  apply quiet_bind (.check _)
  intro opened _
  apply part_bind (listIf (call rfl rfl))
  intro args _
  apply ahead_bind
  apply Gathers.ite
  · apply quiet_bind (.advance _)
    intro _ _
    apply dropped_bind (call rfl rfl)
    intro _ _
    apply quiet_bind .identifier
    intro segment _
    cases args with
    | nil => exact Gathers.call_known (List.append_nil _).symm rfl
    | cons head tail =>
      apply since_bind
      intro e _
      exact Gathers.call_known rfl rfl
  · exact .done ⟨rfl, rfl⟩

protected theorem typeArgs : typeArgs.Announces layout := by
  intro s
  unfold Grammar.typeArgs
  apply quiet_bind (.expect _)
  intro _ _
  apply ahead_bind
  apply part_bind (listIf (call rfl rfl))
  intro args _
  apply quiet_bind .closeAngle
  intro _ _
  exact .done rfl

protected theorem typeArg : typeArg.Announces layout := by
  intro s
  unfold Grammar.typeArg
  apply quiet_bind .mark
  intro start _
  apply part_bind (call rfl rfl)
  intro annotations _
  apply quiet_bind (.accept _)
  intro found _
  apply Gathers.ite
  · apply quiet_bind (.accept _)
    intro above _
    apply Gathers.ite
    · apply part_bind (call rfl rfl)
      intro bound _
      exact Gathers.close fun _ => rfl
    · apply quiet_bind (.accept _)
      intro below _
      apply Gathers.ite
      · apply part_bind (call rfl rfl)
        intro bound _
        exact Gathers.close fun _ => rfl
      · exact Gathers.close fun _ => rfl
  · apply part_bind (call rfl rfl)
    intro type _
    exact Gathers.close fun e => Tree.headings_annotatedType annotations e type

protected theorem typeArgList : typeArgList.Announces layout :=
  separated .comma Announces.typeArg rfl rfl

protected theorem typesAfter (separator : Kind) : (typesAfter separator).Announces layout := by
  intro s
  unfold Grammar.typesAfter
  apply quiet_bind (.accept _)
  intro found _
  apply Gathers.ite
  · apply part_bind (call rfl rfl)
    intro first _
    apply part_bind (call rfl rfl)
    intro rest _
    exact .done rfl
  · exact .done rfl

/-- Types with separators between them. -/
theorem types (separator : Kind) :
    (Grammar.call .type >>= fun first => Grammar.call (.typesAfter separator) >>= fun rest =>
      pure (Tree.cons first rest)).Announces layout := by
  intro s
  apply part_bind (call rfl rfl)
  intro first _
  apply part_bind (call rfl rfl)
  intro rest _
  exact .done rfl

protected theorem typeList : typeList.Announces layout := types .comma

protected theorem typeParam : typeParam.Announces layout := by
  intro s
  unfold Grammar.typeParam
  apply quiet_bind .mark
  intro start _
  apply part_bind (call rfl rfl)
  intro annotations _
  apply quiet_bind .identifier
  intro name _
  apply quiet_bind (.accept _)
  intro found _
  apply part_bind (listIf (types .amp))
  intro bounds _
  exact Gathers.close fun _ => rfl

protected theorem typeParamList : typeParamList.Announces layout :=
  separated .comma Announces.typeParam rfl rfl

protected theorem typeParams : typeParams.Announces layout := by
  intro s
  unfold Grammar.typeParams
  apply quiet_bind (.accept _)
  intro found _
  apply Gathers.ite
  · apply part_bind (call rfl rfl)
    intro params _
    apply quiet_bind .closeAngle
    intro _ _
    exact .done rfl
  · exact .done rfl

end Rule.Announces

end JavaSyntax
