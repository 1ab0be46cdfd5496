import JavaSyntax.Proofs.HeadStatements

/-!
The rules for declarations gather the headings of their trees, and that of each declaration they
check. What goes without one is a compact constructor, whose documentation no rule looks into.
-/

namespace JavaSyntax

open Grammar
open Headed (headings)

/-! Rules for names gather nothing. -/

namespace Rule.IsQuiet

variable {layout : Layout} {α : Type}

theorem call [Headed α] {nonterminal : Nonterminal α} (hgiven : nonterminal.given = [])
    (hresult : nonterminal.headed = ‹Headed α›) (hnone : ∀ value : α, headings value = []) :
    (Grammar.call nonterminal).IsQuiet layout := by
  intro s hs Q h
  refine ⟨⟨hs, ?_, fun value t _ => .done ?_⟩, fun _ => trivial⟩
  · rw [hgiven, List.append_nil]
  · rw [hresult, hnone, List.append_nil]
    exact h value t

theorem announces [Headed α] {rule : Rule α} (h : rule.IsQuiet layout)
    (hnone : ∀ value : α, headings value = []) : rule.Announces layout :=
  fun s => h s [] _ fun value _ => hnone value

theorem clauseStart (mods : Modifiers) : (Grammar.clauseStart mods).IsQuiet layout :=
  ite mark (pure _)

theorem importDecl : Grammar.importDecl.IsQuiet layout := by
  refine bind mark fun start => bind (expect _) fun _ => bind (accept _) fun isStatic =>
    bind qualifiedName fun name => bind (accept _) fun dotted => ?_
  have hend : (Grammar.require .semicolon >>= fun _ => Grammar.since start >>= fun e =>
      Pure.pure (⟨name, isStatic, dotted, e⟩ : ImportDecl)).IsQuiet layout :=
    bind (require _) fun _ => bind (since _) fun _ => pure _
  refine ite ?_ hend
  refine bind (check _) fun star => ite ?_ ?_
  · exact bind identifier fun _ => bind (advance _) fun _ => hend
  · exact bind (advance _) fun _ => hend

theorem names : Grammar.names.IsQuiet layout := by
  refine bind qualifiedName fun first => bind (accept _) fun found => ite ?_ (pure _)
  exact bind (call rfl rfl fun _ => rfl) fun _ => pure _

theorem targets : Grammar.targets.IsQuiet layout := by
  refine bind ahead fun _ => ite ?_ (pure _)
  exact bind (advance _) fun _ => call rfl rfl fun _ => rfl

theorem directive : Grammar.directive.IsQuiet layout := by
  refine bind view fun v => ite ?_ (ite ?_ (ite ?_ (ite ?_ (ite ?_ raise))))
  · exact bind (advance _) fun _ => bind ahead fun _ => bind (advance _) fun _ =>
      bind qualifiedName fun _ => bind (require _) fun _ => bind (since _) fun _ => pure _
  · exact bind (advance _) fun _ => bind qualifiedName fun _ => bind targets fun _ =>
      bind (require _) fun _ => bind (since _) fun _ => pure _
  · exact bind (advance _) fun _ => bind qualifiedName fun _ => bind targets fun _ =>
      bind (require _) fun _ => bind (since _) fun _ => pure _
  · exact bind (advance _) fun _ => bind qualifiedName fun _ => bind (require _) fun _ =>
      bind (since _) fun _ => pure _
  · refine bind (advance _) fun _ => bind qualifiedName fun _ => bind view fun v => ite ?_ raise
    exact bind (advance _) fun _ => bind (call rfl rfl fun _ => rfl) fun _ =>
      bind (require _) fun _ => bind (since _) fun _ => pure _

theorem directives : Grammar.directives.IsQuiet layout := by
  refine bind ahead fun _ => ite (pure _) ?_
  exact bind directive fun _ => bind (call rfl rfl fun _ => rfl) fun _ => pure _

theorem finish : Grammar.finish.IsQuiet layout := by
  have hrest : (Grammar.absorbRest >>= fun _ => Pure.pure ()).IsQuiet layout :=
    bind absorbRest fun _ => pure ()
  exact bind view fun _ => ite (ite (bind report fun _ => hrest) hrest) (pure ())

end Rule.IsQuiet

namespace Rule.Announces

open Rule.Gathers (part_bind whole_bind quiet_bind known_bind since_bind ahead_bind view_bind
  dropped_bind attempt_bind checkDeprecation_bind)

variable {layout : Layout}

/-! Type declarations. -/

theorem declName_bind {β : Type} {mods : Modifiers} {f : String → Rule β} {s : State}
    {hs : List Heading} {Q : β → State → List Heading → Prop}
    (hf : ∀ name t, (f name).Gathers layout t
      (hs ++ heading mods.annotations mods.doc name) Q) :
    (declName mods >>= f).Gathers layout s hs Q := by
  unfold declName
  rw [Rule.bind_assoc]
  apply view_bind
  intro inLabels hplaced
  rw [Rule.bind_assoc]
  apply Gathers.name_bind hplaced
  intro name t hnamed
  rw [Rule.bind_assoc]
  apply checkDeprecation_bind hnamed
  exact hf name

protected theorem listAfter (kind : Kind) : (listAfter kind).Announces layout := by
  intro s
  unfold Grammar.listAfter
  apply quiet_bind (.accept _)
  intro found _
  exact listIf Announces.typeList _

protected theorem permits : permits.Announces layout := by
  intro s
  unfold Grammar.permits
  apply ahead_bind
  apply Gathers.ite
  · apply quiet_bind (.advance _)
    intro _ _
    exact Announces.typeList _
  · exact .done rfl

/-- A declaration takes in its form and its members behind its heading. -/
theorem finishDecl (mods : Modifiers) (name : String) (form : Tree .form)
    (members : Tree (.list .member)) {s : State} {hs : List Heading}
    (hhs : hs = headings mods ++ heading mods.annotations mods.doc name ++ headings form ++
      headings members) :
    (Grammar.finishDecl mods name form members).Gathers layout s hs fun value _ hs =>
      headings value = hs := by
  unfold Grammar.finishDecl
  apply since_bind
  intro e _
  apply Gathers.done
  rw [hhs]
  rfl

theorem classDecl (mods : Modifiers) (s : State) :
    (Grammar.classDecl mods).Gathers layout s (headings mods) fun value _ hs =>
      headings value = hs := by
  unfold Grammar.classDecl
  apply quiet_bind (.expect _)
  intro _ _
  apply declName_bind
  intro name _
  apply part_bind Announces.typeParams
  intro params _
  apply quiet_bind (.accept _)
  intro found _
  apply part_bind (optionIf (call rfl rfl))
  intro parent _
  apply part_bind (Announces.listAfter _)
  intro interfaces _
  apply part_bind Announces.permits
  intro permitted _
  apply part_bind (Announces.classBody name)
  intro members _
  have hform : headings (Tree.classForm params parent interfaces permitted) =
      headings params ++ headings parent ++ headings interfaces ++ headings permitted := rfl
  apply finishDecl
  rw [hform]
  simp only [List.append_assoc]

theorem interfaceDecl (mods : Modifiers) (s : State) :
    (Grammar.interfaceDecl mods).Gathers layout s (headings mods) fun value _ hs =>
      headings value = hs := by
  unfold Grammar.interfaceDecl
  apply quiet_bind (.expect _)
  intro _ _
  apply declName_bind
  intro name _
  apply part_bind Announces.typeParams
  intro params _
  apply part_bind (Announces.listAfter _)
  intro parents _
  apply part_bind Announces.permits
  intro permitted _
  apply part_bind (Announces.classBody name)
  intro members _
  have hform : headings (Tree.interfaceForm params parents permitted) =
      headings params ++ headings parents ++ headings permitted := rfl
  apply finishDecl
  rw [hform]
  simp only [List.append_assoc]

protected theorem enumConstant : enumConstant.Announces layout := by
  intro s
  unfold Grammar.enumConstant
  apply quiet_bind .mark
  intro start _
  apply part_bind (call rfl rfl)
  intro annotations _
  apply quiet_bind .identifier
  intro name _
  apply quiet_bind (.check _)
  intro found _
  apply Gathers.joined
  apply part_bind (optionIf Announces.arguments)
  intro args _
  apply quiet_bind (.check _)
  intro found _
  apply Gathers.joined
  apply part_bind (optionIf (Announces.classBody ""))
  intro body _
  exact Gathers.close fun _ => rfl

protected theorem enumConstants : enumConstants.Announces layout := by
  intro s
  unfold Grammar.enumConstants
  apply ahead_bind
  apply Gathers.ite
  · exact .done rfl
  · exact separated .comma Announces.enumConstant rfl rfl _

theorem enumDecl (mods : Modifiers) (s : State) :
    (Grammar.enumDecl mods).Gathers layout s (headings mods) fun value _ hs =>
      headings value = hs := by
  unfold Grammar.enumDecl
  apply quiet_bind (.expect _)
  intro _ _
  apply declName_bind
  intro name _
  apply part_bind (Announces.listAfter _)
  intro interfaces _
  apply quiet_bind (.expect _)
  intro _ _
  apply part_bind (call rfl rfl)
  intro constants _
  apply quiet_bind (.accept _)
  intro found _
  apply part_bind (listIf (call rfl rfl))
  intro members _
  apply quiet_bind (.require _)
  intro _ _
  have hform : headings (Tree.enumForm interfaces constants) =
      headings interfaces ++ headings constants := rfl
  apply finishDecl
  rw [hform]
  simp only [List.append_assoc]

protected theorem param : param.Announces layout := by
  intro s
  unfold Grammar.param
  apply part_bind Announces.modifiers
  intro mods _
  apply part_bind (call rfl rfl)
  intro type _
  apply dropped_bind (call rfl rfl)
  intro _ _
  apply quiet_bind (.accept _)
  intro varargs _
  apply quiet_bind (.check _)
  intro found _
  apply Gathers.joined
  apply quiet_bind (.ite .takeText .identifier)
  intro name _
  apply quiet_bind .dims
  intro n _
  exact Gathers.close fun _ => congrArg (headings mods ++ ·) (type.headings_addDims n)

protected theorem paramList : paramList.Announces layout :=
  separated .comma Announces.param rfl rfl

protected theorem params : params.Announces layout := by
  intro s
  unfold Grammar.params
  apply quiet_bind (.expect _)
  intro _ _
  apply quiet_bind (.check _)
  intro found _
  apply part_bind (listIf (call rfl rfl))
  intro params _
  apply quiet_bind (.expect _)
  intro _ _
  exact .done rfl

theorem recordDecl (mods : Modifiers) (s : State) :
    (Grammar.recordDecl mods).Gathers layout s (headings mods) fun value _ hs =>
      headings value = hs := by
  unfold Grammar.recordDecl
  apply quiet_bind (.advance _)
  intro _ _
  apply declName_bind
  intro name _
  apply part_bind Announces.typeParams
  intro typeParams _
  apply part_bind Announces.params
  intro components _
  apply part_bind (Announces.listAfter _)
  intro interfaces _
  apply part_bind (Announces.classBody name)
  intro members _
  have hform : headings (Tree.recordForm typeParams components interfaces) =
      headings typeParams ++ headings components ++ headings interfaces := rfl
  apply finishDecl
  rw [hform]
  simp only [List.append_assoc]

theorem annotationDecl (mods : Modifiers) (s : State) :
    (Grammar.annotationDecl mods).Gathers layout s (headings mods) fun value _ hs =>
      headings value = hs := by
  unfold Grammar.annotationDecl
  apply quiet_bind (.expect _)
  intro _ _
  apply quiet_bind (.expect _)
  intro _ _
  apply declName_bind
  intro name _
  apply part_bind (Announces.classBody name)
  intro members _
  have hform : headings Tree.annotationForm = [] := rfl
  apply finishDecl
  rw [hform, List.append_nil]

theorem typeDecl (mods : Modifiers) (s : State) :
    (Grammar.typeDecl mods).Gathers layout s (headings mods) fun value _ hs =>
      headings value = hs := by
  unfold Grammar.typeDecl
  apply quiet_bind .view
  intro v t
  apply Gathers.ite (classDecl mods t)
  apply Gathers.ite (interfaceDecl mods t)
  apply Gathers.ite (enumDecl mods t)
  apply Gathers.ite (annotationDecl mods t)
  apply Gathers.ite (recordDecl mods t)
  trivial

/-! Members. -/

protected theorem members (owner : String) : (members owner).Announces layout := by
  intro s
  unfold Grammar.members
  apply quiet_bind .view
  intro v _
  apply Gathers.ite
  · exact .done rfl
  · apply Gathers.ite
    · apply quiet_bind (.advance _)
      intro _ _
      exact call rfl rfl _
    · apply attempt_bind rfl rfl
      · intro first _
        apply part_bind (call rfl rfl)
        intro rest _
        exact .done rfl
      · intro error
        trivial

protected theorem initBlock (mods : Modifiers) : (initBlock mods).Announces layout := by
  intro s
  unfold Grammar.initBlock
  apply part_bind (call rfl rfl)
  intro body _
  exact Gathers.close fun _ => rfl

theorem constructorDecl (mods : Modifiers) (typeParams : Tree (.list .typeParam)) (owner : String)
    {s : State} (hnext : Lookahead.next [.identifier] s.ahead = true) :
    (Grammar.constructorDecl mods typeParams owner).Gathers layout s
      (headings mods ++ headings typeParams) fun value _ hs => headings value = hs := by
  unfold Grammar.constructorDecl
  apply view_bind
  intro inLabels hplaced
  apply Gathers.takeName_bind hplaced hnext
  intro name _ hnamed
  apply Gathers.optional .report
  intro _
  apply checkDeprecation_bind hnamed
  intro _
  apply part_bind Announces.params
  intro params _
  apply part_bind (Announces.listAfter _)
  intro throws _
  apply part_bind (call rfl rfl)
  intro body _
  apply since_bind
  intro e _
  apply Gathers.done
  rfl

/-- Nothing looks into the documentation of a compact constructor. -/
theorem compactConstructor (mods : Modifiers) (s : State) :
    (Grammar.compactConstructor mods).Gathers layout s (headings mods) fun value _ hs =>
      headings value = hs := by
  unfold Grammar.compactConstructor
  apply quiet_bind .takeText
  intro name _
  apply part_bind (call rfl rfl)
  intro body _
  apply since_bind
  intro e _
  apply Gathers.done
  have hparts : headings (Tree.constructor mods.front mods.annotations .nil name .nil .nil body
      true e) = headings mods ++ [] ++ [] ++ [] ++ [] ++ headings body := rfl
  rw [hparts]
  simp only [List.append_nil]

theorem methodRest (mods : Modifiers) (typeParams : Tree (.list .typeParam))
    (result : Tree (.option .type)) (name : String) (s : State) :
    (Grammar.methodRest mods typeParams result name).Gathers layout s
      (headings mods ++ headings typeParams ++ headings result ++
        heading mods.annotations mods.doc name) fun value _ hs => headings value = hs := by
  unfold Grammar.methodRest
  apply part_bind Announces.params
  intro params _
  apply quiet_bind .dims
  intro n _
  apply part_bind (Announces.listAfter _)
  intro throws _
  apply quiet_bind (.accept _)
  intro found _
  apply part_bind (optionIf (call rfl rfl))
  intro default _
  apply quiet_bind (.check _)
  intro found _
  apply part_bind (optionIf (call rfl rfl))
  intro body _
  apply Gathers.optional (.require _)
  intro _
  apply since_bind
  intro e _
  apply Gathers.done
  cases result with
  | some type =>
    have hresult : headings (Tree.some type) = headings (Tree.some (type.addDims n)) :=
      (type.headings_addDims n).symm
    rw [hresult]
    rfl
  | none => rfl

theorem fieldRest (mods : Modifiers) (type : Tree .type) (name : String) (start : Mark)
    (s : State) : (Grammar.fieldRest mods type name start).Gathers layout s
      (headings mods ++ headings type ++ heading mods.annotations mods.doc name) fun value _ hs =>
        headings value = hs := by
  unfold Grammar.fieldRest
  apply known_bind rfl rfl
  rintro names _ rfl
  apply quiet_bind (.require _)
  intro _ _
  apply since_bind
  intro e _
  apply Gathers.done
  rfl

theorem memberName_bind {β : Type} {f : String → Rule β} {s : State} {hs : List Heading}
    {Q : β → State → List Heading → Prop} {inLabels : Bool} (hplaced : Placed layout s)
    (hf : ∀ name t, layout.Names (s.view inLabels).here name → (f name).Gathers layout t hs Q) :
    (memberName >>= f).Gathers layout s hs Q := by
  unfold memberName
  rw [Rule.bind_assoc]
  apply view_bind
  intro _ _
  cases hnext : Lookahead.next [.identifier] (s.view _).ahead with
  | true => exact Gathers.takeName_bind hplaced hnext hf
  | false =>
    cases Lookahead.next [.lparen] (s.view _).ahead with
    | true => trivial
    | false => trivial

theorem typedMember (mods : Modifiers) (typeParams : Tree (.list .typeParam)) (s : State) :
    (Grammar.typedMember mods typeParams).Gathers layout s (headings mods ++ headings typeParams)
      fun value _ hs => headings value = hs := by
  unfold Grammar.typedMember
  apply quiet_bind (.accept _)
  intro found _
  apply Gathers.joined
  refine part_bind (ite (done rfl) (map (call rfl rfl) fun _ => rfl)) ?_
  intro result _
  apply view_bind
  intro inLabels hplaced
  apply memberName_bind hplaced
  intro name _ hnamed
  apply checkDeprecation_bind hnamed
  intro _
  apply quiet_bind .view
  intro v _
  apply Gathers.ite
  · exact methodRest mods typeParams result name _
  · cases result with
    | some type =>
      refine .drop (List.Sublist.append_right ?_ _) (fieldRest mods type name _ _)
      exact (List.sublist_append_left _ _).append_right _
    | none => trivial

protected theorem member (owner : String) : (member owner).Announces layout := by
  intro s
  unfold Grammar.member
  apply part_bind Announces.modifiers
  intro mods t
  apply ahead_bind
  apply Gathers.ite
  · exact .drop (List.nil_sublist _) (Announces.initBlock mods t)
  · apply Gathers.ite
    · apply whole_bind (Gathers.call rfl rfl)
      intro decl _
      exact .done rfl
    · apply part_bind Announces.typeParams
      intro typeParams t
      apply ahead_bind
      apply Gathers.ite_of
      · intro hnext
        exact constructorDecl mods typeParams owner (next_of_next hnext)
      · intro _
        apply Gathers.ite
        · exact .drop (List.sublist_append_left (headings mods) _) (compactConstructor mods t)
        · exact typedMember mods typeParams t

/-! The top level. -/

theorem packageDecl (mods : Modifiers) (s : State) :
    (Grammar.packageDecl mods).Gathers layout s (headings mods) fun value _ hs =>
      headings value = hs := by
  unfold Grammar.packageDecl
  apply quiet_bind (.clauseStart _)
  intro start _
  apply quiet_bind (.expect _)
  intro _ _
  apply quiet_bind .qualifiedName
  intro name _
  apply quiet_bind (.require _)
  intro _ _
  exact Gathers.close fun _ => rfl

theorem moduleDecl (mods : Modifiers) (s : State) :
    (Grammar.moduleDecl mods).Gathers layout s (headings mods) fun value _ hs =>
      headings value = hs := by
  unfold Grammar.moduleDecl
  apply quiet_bind (.clauseStart _)
  intro start _
  apply ahead_bind
  apply quiet_bind (.advance _)
  intro _ _
  apply quiet_bind .qualifiedName
  intro name _
  apply quiet_bind (.expect _)
  intro _ _
  apply quiet_bind (.call rfl rfl fun _ => rfl)
  intro directives _
  apply quiet_bind (.require _)
  intro _ _
  exact Gathers.close fun _ => rfl

protected theorem item : item.Announces layout := by
  intro s
  unfold Grammar.item
  apply quiet_bind .view
  intro v _
  apply Gathers.ite
  · apply quiet_bind (.advance _)
    intro _ _
    exact .done rfl
  · apply Gathers.ite
    · apply quiet_bind .importDecl
      intro decl _
      exact .done rfl
    · apply part_bind Announces.modifiers
      intro mods _
      apply quiet_bind .view
      intro v t
      apply Gathers.ite
      · apply whole_bind (packageDecl mods t)
        intro decl _
        exact .done rfl
      · apply Gathers.ite
        · apply whole_bind (moduleDecl mods t)
          intro decl _
          exact .done rfl
        · apply Gathers.ite
          · apply whole_bind (Gathers.call rfl rfl)
            intro decl _
            exact .done rfl
          · trivial

theorem headings_addForm (unit : CompilationUnit) (form : TopLevel) :
    headings (addForm unit form) = headings unit ++ headings form := by
  simp only [headings, addForm, List.flatMap_append, List.flatMap_singleton, List.append_assoc]

/-- An item stands behind all items that were added before it. -/
theorem addItem (unit : CompilationUnit) (item : UnitItem) (s : State) :
    (Grammar.addItem unit item).Gathers layout s (headings unit ++ headings item) fun value _ hs =>
      headings value = hs := by
  obtain ⟨package, imports, module, forms⟩ := unit
  cases item with
  | package decl =>
    apply Gathers.ite_of
    · intro hfirst
      simp only [Bool.and_eq_true, Option.isNone_iff_eq_none, List.isEmpty_iff] at hfirst
      obtain ⟨⟨⟨rfl, -⟩, rfl⟩, rfl⟩ := hfirst
      apply Gathers.done
      simp only [headings, Option.map_none, Option.map_some, Option.getD_none, Option.getD_some,
        List.flatMap_nil, List.append_nil, List.nil_append]
    · intro _
      trivial
  | «import» decl =>
    apply Gathers.ite
    · exact .done (List.append_nil _).symm
    · trivial
  | module decl =>
    apply Gathers.ite_of
    · intro hfirst
      simp only [Bool.and_eq_true, Option.isNone_iff_eq_none, List.isEmpty_iff] at hfirst
      obtain ⟨rfl, rfl⟩ := hfirst
      apply Gathers.done
      simp only [headings, Option.map_none, Option.map_some, Option.getD_none, Option.getD_some,
        List.flatMap_nil, List.append_nil]
    · intro _
      trivial
  | form form => exact .done (headings_addForm _ form)

theorem items (unit : CompilationUnit) (s : State) :
    (Grammar.items unit).Gathers layout s (headings unit) fun value _ hs =>
      headings value = hs := by
  unfold Grammar.items
  apply quiet_bind .view
  intro v _
  apply Gathers.ite
  · exact .done rfl
  · apply Gathers.ite
    · apply quiet_bind .absorbRest
      intro e _
      exact .done ((headings_addForm unit (.erroneous e)).trans (List.append_nil _))
    · apply attempt_bind rfl rfl
      · intro item t
        apply whole_bind (addItem unit item t)
        intro unit _
        exact Gathers.call rfl rfl
      · intro error
        trivial

/-- What a whole input is wrapped into has its headings. -/
protected theorem whole {α : Type} [Headed α] {nonterminal : Nonterminal α} {wrap : α → Tree .expr}
    (hgiven : nonterminal.given = []) (hresult : nonterminal.headed = ‹Headed α›)
    (hwrap : ∀ value, headings (wrap value) = headings value) :
    (whole nonterminal wrap).Announces layout := by
  intro s
  unfold Grammar.whole
  apply attempt_bind hgiven hresult
  · intro value _
    apply quiet_bind .finish
    intro _ _
    exact .done (hwrap value)
  · intro error
    trivial

end Rule.Announces

open Rule (Announces)

/-- The rule of every nonterminal gathers the headings of its result. -/
theorem rule_gathers {layout : Layout} {β : Type} (nonterminal : Nonterminal β) (s : State) :
    (rule nonterminal).Gathers layout s nonterminal.given fun value _ hs =>
      nonterminal.Known value ∧ nonterminal.headed.headings value = hs := by
  have hplain {rule : Rule β} (hknown : ∀ value, nonterminal.Known value)
      (h : rule.Gathers layout s nonterminal.given fun value _ hs =>
        nonterminal.headed.headings value = hs) : rule.Gathers layout s nonterminal.given
          fun value _ hs => nonterminal.Known value ∧ nonterminal.headed.headings value = hs :=
    h.weaken fun value _ _ hvalue => ⟨hknown value, hvalue⟩
  cases nonterminal with
  | annot => exact hplain (fun _ => trivial) (Announces.annot s)
  | annotations onType => exact hplain (fun _ => trivial) (Announces.annotations onType s)
  | namedElements => exact hplain (fun _ => trivial) (Announces.namedElements s)
  | elementValue => exact hplain (fun _ => trivial) (Announces.elementValue s)
  | elementValues => exact hplain (fun _ => trivial) (Announces.elementValues s)
  | type => exact hplain (fun _ => trivial) (Announces.type s)
  | typeSegments start outer name diamond =>
    exact Announces.typeSegments start outer name diamond s
  | typeArgs => exact hplain (fun _ => trivial) (Announces.typeArgs s)
  | typeArgList => exact hplain (fun _ => trivial) (Announces.typeArgList s)
  | typesAfter separator => exact hplain (fun _ => trivial) (Announces.typesAfter separator s)
  | typeParamList => exact hplain (fun _ => trivial) (Announces.typeParamList s)
  | expr => exact hplain (fun _ => trivial) (Announces.expr s)
  | conditional => exact hplain (fun _ => trivial) (Announces.conditional s)
  | binary least => exact hplain (fun _ => trivial) (Announces.binary least s)
  | binaryRest least start left =>
    exact hplain (fun _ => trivial) (Announces.binaryRest least start left s)
  | unary => exact hplain (fun _ => trivial) (Announces.unary s)
  | selectors start target => exact hplain (fun _ => trivial) (Announces.selectors start target s)
  | steps start operand => exact hplain (fun _ => trivial) (Announces.steps start operand s)
  | lambda => exact hplain (fun _ => trivial) (Announces.lambda s)
  | exprList => exact hplain (fun _ => trivial) (Announces.exprList s)
  | sizes => exact hplain (fun _ => trivial) (Announces.sizes s)
  | arrayInit => exact hplain (fun _ => trivial) (Announces.arrayInit s)
  | arrayElements => exact hplain (fun _ => trivial) (Announces.arrayElements s)
  | lambdaParamList => exact hplain (fun _ => trivial) (Announces.lambdaParamList s)
  | labels => exact hplain (fun _ => trivial) (Announces.labels s)
  | switchRest isExpr => exact hplain (fun _ => trivial) (Announces.switchRest isExpr s)
  | switchCases isExpr => exact hplain (fun _ => trivial) (Announces.switchCases isExpr s)
  | switchCase isExpr => exact hplain (fun _ => trivial) (Announces.switchCase isExpr s)
  | stmt => exact hplain (fun _ => trivial) (Announces.stmt s)
  | block => exact hplain (fun _ => trivial) (Announces.block s)
  | statements inSwitch => exact hplain (fun _ => trivial) (Announces.statements inSwitch s)
  | declarators name start => exact Announces.declarators name start s
  | standalones => exact hplain (fun _ => trivial) (Announces.standalones s)
  | resources => exact hplain (fun _ => trivial) (Announces.resources s)
  | catches => exact hplain (fun _ => trivial) (Announces.catches s)
  | modifierRun => exact hplain (fun _ => trivial) (Announces.modifierRun s)
  | typeDecl mods => exact hplain (fun _ => trivial) (Announces.typeDecl mods s)
  | members owner => exact hplain (fun _ => trivial) (Announces.members owner s)
  | member owner => exact hplain (fun _ => trivial) (Announces.member owner s)
  | paramList => exact hplain (fun _ => trivial) (Announces.paramList s)
  | enumConstants => exact hplain (fun _ => trivial) (Announces.enumConstants s)
  | names => exact hplain (fun _ => trivial) (Rule.IsQuiet.names.announces (fun _ => rfl) s)
  | directives =>
    exact hplain (fun _ => trivial) (Rule.IsQuiet.directives.announces (fun _ => rfl) s)
  | item => exact hplain (fun _ => trivial) (Announces.item s)
  | items unit => exact hplain (fun _ => trivial) (Announces.items unit s)
  | wholeExpr =>
    exact hplain (fun _ => trivial) (Announces.whole rfl rfl (fun _ => rfl) s)
  | wholeType =>
    exact hplain (fun _ => trivial) (Announces.whole rfl rfl (fun _ => rfl) s)

end JavaSyntax
