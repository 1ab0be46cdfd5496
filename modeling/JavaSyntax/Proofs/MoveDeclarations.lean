import JavaSyntax.Proofs.MoveStatements

/-!
The rules for declarations and for the top level of a file move, and with them all rules. A type
declaration moves up to its closing brace, and behind the brace it only looks back.
-/

namespace JavaSyntax

open Grammar
open Movable (move)

/-- The rules end with a closing brace and put together a declaration, and what comes before
moves. Unless there is a fault they take the brace. -/
inductive Closes (n : Nat) (mods : Modifiers) :
    Rule (Tree .typeDecl) → Rule (Tree .typeDecl) → Prop where
  | close (name : String) (form : Tree .form) (members : Tree (.list .member)) :
      Closes n mods (require .rbrace >>= fun _ => finishDecl mods name form members)
        (require .rbrace >>= fun _ =>
          finishDecl (move n mods) name (form.move n) (members.move n))
  | bind {α : Type} [Movable α] {rule rule' : Rule α} {f g : α → Rule (Tree .typeDecl)}
      (first : Moves n rule rule') (rest : ∀ a, Closes n mods (f a) (g (move n a))) :
      Closes n mods (rule >>= f) (rule' >>= g)
  | look {f g : View → Rule (Tree .typeDecl)}
      (rest : ∀ v v', v.Beside n v' → Closes n mods (f v) (g v')) :
      Closes n mods (view >>= f) (view >>= g)
  | fault {rule rule' : Rule (Tree .typeDecl)} (isFault : rule.IsFault) : Closes n mods rule rule'

namespace Moves

variable {n : Nat}

protected theorem checkDeprecation (mods : Modifiers) (name name' : Extent) :
    Moves n (checkDeprecation mods name) (checkDeprecation (move n mods) name') := by
  have hdeprecated : ((move n mods).annotations.toList.any Tree.isDeprecated) =
      mods.annotations.toList.any Tree.isDeprecated := by
    show ((mods.annotations.move n).toList.any Tree.isDeprecated) = _
    rw [Tree.toList_move, List.any_map]
    congr 1
    funext annot
    exact annot.isDeprecated_move n
  exact ite hdeprecated (.done ()) (.deprecation (.done ()))

protected theorem declName (mods : Modifiers) :
    Moves n (declName mods) (declName (move n mods)) := by
  unfold Grammar.declName
  apply view_bind
  intro v v' hv
  apply identifier_bind
  intro name
  apply bind (Moves.checkDeprecation mods _ _)
  intro _
  exact .done name

protected theorem listAfter (k : Kind) : Moves n (listAfter k) (listAfter k) := by
  unfold Grammar.listAfter
  apply accept_bind
  intro found
  exact listIf Moves.typeList rfl

protected theorem permits : Moves n permits permits := by
  unfold Grammar.permits
  apply ahead_bind
  intro ts us hts
  apply ite (hts.nextWord _)
  · apply advance_bind
    exact Moves.typeList
  · exact .done Tree.nil

protected theorem finishDecl (mods : Modifiers) (name : String) (form : Tree .form)
    (members : Tree (.list .member)) : Moves n (finishDecl mods name form members)
      (finishDecl (move n mods) name (form.move n) (members.move n)) := by
  unfold Grammar.finishDecl
  apply since_bind
  intro extent
  exact .done (Tree.typeDecl mods.front mods.annotations name form members extent)

end Moves

namespace Closes

variable {n : Nat} {mods : Modifiers}

theorem moves {rule rule' : Rule (Tree .typeDecl)} (h : Closes n mods rule rule') :
    Moves n rule rule' := by
  induction h with
  | close name form members =>
    apply Moves.require_bind
    exact Moves.finishDecl mods name form members
  | bind first _ ih => exact first.bind ih
  | look _ ih => exact Moves.view_bind ih
  | fault isFault => exact .fault isFault

theorem ite {b c : Bool} {yes no yes' no' : Rule (Tree .typeDecl)} (h : c = b)
    (hyes : Closes n mods yes yes') (hno : Closes n mods no no') :
    Closes n mods (if b = true then yes else no) (if c = true then yes' else no') := by
  rw [h]
  split
  · exact hyes
  · exact hno

/-- The members of a class close its declaration. -/
theorem classBody (name : String) (form : Tree .form) :
    Closes n mods (classBody name >>= finishDecl mods name form)
      (classBody name >>= finishDecl (move n mods) name (form.move n)) := by
  unfold Grammar.classBody
  simp only [Rule.bind_assoc]
  apply bind (Moves.expect _)
  intro _
  apply bind (Moves.call rfl rfl)
  intro members
  exact close name form members

theorem classDecl (mods : Modifiers) :
    Closes n mods (classDecl mods) (classDecl (move n mods)) := by
  unfold Grammar.classDecl
  apply bind (Moves.expect _)
  intro _
  apply bind (Moves.declName mods)
  intro name
  apply bind Moves.typeParams
  intro params
  apply bind (Moves.accept _)
  intro found
  apply bind (Moves.optionIf (Moves.call rfl rfl) rfl)
  intro parent
  apply bind (Moves.listAfter _)
  intro interfaces
  apply bind Moves.permits
  intro permitted
  exact classBody name (.classForm params parent interfaces permitted)

theorem interfaceDecl (mods : Modifiers) :
    Closes n mods (interfaceDecl mods) (interfaceDecl (move n mods)) := by
  unfold Grammar.interfaceDecl
  apply bind (Moves.expect _)
  intro _
  apply bind (Moves.declName mods)
  intro name
  apply bind Moves.typeParams
  intro params
  apply bind (Moves.listAfter _)
  intro parents
  apply bind Moves.permits
  intro permitted
  exact classBody name (.interfaceForm params parents permitted)

end Closes

namespace Moves

variable {n : Nat}

/-- An optional part, and what follows it. -/
theorem option_bind {α : Type} [Movable α] {c : Category} {rule rule' : Rule (Tree c)}
    {f g : Tree (.option c) → Rule α} (h : Moves n rule rule')
    (hf : ∀ part, Moves n (f part) (g (part.move n))) (found : Bool) :
    Moves n (if found = true then Tree.some <$> rule >>= f else f .none)
      (if found = true then Tree.some <$> rule' >>= g else g .none) := by
  apply ite rfl
  · refine bind (map h ?_) hf
    exact fun _ => rfl
  · exact hf .none

/-- The same where it is told by a symbol that the part is missing. -/
theorem missing_bind {α : Type} [Movable α] {c : Category} {rule rule' : Rule (Tree c)}
    {f g : Tree (.option c) → Rule α} (h : Moves n rule rule')
    (hf : ∀ part, Moves n (f part) (g (part.move n))) (found : Bool) :
    Moves n (if found = true then f .none else Tree.some <$> rule >>= f)
      (if found = true then g .none else Tree.some <$> rule' >>= g) := by
  cases found with
  | true => exact hf .none
  | false => exact option_bind h hf true

protected theorem enumConstant : Moves n enumConstant enumConstant := by
  unfold Grammar.enumConstant
  apply mark_bind
  intro start
  apply bind (call rfl rfl)
  intro annotations
  apply identifier_bind
  intro name
  apply check_bind
  apply option_bind Moves.arguments
  intro args
  apply check_bind
  apply option_bind (Moves.classBody "")
  intro body
  apply since_bind
  intro extent
  exact .done (Tree.enumConstant annotations name args body extent)

protected theorem enumConstants : Moves n enumConstants enumConstants := by
  unfold Grammar.enumConstants
  apply ahead_bind
  intro ts us hts
  have hends : (us.isEmpty || Lookahead.nextOneOf [.semicolon, .rbrace] us) =
      (ts.isEmpty || Lookahead.nextOneOf [.semicolon, .rbrace] ts) := by
    rw [hts.isEmpty, hts.nextOneOf]
  apply ite hends
  · exact .done Tree.nil
  · exact separated .comma Moves.enumConstant rfl rfl

protected theorem param : Moves n param param := by
  unfold Grammar.param
  apply bind Moves.modifiers
  intro mods
  apply bind (call rfl rfl)
  intro type
  apply bind (call rfl rfl)
  intro _
  apply accept_bind
  intro varargs
  have hrest (name : String) :
      Moves n (dims >>= fun k => since mods.start >>= fun e => Pure.pure
          (Tree.param mods.modifiers mods.annotations (type.addDims k) name varargs e))
        (dims >>= fun k => since (mods.start.move n) >>= fun e => Pure.pure
          (Tree.param mods.modifiers (mods.annotations.move n) ((type.move n).addDims k) name
            varargs e)) := by
    apply dims_bind
    intro k
    rw [← Tree.addDims_move]
    apply since_bind
    intro extent
    exact .done
      (Tree.param mods.modifiers mods.annotations (type.addDims k) name varargs extent)
  apply check_bind
  intro found
  apply ite rfl
  · apply takeText_bind
    exact hrest
  · apply identifier_bind
    exact hrest

protected theorem paramList : Moves n paramList paramList := by
  unfold Grammar.paramList
  exact separated .comma Moves.param rfl rfl

protected theorem params : Moves n params params := by
  unfold Grammar.params
  apply expect_bind
  apply check_bind
  intro found
  apply bind (listIf (call rfl rfl) rfl)
  intro params
  apply expect_bind
  exact .done params

end Moves

namespace Closes

variable {n : Nat}

theorem enumDecl (mods : Modifiers) : Closes n mods (enumDecl mods) (enumDecl (move n mods)) := by
  unfold Grammar.enumDecl
  apply bind (Moves.expect _)
  intro _
  apply bind (Moves.declName mods)
  intro name
  apply bind (Moves.listAfter _)
  intro interfaces
  apply bind (Moves.expect _)
  intro _
  apply bind (Moves.call rfl rfl)
  intro constants
  apply bind (Moves.accept _)
  intro found
  apply bind (Moves.listIf (Moves.call rfl rfl) rfl)
  intro members
  exact close name (.enumForm interfaces constants) members

theorem recordDecl (mods : Modifiers) :
    Closes n mods (recordDecl mods) (recordDecl (move n mods)) := by
  unfold Grammar.recordDecl
  apply bind (.advance 1 (.done ()))
  intro _
  apply bind (Moves.declName mods)
  intro name
  apply bind Moves.typeParams
  intro typeParams
  apply bind Moves.params
  intro components
  apply bind (Moves.listAfter _)
  intro interfaces
  exact classBody name (.recordForm typeParams components interfaces)

theorem annotationDecl (mods : Modifiers) :
    Closes n mods (annotationDecl mods) (annotationDecl (move n mods)) := by
  unfold Grammar.annotationDecl
  apply bind (Moves.expect _)
  intro _
  apply bind (Moves.expect _)
  intro _
  apply bind (Moves.declName mods)
  intro name
  exact classBody name .annotationForm

theorem typeDecl (mods : Modifiers) : Closes n mods (typeDecl mods) (typeDecl (move n mods)) := by
  unfold Grammar.typeDecl
  apply look
  intro v v' hv
  apply ite (hv.sees.next _ rfl) (classDecl mods)
  apply ite (hv.sees.next _ rfl) (interfaceDecl mods)
  apply ite (hv.sees.next _ rfl) (enumDecl mods)
  apply ite (hv.sees.next _ rfl) (annotationDecl mods)
  apply ite hv.sees.isRecord (recordDecl mods)
  exact fault trivial

end Closes

namespace Moves

variable {n : Nat}

/-! Members. -/

protected theorem members (owner : String) : Moves n (members owner) (members owner) := by
  unfold Grammar.members
  apply view_bind
  intro v v' hv
  apply ite (loopEnds_eq hv)
  · exact .done Tree.nil
  · apply ite (hv.sees.next _ rfl)
    · apply advance_bind
      exact call rfl rfl
    · apply attempt_bind rfl rfl
      · intro first
        apply bind (call rfl rfl)
        intro rest
        exact .done (Tree.cons first rest)
      · intro error
        trivial

protected theorem initBlock (mods : Modifiers) :
    Moves n (initBlock mods) (initBlock (move n mods)) := by
  unfold Grammar.initBlock
  apply bind (call rfl rfl)
  intro body
  apply since_bind
  intro extent
  exact .done (Tree.initBlock (mods.modifiers.contains .isStatic) body extent)

protected theorem constructorDecl (mods : Modifiers) (typeParams : Tree (.list .typeParam))
    (owner : String) : Moves n (constructorDecl mods typeParams owner)
      (constructorDecl (move n mods) (typeParams.move n) owner) := by
  unfold Grammar.constructorDecl
  apply view_bind
  intro v v' hv
  apply takeText_bind
  intro name
  apply ite rfl
  · exact report_bind
  · apply bind (Moves.checkDeprecation mods _ _)
    intro _
    apply bind Moves.params
    intro params
    apply bind (Moves.listAfter _)
    intro throws
    apply bind (call rfl rfl)
    intro body
    apply since_bind
    intro extent
    exact .done (Tree.constructor mods.front mods.annotations typeParams name params throws
      body false extent)

protected theorem compactConstructor (mods : Modifiers) :
    Moves n (compactConstructor mods) (compactConstructor (move n mods)) := by
  unfold Grammar.compactConstructor
  apply takeText_bind
  intro name
  apply bind (call rfl rfl)
  intro body
  apply since_bind
  intro extent
  exact .done (Tree.constructor mods.front mods.annotations .nil name .nil .nil body true
    extent)

protected theorem methodRest (mods : Modifiers) (typeParams : Tree (.list .typeParam))
    (result : Tree (.option .type)) (name : String) :
    Moves n (methodRest mods typeParams result name)
      (methodRest (move n mods) (typeParams.move n) (result.move n) name) := by
  unfold Grammar.methodRest
  apply bind Moves.params
  intro params
  apply dims_bind
  intro k
  have hend (throws : Tree (.list .type)) (default : Tree (.option .expr))
      (body : Tree (.option .block)) (result result' : Tree (.option .type))
      (h : result' = result.move n) : Moves n
        (since mods.start >>= fun e => Pure.pure (Tree.method mods.front mods.annotations
          typeParams result name params throws body default e))
        (since (mods.start.move n) >>= fun e => Pure.pure (Tree.method (mods.front.move n)
          (mods.annotations.move n) (typeParams.move n) result' name (params.move n)
          (throws.move n) (body.move n) (default.move n) e)) := by
    rw [h]
    apply since_bind
    intro extent
    exact .done (Tree.method mods.front mods.annotations typeParams result name params throws
      body default extent)
  apply bind (Moves.listAfter _)
  intro throws
  apply accept_bind
  intro found
  apply bind (optionIf (call rfl rfl) rfl)
  intro default
  apply check_bind
  intro found
  apply bind (optionIf (call rfl rfl) rfl)
  intro body
  refine ite (body.isNone_toOption_move n) (require_bind (hend throws default body _ _ ?_))
    (hend throws default body _ _ ?_)
  all_goals
    cases result with
    | some type => exact congrArg Tree.some (type.addDims_move n k).symm
    | none => rfl

protected theorem fieldRest (mods : Modifiers) (type : Tree .type) (name : String)
    (start : Mark) : Moves n (fieldRest mods type name start)
      (fieldRest (move n mods) (type.move n) name (start.move n)) := by
  unfold Grammar.fieldRest
  apply bind (call rfl rfl)
  intro names
  apply require_bind
  apply since_bind
  intro extent
  exact .done (Tree.field (.varDecl mods.front mods.annotations type names extent))

protected theorem memberName : Moves n memberName memberName := by
  unfold Grammar.memberName
  apply view_bind
  intro v v' hv
  apply ite (hv.sees.next _ rfl)
  · exact .takeText
  · apply ite (hv.sees.next _ rfl)
    · exact report_bind
    · exact raise

protected theorem typedMember (mods : Modifiers) (typeParams : Tree (.list .typeParam)) :
    Moves n (typedMember mods typeParams) (typedMember (move n mods) (typeParams.move n)) := by
  unfold Grammar.typedMember
  apply accept_bind
  apply missing_bind (call rfl rfl)
  intro result
  apply view_bind
  intro named named' hnamed
  apply bind Moves.memberName
  intro name
  apply bind (Moves.checkDeprecation mods _ _)
  intro _
  apply view_bind
  intro v v' hv
  apply ite (hv.sees.next _ rfl)
  · exact Moves.methodRest mods typeParams result name
  · cases result with
    | some type =>
      have hfield := Moves.fieldRest (n := n) mods type name named.mark
      rw [← hnamed.mark] at hfield
      exact hfield
    | none => exact raise

protected theorem member (owner : String) : Moves n (member owner) (member owner) := by
  unfold Grammar.member
  apply bind Moves.modifiers
  intro mods
  apply ahead_bind
  intro ts us hts
  apply ite (hts.next _ rfl)
  · exact Moves.initBlock mods
  · apply ite hts.isTypeDecl
    · apply bind (call rfl rfl)
      intro decl
      exact .done (Tree.memberType decl)
    · apply bind Moves.typeParams
      intro typeParams
      apply ahead_bind
      intro ts us hts
      rw [hts.next _ rfl, hts.next _ rfl, hts.nextWord]
      apply ite rfl
      · exact Moves.constructorDecl mods typeParams owner
      · apply ite rfl
        · exact Moves.compactConstructor mods
        · exact Moves.typedMember mods typeParams

/-! The top level of a file. -/

protected theorem clauseStart (mods : Modifiers) :
    Moves n (clauseStart mods) (clauseStart (move n mods)) := by
  unfold Grammar.clauseStart
  have hplain : ((move n mods).modifiers.isEmpty && (move n mods).annotations.isNil) =
      (mods.modifiers.isEmpty && mods.annotations.isNil) := by
    have hnil : (move n mods).annotations.isNil = mods.annotations.isNil :=
      mods.annotations.isNil_move n
    rw [hnil]
    rfl
  apply ite hplain
  · apply mark_bind
    exact .done
  · exact .done mods.start

protected theorem packageDecl (mods : Modifiers) :
    Moves n (packageDecl mods) (packageDecl (move n mods)) := by
  unfold Grammar.packageDecl
  apply bind (Moves.clauseStart mods)
  intro start
  apply expect_bind
  apply qualifiedName_bind
  intro name
  apply require_bind
  apply since_bind
  intro extent
  exact .done (⟨mods.annotations, name, extent⟩ : PackageDecl)

protected theorem importDecl : Moves n importDecl importDecl := by
  unfold Grammar.importDecl
  apply mark_bind
  intro start
  apply expect_bind
  apply accept_bind
  intro isStatic
  apply qualifiedName_bind
  intro name
  apply accept_bind
  intro dotted
  have hend : Moves n
      (require .semicolon >>= fun _ => since start >>= fun e =>
        Pure.pure (⟨name, isStatic, dotted, e⟩ : ImportDecl))
      (require .semicolon >>= fun _ => since (start.move n) >>= fun e =>
        Pure.pure (⟨name, isStatic, dotted, e⟩ : ImportDecl)) := by
    apply require_bind
    apply since_bind
    intro extent
    exact .done (⟨name, isStatic, dotted, extent⟩ : ImportDecl)
  apply ite rfl
  · apply check_bind
    intro star
    apply ite rfl
    · apply identifier_bind
      intro _
      apply advance_bind
      exact hend
    · apply advance_bind
      exact hend
  · exact hend

protected theorem names : Moves n names names := by
  unfold Grammar.names
  apply qualifiedName_bind
  intro first
  apply accept_bind
  intro found
  apply ite rfl
  · apply bind (call rfl rfl)
    intro rest
    exact .done (first :: rest)
  · exact .done [first]

protected theorem targets : Moves n targets targets := by
  unfold Grammar.targets
  apply ahead_bind
  intro ts us hts
  apply ite (hts.nextWord _)
  · apply advance_bind
    exact call rfl rfl
  · exact .done ([] : List String)

protected theorem directive : Moves n directive directive := by
  unfold Grammar.directive
  apply view_bind
  intro v v' hv
  rw [hv.mark]
  have hopen (package : List String → Extent → Directive)
      (hmove : ∀ targets e, move n (package targets e) = package targets (e.move n)) :
      Moves n
        (targets >>= fun targets => require .semicolon >>= fun _ => since v.mark >>= fun e =>
          Pure.pure (package targets e))
        (targets >>= fun targets => require .semicolon >>= fun _ =>
          since (v.mark.move n) >>= fun e => Pure.pure (package targets e)) := by
    apply bind Moves.targets
    intro targets
    apply require_bind
    apply since_bind
    intro extent
    exact Moves.pure (hmove targets extent).symm
  apply ite (hv.sees.nextWord _)
  · apply advance_bind
    apply ahead_bind
    intro ts us hts
    rw [hts.requireWords]
    apply advance_bind
    apply qualifiedName_bind
    intro name
    apply require_bind
    apply since_bind
    intro extent
    exact .done (Directive.requires _ _ name extent)
  · apply ite (hv.sees.nextWord _)
    · apply advance_bind
      apply qualifiedName_bind
      intro package
      exact hopen (.exports package) fun _ _ => rfl
    · apply ite (hv.sees.nextWord _)
      · apply advance_bind
        apply qualifiedName_bind
        intro package
        exact hopen (.opens package) fun _ _ => rfl
      · apply ite (hv.sees.nextWord _)
        · apply advance_bind
          apply qualifiedName_bind
          intro service
          apply require_bind
          apply since_bind
          intro extent
          exact .done (Directive.uses service extent)
        · apply ite (hv.sees.nextWord _)
          · apply advance_bind
            apply qualifiedName_bind
            intro service
            apply view_bind
            intro w w' hw
            apply ite (hw.sees.nextWord _)
            · apply advance_bind
              apply bind (call rfl rfl)
              intro implementations
              apply require_bind
              apply since_bind
              intro extent
              exact .done (Directive.provides service implementations extent)
            · exact raise_bind
          · exact raise

protected theorem directives : Moves n directives directives := by
  unfold Grammar.directives
  apply ahead_bind
  intro ts us hts
  apply ite (ends_eq hts _)
  · exact .done ([] : List Directive)
  · apply bind Moves.directive
    intro first
    apply bind (call rfl rfl)
    intro rest
    exact .done (first :: rest)

protected theorem moduleDecl (mods : Modifiers) :
    Moves n (moduleDecl mods) (moduleDecl (move n mods)) := by
  unfold Grammar.moduleDecl
  apply bind (Moves.clauseStart mods)
  intro start
  apply ahead_bind
  intro ts us hts
  rw [hts.nextWord]
  apply advance_bind
  apply qualifiedName_bind
  intro name
  apply expect_bind
  apply bind (call rfl rfl)
  intro directives
  apply require_bind
  apply since_bind
  intro extent
  exact .done (⟨mods.annotations, _, name, directives, extent⟩ : ModuleDecl)

protected theorem item : Moves n item item := by
  unfold Grammar.item
  apply view_bind
  intro v v' hv
  apply ite (hv.sees.next _ rfl)
  · apply advance_bind
    rw [hv.here]
    exact .done (UnitItem.form (.empty v.here))
  · apply ite (hv.sees.next _ rfl)
    · apply bind Moves.importDecl
      intro decl
      exact .done (UnitItem.import decl)
    · apply bind Moves.modifiers
      intro mods
      apply view_bind
      intro w w' hw
      have hmodifiers : (move n mods).modifiers = mods.modifiers := rfl
      rw [hmodifiers, hw.sees.next _ rfl, hw.sees.isModule]
      apply ite rfl
      · apply bind (Moves.packageDecl mods)
        intro decl
        exact .done (UnitItem.package decl)
      · apply ite rfl
        · apply bind (Moves.moduleDecl mods)
          intro decl
          exact .done (UnitItem.module decl)
        · apply ite hw.sees.isTypeDecl
          · apply bind (call rfl rfl)
            intro decl
            exact .done (UnitItem.form (.type decl))
          · exact raise

protected theorem addItem (unit : CompilationUnit) (item : UnitItem) :
    Moves n (addItem unit item) (addItem (move n unit) (move n item)) := by
  have hpackage : (move n unit).package.isNone = unit.package.isNone := Option.isNone_map
  have himports : (move n unit).imports.isEmpty = unit.imports.isEmpty := List.isEmpty_map
  have hmodule : (move n unit).module.isNone = unit.module.isNone := Option.isNone_map
  have hforms : (move n unit).forms.isEmpty = unit.forms.isEmpty := List.isEmpty_map
  cases item with
  | package decl =>
    apply ite
    · rw [hpackage, himports, hmodule, hforms]
    · exact .done { unit with package := some decl }
    · exact report_bind
  | «import» decl =>
    apply ite
    · rw [hmodule, hforms]
    · apply Moves.pure
      show _ = CompilationUnit.mk _ (move n (unit.imports ++ [decl])) _ _
      rw [show move n (unit.imports ++ [decl]) = move n unit.imports ++ [move n decl] from
        List.map_append]
      rfl
    · exact report_bind
  | module decl =>
    apply ite
    · rw [hmodule, hforms]
    · exact .done { unit with module := some decl }
    · exact report_bind
  | form form =>
    apply Moves.pure
    show _ = CompilationUnit.mk _ _ _ (move n (unit.forms ++ [form]))
    rw [show move n (unit.forms ++ [form]) = move n unit.forms ++ [move n form] from
      List.map_append]
    rfl

protected theorem items (unit : CompilationUnit) :
    Moves n (items unit) (items (move n unit)) := by
  unfold Grammar.items
  apply view_bind
  intro v v' hv
  apply ite hv.sees.isEmpty
  · exact .done unit
  · rw [hv.running, hv.running']
    apply attempt_bind rfl rfl
    · intro item
      apply bind (Moves.addItem unit item)
      intro more
      exact call rfl rfl
    · intro error
      trivial

/-- What follows a whole input is a fault. -/
protected theorem whole {α : Type} [Movable α] {nonterminal : Nonterminal α}
    {wrap : α → Tree .expr} (hmoved : nonterminal = nonterminal.move n)
    (hresult : nonterminal.movable = ‹Movable α›)
    (hwrap : ∀ value, wrap (move n value) = (wrap value).move n) :
    Moves n (whole nonterminal wrap) (whole nonterminal wrap) := by
  unfold Grammar.whole
  apply attempt_bind hmoved hresult
  · intro value
    have hfinish : Moves n finish finish := by
      unfold Grammar.finish
      apply view_bind
      intro v v' hv
      apply ite (congrArg _ hv.sees.isEmpty)
      · rw [hv.running, hv.running']
        exact report_bind
      · exact .done ()
    show Moves n (finish >>= fun _ => Pure.pure (wrap value))
      (finish >>= fun _ => Pure.pure (wrap (move n value)))
    apply bind hfinish
    intro _
    exact Moves.pure (hwrap value)
  · intro error
    trivial

/-- The rule of every nonterminal moves. -/
protected theorem rule {β : Type} (nonterminal : Nonterminal β) :
    @Moves n β nonterminal.movable (rule nonterminal) (rule (nonterminal.move n)) := by
  cases nonterminal
  case annot => exact Moves.annot
  case annotations onType => exact Moves.annotations onType
  case namedElements => exact Moves.namedElements
  case elementValue => exact Moves.elementValue
  case elementValues => exact Moves.elementValues
  case type => exact Moves.type
  case typeSegments start outer name diamond => exact Moves.typeSegments start outer name diamond
  case typeArgs => exact Moves.typeArgs
  case typeArgList => exact Moves.typeArgList
  case typesAfter separator => exact Moves.typesAfter separator
  case typeParamList => exact Moves.typeParamList
  case expr => exact Moves.expr
  case conditional => exact Moves.conditional
  case binary least => exact Moves.binary least
  case binaryRest least start left => exact Moves.binaryRest least start left
  case unary => exact Moves.unary
  case selectors start target => exact Moves.selectors start target
  case steps start operand => exact Moves.steps start operand
  case lambda => exact Moves.lambda
  case exprList => exact Moves.exprList
  case sizes => exact Moves.sizes
  case arrayInit => exact Moves.arrayInit
  case arrayElements => exact Moves.arrayElements
  case lambdaParamList => exact Moves.lambdaParamList
  case labels => exact Moves.labels
  case switchRest isExpr => exact Moves.switchRest isExpr
  case switchCases isExpr => exact Moves.switchCases isExpr
  case switchCase isExpr => exact Moves.switchCase isExpr
  case stmt => exact Moves.stmt
  case block => exact Moves.block
  case statements inSwitch => exact Moves.statements inSwitch
  case declarators name start => exact Moves.declarators name start
  case standalones => exact Moves.standalones
  case resources => exact Moves.resources
  case catches => exact Moves.catches
  case modifierRun => exact Moves.modifierRun
  case typeDecl mods => exact (Closes.typeDecl mods).moves
  case members owner => exact Moves.members owner
  case member owner => exact Moves.member owner
  case paramList => exact Moves.paramList
  case enumConstants => exact Moves.enumConstants
  case names => exact Moves.names
  case directives => exact Moves.directives
  case item => exact Moves.item
  case items unit => exact Moves.items unit
  case wholeExpr => exact Moves.whole rfl rfl fun _ => rfl
  case wholeType => exact Moves.whole rfl rfl fun _ => rfl

end Moves

end JavaSyntax
