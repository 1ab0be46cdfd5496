import JavaSyntax.Grammar.Declarations

/-!
The same reading of a text some tokens further on. What bears marks can be moved: a mark is moved by
counting further tokens, a tree by moving all its extents, and a nonterminal by moving the marks and
trees that it was called with. Nothing else in a tree tells where it stands.
-/

namespace JavaSyntax

namespace Mark

/-- The place `n` tokens further on; the end of the file stays what it is. -/
def move (n : Nat) : Mark → Mark
  | .before i bytes => .before (i + n) bytes
  | .after i => .after (i + n)
  | .eof => .eof

@[simp] theorem move_zero (m : Mark) : m.move 0 = m := by
  cases m <;> rfl

theorem le_move (n : Nat) (a b : Mark) : (a.move n).le (b.move n) = a.le b := by
  rw [Bool.eq_iff_iff]
  cases a <;> cases b <;> simp [move, le]

end Mark

namespace Extent

def move (n : Nat) (e : Extent) : Extent :=
  ⟨e.start.move n, e.stop.move n⟩

@[simp] theorem move_zero (e : Extent) : e.move 0 = e := by
  simp [move]

@[simp] theorem point_move (n : Nat) (m : Mark) : (point m).move n = point (m.move n) := rfl

end Extent

namespace Front

def move (n : Nat) (front : Front) : Front :=
  ⟨front.modifiers, front.doc.map (Mark.move n)⟩

@[simp] theorem move_zero (front : Front) : front.move 0 = front := by
  obtain ⟨modifiers, doc⟩ := front
  cases doc <;> simp [move]

end Front

/-- The tree with every extent and every token of documentation moved. -/
def Tree.move (n : Nat) : {c : Category} → Tree c → Tree c
  | _, .nil => .nil
  | _, .cons head tail => .cons (head.move n) (tail.move n)
  | _, .none => .none
  | _, .some value => .some (value.move n)
  | _, .type outer name args diamond annotations dims extent =>
    .type (outer.move n) name (args.move n) diamond (annotations.move n) dims (extent.move n)
  | _, .typeArg type => .typeArg (type.move n)
  | _, .wildcard annotations extent => .wildcard (annotations.move n) (extent.move n)
  | _, .wildcardExtends annotations bound extent =>
    .wildcardExtends (annotations.move n) (bound.move n) (extent.move n)
  | _, .wildcardSuper annotations bound extent =>
    .wildcardSuper (annotations.move n) (bound.move n) (extent.move n)
  | _, .annot name elements extent => .annot name (elements.move n) (extent.move n)
  | _, .element key value => .element key (value.move n)
  | _, .typeParam annotations name bounds extent =>
    .typeParam (annotations.move n) name (bounds.move n) (extent.move n)
  | _, .param modifiers annotations type name varargs extent =>
    .param modifiers (annotations.move n) (type.move n) name varargs (extent.move n)
  | _, .declarator name dims init extent => .declarator name dims (init.move n) (extent.move n)
  | _, .varDecl front annotations type names extent =>
    .varDecl (front.move n) (annotations.move n) (type.move n) (names.move n) (extent.move n)
  | _, .arrayInit elements extent => .arrayInit (elements.move n) (extent.move n)
  | _, .literal value extent => .literal value (extent.move n)
  | _, .ident name extent => .ident name (extent.move n)
  | _, .binary left op right extent => .binary (left.move n) op (right.move n) (extent.move n)
  | _, .unary op operand extent => .unary op (operand.move n) (extent.move n)
  | _, .assign target op value extent => .assign (target.move n) op (value.move n) (extent.move n)
  | _, .call target typeArgs name arguments extent =>
    .call (target.move n) (typeArgs.move n) name (arguments.move n) (extent.move n)
  | _, .select target name extent => .select (target.move n) name (extent.move n)
  | _, .index array index extent => .index (array.move n) (index.move n) (extent.move n)
  | _, .cast type bounds operand extent =>
    .cast (type.move n) (bounds.move n) (operand.move n) (extent.move n)
  | _, .instanceOf operand type binding extent =>
    .instanceOf (operand.move n) (type.move n) binding (extent.move n)
  | _, .conditional condition yes no extent =>
    .conditional (condition.move n) (yes.move n) (no.move n) (extent.move n)
  | _, .newObject outer type arguments body extent =>
    .newObject (outer.move n) (type.move n) (arguments.move n) (body.move n) (extent.move n)
  | _, .newArray type sizes dims init extent =>
    .newArray (type.move n) (sizes.move n) dims (init.move n) (extent.move n)
  | _, .paren inner extent => .paren (inner.move n) (extent.move n)
  | _, .arrayValue init => .arrayValue (init.move n)
  | _, .lambda params body extent => .lambda (params.move n) (body.move n) (extent.move n)
  | _, .methodRef target typeArgs name extent =>
    .methodRef (target.move n) (typeArgs.move n) name (extent.move n)
  | _, .switchExpr selector cases extent =>
    .switchExpr (selector.move n) (cases.move n) (extent.move n)
  | _, .annotationValue annot => .annotationValue (annot.move n)
  | _, .typeExpr type => .typeExpr (type.move n)
  | _, .erroneousExpr extent => .erroneousExpr (extent.move n)
  | _, .lambdaParam modifiers type name extent =>
    .lambdaParam modifiers (type.move n) name (extent.move n)
  | _, .exprBody value => .exprBody (value.move n)
  | _, .blockBody block => .blockBody (block.move n)
  | _, .block statements extent => .block (statements.move n) (extent.move n)
  | _, .switchCase labels arrow statements extent =>
    .switchCase (labels.move n) arrow (statements.move n) (extent.move n)
  | _, .standalone expr extent => .standalone (expr.move n) (extent.move n)
  | _, .forVariables decl => .forVariables (decl.move n)
  | _, .forExprs exprs => .forExprs (exprs.move n)
  | _, .resourceVariable modifiers type name init extent =>
    .resourceVariable modifiers (type.move n) name (init.move n) (extent.move n)
  | _, .resourceExpr expr extent => .resourceExpr (expr.move n) (extent.move n)
  | _, .catchClause param alternatives block extent =>
    .catchClause (param.move n) (alternatives.move n) (block.move n) (extent.move n)
  | _, .exprStmt expr => .exprStmt (expr.move n)
  | _, .localVariables decl => .localVariables (decl.move n)
  | _, .localType decl => .localType (decl.move n)
  | _, .ifStmt condition yes no extent =>
    .ifStmt (condition.move n) (yes.move n) (no.move n) (extent.move n)
  | _, .whileStmt condition body extent =>
    .whileStmt (condition.move n) (body.move n) (extent.move n)
  | _, .doStmt body condition extent => .doStmt (body.move n) (condition.move n) (extent.move n)
  | _, .forStmt init condition update body extent =>
    .forStmt (init.move n) (condition.move n) (update.move n) (body.move n) (extent.move n)
  | _, .forEachStmt param iterable body extent =>
    .forEachStmt (param.move n) (iterable.move n) (body.move n) (extent.move n)
  | _, .switchStmt selector cases extent =>
    .switchStmt (selector.move n) (cases.move n) (extent.move n)
  | _, .returnStmt value extent => .returnStmt (value.move n) (extent.move n)
  | _, .breakStmt label extent => .breakStmt label (extent.move n)
  | _, .continueStmt label extent => .continueStmt label (extent.move n)
  | _, .tryStmt resources body catches final extent =>
    .tryStmt (resources.move n) (body.move n) (catches.move n) (final.move n) (extent.move n)
  | _, .throwStmt value extent => .throwStmt (value.move n) (extent.move n)
  | _, .assertStmt condition message extent =>
    .assertStmt (condition.move n) (message.move n) (extent.move n)
  | _, .synchronizedStmt lock body extent =>
    .synchronizedStmt (lock.move n) (body.move n) (extent.move n)
  | _, .labeledStmt label body extent => .labeledStmt label (body.move n) (extent.move n)
  | _, .yieldStmt value extent => .yieldStmt (value.move n) (extent.move n)
  | _, .blockStmt block => .blockStmt (block.move n)
  | _, .emptyStmt extent => .emptyStmt (extent.move n)
  | _, .erroneousStmt extent => .erroneousStmt (extent.move n)
  | _, .enumConstant annotations name arguments body extent =>
    .enumConstant (annotations.move n) name (arguments.move n) (body.move n) (extent.move n)
  | _, .classForm params parent interfaces permits =>
    .classForm (params.move n) (parent.move n) (interfaces.move n) (permits.move n)
  | _, .interfaceForm params parents permits =>
    .interfaceForm (params.move n) (parents.move n) (permits.move n)
  | _, .enumForm interfaces constants => .enumForm (interfaces.move n) (constants.move n)
  | _, .recordForm params components interfaces =>
    .recordForm (params.move n) (components.move n) (interfaces.move n)
  | _, .annotationForm => .annotationForm
  | _, .typeDecl front annotations name form members extent =>
    .typeDecl (front.move n) (annotations.move n) name (form.move n) (members.move n)
      (extent.move n)
  | _, .field decl => .field (decl.move n)
  | _, .method front annotations typeParams result name params throws body default extent =>
    .method (front.move n) (annotations.move n) (typeParams.move n) (result.move n) name
      (params.move n) (throws.move n) (body.move n) (default.move n) (extent.move n)
  | _, .constructor front annotations typeParams name params throws body compact extent =>
    .constructor (front.move n) (annotations.move n) (typeParams.move n) name (params.move n)
      (throws.move n) (body.move n) compact (extent.move n)
  | _, .initBlock isStatic body extent => .initBlock isStatic (body.move n) (extent.move n)
  | _, .memberType decl => .memberType (decl.move n)
  | _, .erroneousMember extent => .erroneousMember (extent.move n)

namespace Tree

variable {c : Category} (n : Nat)

@[simp] theorem move_zero (tree : Tree c) : tree.move 0 = tree := by
  induction tree <;> (conv => lhs; whnf) <;> simp only [Extent.move_zero, Front.move_zero, *]

@[simp] theorem isNil_move (trees : Tree (.list c)) : (trees.move n).isNil = trees.isNil := by
  cases trees <;> rfl

theorem elements_move {d : Category} (tree : Tree c) (h : c = .list d) :
    (tree.move n).elements h = (tree.elements h).map (Tree.move n) := by
  induction tree with
  | cons head tail _ ih =>
    cases h
    exact congrArg (head.move n :: ·) (ih rfl)
  | _ => rfl

@[simp] theorem toList_move (trees : Tree (.list c)) :
    (trees.move n).toList = trees.toList.map (Tree.move n) :=
  trees.elements_move n rfl

@[simp] theorem isNone_toOption_move (value : Tree (.option c)) :
    (value.move n).toOption.isNone = value.toOption.isNone := by
  cases value <;> rfl

@[simp] theorem append_move (tree rest : Tree c) :
    (tree.append rest).move n = (tree.move n).append (rest.move n) := by
  induction tree with
  | cons head tail _ ih => exact congrArg (Tree.cons (head.move n)) (ih _)
  | _ => rfl

@[simp] theorem addDims_move (type : Tree .type) (dims : Nat) :
    (type.addDims dims).move n = (type.move n).addDims dims := by
  cases type
  rfl

@[simp] theorem isArray_move (type : Tree .type) : (type.move n).isArray = type.isArray := by
  cases type
  rfl

@[simp] theorem isDeprecated_move (annot : Tree .annot) :
    (annot.move n).isDeprecated = annot.isDeprecated := by
  cases annot
  rfl

@[simp] theorem mayStandAlone_move (e : Tree .expr) :
    Grammar.mayStandAlone (e.move n) = Grammar.mayStandAlone e := by
  cases e <;> rfl

end Tree

/-- What bears marks. -/
class Movable (α : Type) where
  move : Nat → α → α

namespace Movable

instance : Movable Unit := ⟨fun _ value => value⟩

instance : Movable Bool := ⟨fun _ value => value⟩

instance : Movable Nat := ⟨fun _ value => value⟩

instance : Movable String := ⟨fun _ value => value⟩

instance : Movable Mark := ⟨Mark.move⟩

instance : Movable Extent := ⟨Extent.move⟩

instance {c : Category} : Movable (Tree c) := ⟨fun n tree => tree.move n⟩

instance {α : Type} [Movable α] : Movable (List α) := ⟨fun n values => values.map (move n)⟩

instance {α : Type} [Movable α] : Movable (Option α) := ⟨fun n value => value.map (move n)⟩

instance {α β : Type} [Movable α] [Movable β] : Movable (α × β) :=
  ⟨fun n value => (move n value.1, move n value.2)⟩

/-! Lists and options without marks in them stay as they are. -/

instance : Movable (List Modifier) := ⟨fun _ value => value⟩

instance : Movable (List String) := ⟨fun _ value => value⟩

instance : Movable (Option String) := ⟨fun _ value => value⟩

instance : Movable Modifiers :=
  ⟨fun n mods => ⟨mods.modifiers, move n mods.annotations, move n mods.start, move n mods.doc⟩⟩

instance : Movable PackageDecl :=
  ⟨fun n decl => ⟨move n decl.annotations, decl.name, move n decl.extent⟩⟩

instance : Movable ImportDecl := ⟨fun n decl => { decl with extent := move n decl.extent }⟩

instance : Movable Directive where
  move n
    | .requires isTransitive isStatic name e => .requires isTransitive isStatic name (move n e)
    | .exports package targets e => .exports package targets (move n e)
    | .opens package targets e => .opens package targets (move n e)
    | .uses service e => .uses service (move n e)
    | .provides service implementations e => .provides service implementations (move n e)

instance : Movable ModuleDecl :=
  ⟨fun n decl => ⟨move n decl.annotations, decl.isOpen, decl.name, move n decl.directives,
    move n decl.extent⟩⟩

instance : Movable TopLevel where
  move n
    | .type decl => .type (move n decl)
    | .empty e => .empty (move n e)
    | .erroneous e => .erroneous (move n e)

instance : Movable UnitItem where
  move n
    | .package decl => .package (move n decl)
    | .import decl => .import (move n decl)
    | .module decl => .module (move n decl)
    | .form form => .form (move n form)

instance : Movable CompilationUnit :=
  ⟨fun n unit =>
    ⟨move n unit.package, move n unit.imports, move n unit.module, move n unit.forms⟩⟩

/-! Nothing is moved by no tokens. -/

theorem list_move_zero {α : Type} [Movable α] (h : ∀ value : α, move 0 value = value)
    (values : List α) : move 0 values = values :=
  (List.map_congr_left fun value _ => h value).trans (List.map_id values)

theorem option_move_zero {α : Type} [Movable α] (h : ∀ value : α, move 0 value = value)
    (value : Option α) : move 0 value = value := by
  cases value with
  | none => rfl
  | some value => exact congrArg some (h value)

theorem form_move_zero (form : TopLevel) : move 0 form = form := by
  cases form <;> simp [move]

theorem unit_move_zero (unit : CompilationUnit) : move 0 unit = unit := by
  have hextent (e : Extent) : move 0 e = e := e.move_zero
  have hannotations (trees : Tree (.list .annot)) : move 0 trees = trees := trees.move_zero
  obtain ⟨package, imports, module, forms⟩ := unit
  have hpackage : move 0 package = package := option_move_zero (fun decl => by
    show PackageDecl.mk _ _ _ = decl
    rw [hextent, hannotations]) package
  have himports : move 0 imports = imports := list_move_zero (fun decl => by
    show ImportDecl.mk _ _ _ _ = decl
    rw [hextent]) imports
  have hmodule : move 0 module = module := option_move_zero (fun decl => by
    show ModuleDecl.mk _ _ _ _ _ = decl
    have hdirectives : move 0 decl.directives = decl.directives :=
      list_move_zero (fun directive => by
        cases directive <;> simp [move]) decl.directives
    rw [hextent, hannotations, hdirectives]) module
  have hforms : move 0 forms = forms := list_move_zero form_move_zero forms
  show CompilationUnit.mk _ _ _ _ = _
  rw [hpackage, himports, hmodule, hforms]

end Movable

open Movable (move)

namespace Nonterminal

/-- The nonterminal, called with everything moved. -/
def move (n : Nat) : {β : Type} → Nonterminal β → Nonterminal β
  | _, .typeSegments start outer name diamond =>
    .typeSegments (start.move n) (outer.move n) name diamond
  | _, .binaryRest least start left => .binaryRest least (start.move n) (left.move n)
  | _, .selectors start target => .selectors (start.move n) (target.move n)
  | _, .steps start operand => .steps (start.move n) (operand.move n)
  | _, .declarators name start => .declarators name (start.move n)
  | _, .typeDecl mods => .typeDecl (Movable.move n mods)
  | _, .items unit => .items (Movable.move n unit)
  | _, nonterminal => nonterminal

/-- How the result of a nonterminal is moved. -/
@[reducible]
def movable : {β : Type} → Nonterminal β → Movable β
  | _, .annot | _, .annotations _ | _, .namedElements | _, .elementValue | _, .elementValues
  | _, .type | _, .typeSegments _ _ _ _ | _, .typeArgs | _, .typeArgList | _, .typesAfter _
  | _, .typeParamList | _, .expr | _, .conditional | _, .binary _ | _, .binaryRest _ _ _
  | _, .unary | _, .selectors _ _ | _, .steps _ _ | _, .lambda | _, .exprList | _, .sizes
  | _, .arrayInit | _, .arrayElements | _, .lambdaParamList | _, .labels | _, .switchRest _
  | _, .switchCases _ | _, .switchCase _ | _, .stmt | _, .block | _, .statements _
  | _, .declarators _ _ | _, .standalones | _, .resources | _, .catches | _, .modifierRun
  | _, .typeDecl _ | _, .members _ | _, .member _ | _, .paramList | _, .enumConstants | _, .names
  | _, .directives | _, .item | _, .items _ | _, .wholeExpr | _, .wholeType => inferInstance

end Nonterminal

end JavaSyntax
