import JavaSyntax.Tree.Basic

/-!
Trees without their extents. Two trees are the same reading of a text if they agree up to where
their parts and their documentation stand and up to the notation of strings.
-/

namespace JavaSyntax

/-- A text block is the string it denotes. -/
def Literal.erase : Literal → Literal
  | .textBlock s => .string s
  | value => value

theorem Literal.text_erase (value : Literal) : value.erase.text = value.text := by
  cases value <;> rfl

/-- What was in front of a declaration but documentation. -/
def Front.erase (front : Front) : Front :=
  ⟨front.modifiers, none⟩

namespace Tree

/-- The extent of what stands nowhere. -/
def nowhere : Extent := .point .eof

/-- The tree with every extent and all documentation forgotten and text blocks made strings. -/
def erase : {c : Category} → Tree c → Tree c
  | _, .nil => .nil
  | _, .cons head tail => .cons head.erase tail.erase
  | _, .none => .none
  | _, .some value => .some value.erase
  | _, .type outer name args diamond annotations dims _ =>
    .type outer.erase name args.erase diamond annotations.erase dims nowhere
  | _, .typeArg type => .typeArg type.erase
  | _, .wildcard annotations _ => .wildcard annotations.erase nowhere
  | _, .wildcardExtends annotations bound _ =>
    .wildcardExtends annotations.erase bound.erase nowhere
  | _, .wildcardSuper annotations bound _ => .wildcardSuper annotations.erase bound.erase nowhere
  | _, .annot name elements _ => .annot name elements.erase nowhere
  | _, .element key value => .element key value.erase
  | _, .typeParam annotations name bounds _ =>
    .typeParam annotations.erase name bounds.erase nowhere
  | _, .param modifiers annotations type name varargs _ =>
    .param modifiers annotations.erase type.erase name varargs nowhere
  | _, .declarator name dims init _ => .declarator name dims init.erase nowhere
  | _, .varDecl front annotations type names _ =>
    .varDecl front.erase annotations.erase type.erase names.erase nowhere
  | _, .arrayInit elements _ => .arrayInit elements.erase nowhere
  | _, .literal value _ => .literal value.erase nowhere
  | _, .ident name _ => .ident name nowhere
  | _, .binary left op right _ => .binary left.erase op right.erase nowhere
  | _, .unary op operand _ => .unary op operand.erase nowhere
  | _, .assign target op value _ => .assign target.erase op value.erase nowhere
  | _, .call target typeArgs name arguments _ =>
    .call target.erase typeArgs.erase name arguments.erase nowhere
  | _, .select target name _ => .select target.erase name nowhere
  | _, .index array index _ => .index array.erase index.erase nowhere
  | _, .cast type bounds operand _ => .cast type.erase bounds.erase operand.erase nowhere
  | _, .instanceOf operand type binding _ => .instanceOf operand.erase type.erase binding nowhere
  | _, .conditional condition yes no _ => .conditional condition.erase yes.erase no.erase nowhere
  | _, .newObject outer type arguments body _ =>
    .newObject outer.erase type.erase arguments.erase body.erase nowhere
  | _, .newArray type sizes dims init _ => .newArray type.erase sizes.erase dims init.erase nowhere
  | _, .paren inner _ => .paren inner.erase nowhere
  | _, .arrayValue init => .arrayValue init.erase
  | _, .lambda params body _ => .lambda params.erase body.erase nowhere
  | _, .methodRef target typeArgs name _ => .methodRef target.erase typeArgs.erase name nowhere
  | _, .switchExpr selector cases _ => .switchExpr selector.erase cases.erase nowhere
  | _, .annotationValue annot => .annotationValue annot.erase
  | _, .typeExpr type => .typeExpr type.erase
  | _, .erroneousExpr _ => .erroneousExpr nowhere
  | _, .lambdaParam modifiers type name _ => .lambdaParam modifiers type.erase name nowhere
  | _, .exprBody value => .exprBody value.erase
  | _, .blockBody block => .blockBody block.erase
  | _, .block statements _ => .block statements.erase nowhere
  | _, .switchCase labels arrow statements _ =>
    .switchCase labels.erase arrow statements.erase nowhere
  | _, .standalone expr _ => .standalone expr.erase nowhere
  | _, .forVariables decl => .forVariables decl.erase
  | _, .forExprs exprs => .forExprs exprs.erase
  | _, .resourceVariable modifiers type name init _ =>
    .resourceVariable modifiers type.erase name init.erase nowhere
  | _, .resourceExpr expr _ => .resourceExpr expr.erase nowhere
  | _, .catchClause param alternatives block _ =>
    .catchClause param.erase alternatives.erase block.erase nowhere
  | _, .exprStmt expr => .exprStmt expr.erase
  | _, .localVariables decl => .localVariables decl.erase
  | _, .localType decl => .localType decl.erase
  | _, .ifStmt condition yes no _ => .ifStmt condition.erase yes.erase no.erase nowhere
  | _, .whileStmt condition body _ => .whileStmt condition.erase body.erase nowhere
  | _, .doStmt body condition _ => .doStmt body.erase condition.erase nowhere
  | _, .forStmt init condition update body _ =>
    .forStmt init.erase condition.erase update.erase body.erase nowhere
  | _, .forEachStmt param iterable body _ =>
    .forEachStmt param.erase iterable.erase body.erase nowhere
  | _, .switchStmt selector cases _ => .switchStmt selector.erase cases.erase nowhere
  | _, .returnStmt value _ => .returnStmt value.erase nowhere
  | _, .breakStmt label _ => .breakStmt label nowhere
  | _, .continueStmt label _ => .continueStmt label nowhere
  | _, .tryStmt resources body catches final _ =>
    .tryStmt resources.erase body.erase catches.erase final.erase nowhere
  | _, .throwStmt value _ => .throwStmt value.erase nowhere
  | _, .assertStmt condition message _ => .assertStmt condition.erase message.erase nowhere
  | _, .synchronizedStmt lock body _ => .synchronizedStmt lock.erase body.erase nowhere
  | _, .labeledStmt label body _ => .labeledStmt label body.erase nowhere
  | _, .yieldStmt value _ => .yieldStmt value.erase nowhere
  | _, .blockStmt block => .blockStmt block.erase
  | _, .emptyStmt _ => .emptyStmt nowhere
  | _, .erroneousStmt _ => .erroneousStmt nowhere
  | _, .enumConstant annotations name arguments body _ =>
    .enumConstant annotations.erase name arguments.erase body.erase nowhere
  | _, .classForm params parent interfaces permits =>
    .classForm params.erase parent.erase interfaces.erase permits.erase
  | _, .interfaceForm params parents permits =>
    .interfaceForm params.erase parents.erase permits.erase
  | _, .enumForm interfaces constants => .enumForm interfaces.erase constants.erase
  | _, .recordForm params components interfaces =>
    .recordForm params.erase components.erase interfaces.erase
  | _, .annotationForm => .annotationForm
  | _, .typeDecl front annotations name form members _ =>
    .typeDecl front.erase annotations.erase name form.erase members.erase nowhere
  | _, .field decl => .field decl.erase
  | _, .method front annotations typeParams result name params throws body default _ =>
    .method front.erase annotations.erase typeParams.erase result.erase name params.erase
      throws.erase body.erase default.erase nowhere
  | _, .constructor front annotations typeParams name params throws body compact _ =>
    .constructor front.erase annotations.erase typeParams.erase name params.erase throws.erase
      body.erase compact nowhere
  | _, .initBlock isStatic body _ => .initBlock isStatic body.erase nowhere
  | _, .memberType decl => .memberType decl.erase
  | _, .erroneousMember _ => .erroneousMember nowhere

section Equations

variable {c : Category} {extent : Extent}

/-! What erasing does to the nodes of plain expressions. -/

@[simp] theorem erase_nil : (Tree.nil : Tree (.list c)).erase = .nil := rfl

@[simp] theorem erase_cons (head : Tree c) (tail : Tree (.list c)) :
    (Tree.cons head tail).erase = .cons head.erase tail.erase := rfl

@[simp] theorem erase_none : (Tree.none : Tree (.option c)).erase = .none := rfl

@[simp] theorem erase_some (value : Tree c) : (Tree.some value).erase = .some value.erase := rfl

@[simp] theorem erase_literal (value : Literal) :
    (Tree.literal value extent).erase = .literal value.erase nowhere := rfl

@[simp] theorem erase_paren (inner : Tree .expr) :
    (Tree.paren inner extent).erase = .paren inner.erase nowhere := rfl

@[simp] theorem erase_call (target : Tree (.option .expr)) (typeArgs : Tree (.list .typeArg))
    (name : String) (arguments : Tree (.list .expr)) :
    (Tree.call target typeArgs name arguments extent).erase =
      .call target.erase typeArgs.erase name arguments.erase nowhere := rfl

@[simp] theorem erase_select (target : Tree .expr) (name : String) :
    (Tree.select target name extent).erase = .select target.erase name nowhere := rfl

@[simp] theorem erase_index (array index : Tree .expr) :
    (Tree.index array index extent).erase = .index array.erase index.erase nowhere := rfl

@[simp] theorem erase_unary (op : UnaryOp) (operand : Tree .expr) :
    (Tree.unary op operand extent).erase = .unary op operand.erase nowhere := rfl

@[simp] theorem erase_binary (left : Tree .expr) (op : BinaryOp) (right : Tree .expr) :
    (Tree.binary left op right extent).erase = .binary left.erase op right.erase nowhere := rfl

@[simp] theorem erase_assign (target : Tree .expr) (op : AssignOp) (value : Tree .expr) :
    (Tree.assign target op value extent).erase = .assign target.erase op value.erase nowhere := rfl

@[simp] theorem erase_conditional (condition yes no : Tree .expr) :
    (Tree.conditional condition yes no extent).erase =
      .conditional condition.erase yes.erase no.erase nowhere := rfl

end Equations

end Tree

/-! The clauses and forms of a file. -/

def PackageDecl.erase (p : PackageDecl) : PackageDecl :=
  ⟨p.annotations.erase, p.name, Tree.nowhere⟩

def ImportDecl.erase (i : ImportDecl) : ImportDecl :=
  { i with extent := Tree.nowhere }

def Directive.erase : Directive → Directive
  | .requires isTransitive isStatic name _ => .requires isTransitive isStatic name Tree.nowhere
  | .exports package targets _ => .exports package targets Tree.nowhere
  | .opens package targets _ => .opens package targets Tree.nowhere
  | .uses service _ => .uses service Tree.nowhere
  | .provides service implementations _ => .provides service implementations Tree.nowhere

def ModuleDecl.erase (m : ModuleDecl) : ModuleDecl :=
  ⟨m.annotations.erase, m.isOpen, m.name, m.directives.map Directive.erase, Tree.nowhere⟩

def TopLevel.erase : TopLevel → TopLevel
  | .type decl => .type decl.erase
  | .empty _ => .empty Tree.nowhere
  | .erroneous _ => .erroneous Tree.nowhere

/-- The file with every extent forgotten and text blocks made strings. -/
def CompilationUnit.erase (unit : CompilationUnit) : CompilationUnit where
  package := unit.package.map PackageDecl.erase
  imports := unit.imports.map ImportDecl.erase
  module := unit.module.map ModuleDecl.erase
  forms := unit.forms.map TopLevel.erase

end JavaSyntax
