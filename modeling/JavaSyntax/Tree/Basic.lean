import JavaSyntax.Literal.Basic
import JavaSyntax.Tree.Extent
import JavaSyntax.Tree.Operator

/-!
Syntax trees. All categories that nest in one another make up one family, `Tree`, indexed by the
category; lists and options of trees belong to it, so that a function on trees is one recursion and
a proof about them one induction. What stands only at the top of a file is kept in plain structures.
-/

namespace JavaSyntax

inductive Category where
  | type
  | typeArg
  | annot
  | element
  | typeParam
  | param
  | declarator
  | varDecl
  | arrayInit
  | expr
  | lambdaParam
  | lambdaBody
  | block
  | switchCase
  | standalone
  | forInit
  | resource
  | catchClause
  | stmt
  | enumConstant
  | form
  | typeDecl
  | member
  | list (c : Category)
  | option (c : Category)
deriving DecidableEq

/-- What a declaration keeps of what stood in front of it: its modifiers, and the token that its
documentation came with. A local variable keeps no documentation. -/
structure Front where
  modifiers : List Modifier
  doc : Option Mark

instance : Coe Front (List Modifier) := ⟨Front.modifiers⟩

inductive Tree : Category → Type where
  | protected nil {c : Category} : Tree (.list c)
  | protected cons {c : Category} (head : Tree c) (tail : Tree (.list c)) : Tree (.list c)
  | protected none {c : Category} : Tree (.option c)
  | protected some {c : Category} (value : Tree c) : Tree (.option c)
  /-- A dotted name or a primitive type. Segments in front of one with type arguments make up
  `outer`; `diamond` marks an empty argument list. -/
  | protected type (outer : Tree (.option .type)) (name : String) (args : Tree (.list .typeArg))
      (diamond : Bool) (annotations : Tree (.list .annot)) (dims : Nat) (extent : Extent) :
      Tree .type
  | protected typeArg (type : Tree .type) : Tree .typeArg
  | wildcard (annotations : Tree (.list .annot)) (extent : Extent) : Tree .typeArg
  | wildcardExtends (annotations : Tree (.list .annot)) (bound : Tree .type)
      (extent : Extent) : Tree .typeArg
  | wildcardSuper (annotations : Tree (.list .annot)) (bound : Tree .type)
      (extent : Extent) : Tree .typeArg
  | protected annot (name : String) (elements : Tree (.list .element)) (extent : Extent) :
      Tree .annot
  | protected element (key : Option String) (value : Tree .expr) : Tree .element
  | protected typeParam (annotations : Tree (.list .annot)) (name : String)
      (bounds : Tree (.list .type)) (extent : Extent) : Tree .typeParam
  | protected param (modifiers : List Modifier) (annotations : Tree (.list .annot))
      (type : Tree .type) (name : String) (varargs : Bool) (extent : Extent) : Tree .param
  | protected declarator (name : String) (dims : Nat) (init : Tree (.option .expr))
      (extent : Extent) : Tree .declarator
  /-- A field or a local variable, with all its names. -/
  | protected varDecl (front : Front) (annotations : Tree (.list .annot))
      (type : Tree .type) (names : Tree (.list .declarator)) (extent : Extent) : Tree .varDecl
  | arrayInit (elements : Tree (.list .expr)) (extent : Extent) : Tree .arrayInit
  | literal (value : Literal) (extent : Extent) : Tree .expr
  /-- A simple name, `this` or `super`. -/
  | ident (name : String) (extent : Extent) : Tree .expr
  | binary (left : Tree .expr) (op : BinaryOp) (right : Tree .expr) (extent : Extent) : Tree .expr
  | unary (op : UnaryOp) (operand : Tree .expr) (extent : Extent) : Tree .expr
  | assign (target : Tree .expr) (op : AssignOp) (value : Tree .expr) (extent : Extent) : Tree .expr
  | call (target : Tree (.option .expr)) (typeArgs : Tree (.list .typeArg)) (name : String)
      (arguments : Tree (.list .expr)) (extent : Extent) : Tree .expr
  | select (target : Tree .expr) (name : String) (extent : Extent) : Tree .expr
  | protected index (array : Tree .expr) (index : Tree .expr) (extent : Extent) : Tree .expr
  | cast (type : Tree .type) (bounds : Tree (.list .type)) (operand : Tree .expr)
      (extent : Extent) : Tree .expr
  | instanceOf (operand : Tree .expr) (type : Tree .type) (binding : Option String)
      (extent : Extent) : Tree .expr
  | conditional (condition : Tree .expr) (yes : Tree .expr) (no : Tree .expr) (extent : Extent) :
      Tree .expr
  | newObject (outer : Tree (.option .expr)) (type : Tree .type) (arguments : Tree (.list .expr))
      (body : Tree (.option (.list .member))) (extent : Extent) : Tree .expr
  /-- An array creation: sized dimensions, then `dims` empty ones. -/
  | newArray (type : Tree .type) (sizes : Tree (.list .expr)) (dims : Nat)
      (init : Tree (.option .arrayInit)) (extent : Extent) : Tree .expr
  | paren (inner : Tree .expr) (extent : Extent) : Tree .expr
  | arrayValue (init : Tree .arrayInit) : Tree .expr
  | lambda (params : Tree (.list .lambdaParam)) (body : Tree .lambdaBody) (extent : Extent) :
      Tree .expr
  /-- A method reference; a constructor reference is named `new`. -/
  | methodRef (target : Tree .expr) (typeArgs : Tree (.list .typeArg)) (name : String)
      (extent : Extent) : Tree .expr
  | switchExpr (selector : Tree .expr) (cases : Tree (.list .switchCase)) (extent : Extent) :
      Tree .expr
  /-- An annotation as the value of an annotation element. -/
  | annotationValue (annot : Tree .annot) : Tree .expr
  /-- A type where an expression stands. -/
  | typeExpr (type : Tree .type) : Tree .expr
  | erroneousExpr (extent : Extent) : Tree .expr
  | lambdaParam (modifiers : List Modifier) (type : Tree (.option .type)) (name : String)
      (extent : Extent) : Tree .lambdaParam
  | exprBody (value : Tree .expr) : Tree .lambdaBody
  | blockBody (block : Tree .block) : Tree .lambdaBody
  | protected block (statements : Tree (.list .stmt)) (extent : Extent) : Tree .block
  /-- A group of a switch; without labels it is the default. -/
  | switchCase (labels : Tree (.list .expr)) (arrow : Bool) (statements : Tree (.list .stmt))
      (extent : Extent) : Tree .switchCase
  /-- An expression used as a statement. -/
  | standalone (expr : Tree .expr) (extent : Extent) : Tree .standalone
  | forVariables (decl : Tree .varDecl) : Tree .forInit
  | forExprs (exprs : Tree (.list .standalone)) : Tree .forInit
  | resourceVariable (modifiers : List Modifier) (type : Tree .type) (name : String)
      (init : Tree .expr) (extent : Extent) : Tree .resource
  | resourceExpr (expr : Tree .expr) (extent : Extent) : Tree .resource
  | catchClause (param : Tree .param) (alternatives : Tree (.list .type)) (block : Tree .block)
      (extent : Extent) : Tree .catchClause
  | exprStmt (expr : Tree .standalone) : Tree .stmt
  | localVariables (decl : Tree .varDecl) : Tree .stmt
  | localType (decl : Tree .typeDecl) : Tree .stmt
  | ifStmt (condition : Tree .expr) (yes : Tree .stmt) (no : Tree (.option .stmt))
      (extent : Extent) : Tree .stmt
  | whileStmt (condition : Tree .expr) (body : Tree .stmt) (extent : Extent) : Tree .stmt
  | doStmt (body : Tree .stmt) (condition : Tree .expr) (extent : Extent) : Tree .stmt
  | forStmt (init : Tree .forInit) (condition : Tree (.option .expr))
      (update : Tree (.list .standalone)) (body : Tree .stmt) (extent : Extent) : Tree .stmt
  | forEachStmt (param : Tree .param) (iterable : Tree .expr) (body : Tree .stmt)
      (extent : Extent) : Tree .stmt
  | switchStmt (selector : Tree .expr) (cases : Tree (.list .switchCase)) (extent : Extent) :
      Tree .stmt
  | returnStmt (value : Tree (.option .expr)) (extent : Extent) : Tree .stmt
  | breakStmt (label : Option String) (extent : Extent) : Tree .stmt
  | continueStmt (label : Option String) (extent : Extent) : Tree .stmt
  | tryStmt (resources : Tree (.list .resource)) (body : Tree .block)
      (catches : Tree (.list .catchClause)) (final : Tree (.option .block)) (extent : Extent) :
      Tree .stmt
  | throwStmt (value : Tree .expr) (extent : Extent) : Tree .stmt
  | assertStmt (condition : Tree .expr) (message : Tree (.option .expr)) (extent : Extent) :
      Tree .stmt
  | synchronizedStmt (lock : Tree .expr) (body : Tree .block) (extent : Extent) : Tree .stmt
  | labeledStmt (label : String) (body : Tree .stmt) (extent : Extent) : Tree .stmt
  | yieldStmt (value : Tree .expr) (extent : Extent) : Tree .stmt
  | blockStmt (block : Tree .block) : Tree .stmt
  | emptyStmt (extent : Extent) : Tree .stmt
  | erroneousStmt (extent : Extent) : Tree .stmt
  | enumConstant (annotations : Tree (.list .annot)) (name : String)
      (arguments : Tree (.option (.list .expr))) (body : Tree (.option (.list .member)))
      (extent : Extent) : Tree .enumConstant
  | classForm (params : Tree (.list .typeParam)) (parent : Tree (.option .type))
      (interfaces : Tree (.list .type)) (permits : Tree (.list .type)) : Tree .form
  | interfaceForm (params : Tree (.list .typeParam)) (parents : Tree (.list .type))
      (permits : Tree (.list .type)) : Tree .form
  | enumForm (interfaces : Tree (.list .type)) (constants : Tree (.list .enumConstant)) : Tree .form
  | recordForm (params : Tree (.list .typeParam)) (components : Tree (.list .param))
      (interfaces : Tree (.list .type)) : Tree .form
  | annotationForm : Tree .form
  /-- A class, interface, enum, record or annotation type: its form says which. -/
  | typeDecl (front : Front) (annotations : Tree (.list .annot)) (name : String)
      (form : Tree .form) (members : Tree (.list .member)) (extent : Extent) : Tree .typeDecl
  | field (decl : Tree .varDecl) : Tree .member
  /-- A method; without a result type it is `void`. -/
  | method (front : Front) (annotations : Tree (.list .annot))
      (typeParams : Tree (.list .typeParam)) (result : Tree (.option .type)) (name : String)
      (params : Tree (.list .param)) (throws : Tree (.list .type)) (body : Tree (.option .block))
      (default : Tree (.option .expr)) (extent : Extent) : Tree .member
  /-- A constructor; a compact one has no parameter list. -/
  | constructor (front : Front) (annotations : Tree (.list .annot))
      (typeParams : Tree (.list .typeParam)) (name : String) (params : Tree (.list .param))
      (throws : Tree (.list .type)) (body : Tree .block) (compact : Bool) (extent : Extent) :
      Tree .member
  | initBlock (isStatic : Bool) (body : Tree .block) (extent : Extent) : Tree .member
  | memberType (decl : Tree .typeDecl) : Tree .member
  | erroneousMember (extent : Extent) : Tree .member

namespace Tree

/-- The elements of a tree that is a list of `d`; any other tree has none. -/
def elements {d : Category} : {c : Category} → Tree c → c = .list d → List (Tree d)
  | _, .cons head tail, h => (Category.list.inj h ▸ head) :: tail.elements h
  | _, _, _ => []

def toList {c : Category} (trees : Tree (.list c)) : List (Tree c) :=
  trees.elements rfl

@[simp] theorem toList_nil {c : Category} : (Tree.nil : Tree (.list c)).toList = [] := rfl

@[simp] theorem toList_cons {c : Category} (head : Tree c) (tail : Tree (.list c)) :
    (Tree.cons head tail).toList = head :: tail.toList := rfl

def toOption {c : Category} : Tree (.option c) → Option (Tree c)
  | .none => none
  | .some value => some value

/-- One list behind another; a tree that is no list stays as it is. -/
def append : {c : Category} → Tree c → Tree c → Tree c
  | _, .nil, rest => rest
  | _, .cons head tail, rest => .cons head (tail.append rest)
  | _, tree, _ => tree

def isNil {c : Category} : Tree (.list c) → Bool
  | .nil => true
  | .cons _ _ => false

end Tree

structure PackageDecl where
  annotations : Tree (.list .annot)
  name : String
  extent : Extent

structure ImportDecl where
  name : String
  isStatic : Bool
  isWildcard : Bool
  extent : Extent

inductive Directive where
  | requires (isTransitive isStatic : Bool) (name : String) (extent : Extent)
  | exports (package : String) (targets : List String) (extent : Extent)
  | opens (package : String) (targets : List String) (extent : Extent)
  | uses (service : String) (extent : Extent)
  | provides (service : String) (implementations : List String) (extent : Extent)

structure ModuleDecl where
  annotations : Tree (.list .annot)
  isOpen : Bool
  name : String
  directives : List Directive
  extent : Extent

/-- What stands at the top of a file besides its clauses. -/
inductive TopLevel where
  | protected type (decl : Tree .typeDecl)
  | empty (extent : Extent)
  | erroneous (extent : Extent)

structure CompilationUnit where
  package : Option PackageDecl
  imports : List ImportDecl
  module : Option ModuleDecl
  forms : List TopLevel

/-- A file in which nothing stands. -/
def CompilationUnit.empty : CompilationUnit := ⟨none, [], none, []⟩

end JavaSyntax
