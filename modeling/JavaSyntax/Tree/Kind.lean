import JavaSyntax.Tree.Basic

/-!
The name and the extent of a node.
-/

namespace JavaSyntax

namespace Tree

def exprExtent : Tree .expr → Extent
  | .literal _ e => e
  | .ident _ e => e
  | .binary _ _ _ e => e
  | .unary _ _ e => e
  | .assign _ _ _ e => e
  | .call _ _ _ _ e => e
  | .select _ _ e => e
  | .index _ _ e => e
  | .cast _ _ _ e => e
  | .instanceOf _ _ _ e => e
  | .conditional _ _ _ e => e
  | .newObject _ _ _ _ e => e
  | .newArray _ _ _ _ e => e
  | .paren _ e => e
  | .arrayValue (.arrayInit _ e) => e
  | .lambda _ _ e => e
  | .methodRef _ _ _ e => e
  | .switchExpr _ _ e => e
  | .annotationValue (.annot _ _ e) => e
  | .typeExpr (.type _ _ _ _ _ _ e) => e
  | .erroneousExpr e => e

def exprKind : Tree .expr → String
  | .literal _ _ => "literal"
  | .ident _ _ => "identifier"
  | .binary _ _ _ _ => "binary expression"
  | .unary _ _ _ => "unary expression"
  | .assign _ _ _ _ => "assignment"
  | .call _ _ _ _ _ => "method invocation"
  | .select _ _ _ => "member select"
  | .index _ _ _ => "array access"
  | .cast _ _ _ _ => "type cast"
  | .instanceOf _ _ _ _ => "instanceof"
  | .conditional _ _ _ _ => "conditional expression"
  | .newObject _ _ _ _ _ => "new class"
  | .newArray _ _ _ _ _ => "new array"
  | .paren _ _ => "parenthesized"
  | .arrayValue _ => "array initializer"
  | .lambda _ _ _ => "lambda expression"
  | .methodRef _ _ _ _ => "member reference"
  | .switchExpr _ _ _ => "switch expression"
  | .annotationValue _ => "annotation"
  | .typeExpr _ => "type"
  | .erroneousExpr _ => "erroneous tree"

def declExtent : Tree .typeDecl → Extent
  | .typeDecl _ _ _ _ _ e => e

def formKind : Tree .form → String
  | .classForm _ _ _ _ => "class"
  | .interfaceForm _ _ _ => "interface"
  | .enumForm _ _ => "enum"
  | .recordForm _ _ _ => "record"
  | .annotationForm => "annotation type"

/-- The word that opens a declaration of this form. -/
def keyword : Tree .form → String
  | .classForm _ _ _ _ => "class"
  | .interfaceForm _ _ _ => "interface"
  | .enumForm _ _ => "enum"
  | .recordForm _ _ _ => "record"
  | .annotationForm => "@interface"

def declKind : Tree .typeDecl → String
  | .typeDecl _ _ _ form _ _ => form.formKind

def stmtExtent : Tree .stmt → Extent
  | .exprStmt (.standalone _ e) => e
  | .localVariables (.varDecl _ _ _ _ e) => e
  | .localType decl => decl.declExtent
  | .ifStmt _ _ _ e => e
  | .whileStmt _ _ e => e
  | .doStmt _ _ e => e
  | .forStmt _ _ _ _ e => e
  | .forEachStmt _ _ _ e => e
  | .switchStmt _ _ e => e
  | .returnStmt _ e => e
  | .breakStmt _ e => e
  | .continueStmt _ e => e
  | .tryStmt _ _ _ _ e => e
  | .throwStmt _ e => e
  | .assertStmt _ _ e => e
  | .synchronizedStmt _ _ e => e
  | .labeledStmt _ _ e => e
  | .yieldStmt _ e => e
  | .blockStmt (.block _ e) => e
  | .emptyStmt e => e
  | .erroneousStmt e => e

def stmtKind : Tree .stmt → String
  | .exprStmt _ => "expression statement"
  | .localVariables _ => "variable declaration"
  | .localType decl => decl.declKind
  | .ifStmt _ _ _ _ => "if statement"
  | .whileStmt _ _ _ => "while loop"
  | .doStmt _ _ _ => "do-while loop"
  | .forStmt _ _ _ _ _ => "for loop"
  | .forEachStmt _ _ _ _ => "enhanced for loop"
  | .switchStmt _ _ _ => "switch statement"
  | .returnStmt _ _ => "return statement"
  | .breakStmt _ _ => "break statement"
  | .continueStmt _ _ => "continue statement"
  | .tryStmt _ _ _ _ _ => "try statement"
  | .throwStmt _ _ => "throw statement"
  | .assertStmt _ _ _ => "assert statement"
  | .synchronizedStmt _ _ _ => "synchronized statement"
  | .labeledStmt _ _ _ => "labeled statement"
  | .yieldStmt _ _ => "yield statement"
  | .blockStmt _ => "block"
  | .emptyStmt _ => "empty statement"
  | .erroneousStmt _ => "erroneous tree"

def memberExtent : Tree .member → Extent
  | .field (.varDecl _ _ _ _ e) => e
  | .method _ _ _ _ _ _ _ _ _ e => e
  | .constructor _ _ _ _ _ _ _ _ e => e
  | .initBlock _ _ e => e
  | .memberType decl => decl.declExtent
  | .erroneousMember e => e

def memberKind : Tree .member → String
  | .field _ => "variable"
  | .method _ _ _ _ _ _ _ _ _ _ => "method"
  | .constructor _ _ _ _ _ _ _ _ _ => "constructor"
  | .initBlock _ _ _ => "initializer"
  | .memberType decl => decl.declKind
  | .erroneousMember _ => "erroneous tree"

/-- Whether an annotation is `@Deprecated`, also by its full name. -/
def isDeprecated : Tree .annot → Bool
  | .annot name _ _ => name == "Deprecated" || name == "java.lang.Deprecated"

/-- Whether a type is a primitive one, which no array of it is. -/
def isPrimitive : Tree .type → Bool
  | .type _ name _ _ _ dims _ =>
    dims == 0 && ["boolean", "byte", "short", "int", "long", "char", "float", "double",
      "void"].contains name

def isArray : Tree .type → Bool
  | .type _ _ _ _ _ dims _ => 0 < dims

/-- The type with more dimensions. -/
def addDims (n : Nat) : Tree .type → Tree .type
  | .type outer name args diamond annotations dims extent =>
    .type outer name args diamond annotations (dims + n) extent

end Tree

namespace TopLevel

def extent : TopLevel → Extent
  | .type decl => decl.declExtent
  | .empty e => e
  | .erroneous e => e

def kind : TopLevel → String
  | .type decl => decl.declKind
  | .empty _ => "empty statement"
  | .erroneous _ => "erroneous tree"

end TopLevel

/-- The declarations at the top of a file, without stray semicolons and error markers. -/
def CompilationUnit.types (unit : CompilationUnit) : List (Tree .typeDecl) :=
  unit.forms.filterMap fun
    | .type decl => some decl
    | _ => none

end JavaSyntax
