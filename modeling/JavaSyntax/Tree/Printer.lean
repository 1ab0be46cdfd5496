import JavaSyntax.Tree.Kind

/-!
Printing. Trees are written with two blanks per level, one member or statement a line, and no
comments; error markers are written `(ERROR)`.
-/

namespace JavaSyntax

/-- What printing makes of a category: a text, or a list or option of texts. -/
@[reducible] def Printed : Category → Type
  | .list c => List (Printed c)
  | .option c => Option (Printed c)
  | _ => String

namespace Printer

def blanks (n : Nat) : String :=
  String.ofList (List.replicate n ' ')

def commas (texts : List String) : String :=
  ", ".intercalate texts

/-- The texts one after the other, each followed by `stop`. -/
def each (stop : String) (texts : List String) : String :=
  String.join (texts.map (· ++ stop))

def modifiers (ms : List Modifier) : String :=
  each " " (ms.map Modifier.spelling)

/-- Annotations in front of a declaration, each on a line of its own. -/
def onLines (pad : Nat) (annotations : List String) : String :=
  each ("\n" ++ blanks pad) annotations

def dims (n : Nat) : String :=
  String.join (List.replicate n "[]")

def parens (texts : List String) : String :=
  "(" ++ commas texts ++ ")"

/-- A list in angle brackets; nothing for an empty one. -/
def angles (texts : List String) : String :=
  if texts.isEmpty then "" else "<" ++ commas texts ++ ">"

/-- A clause with its types; nothing for no types. -/
def clause (word : String) (types : List String) : String :=
  if types.isEmpty then "" else " " ++ word ++ " " ++ commas types

/-- An optional text between two others; nothing without it. -/
def optional (before : String) (text : Option String) (after : String) : String :=
  text.elim "" fun t => before ++ t ++ after

/-- Texts on lines of their own at a level. -/
def lines (pad : Nat) (texts : List String) : String :=
  String.join (texts.map fun t => blanks pad ++ t ++ "\n")

/-- A braced list, two blanks deeper than its braces. -/
def braces (pad : Nat) (texts : List String) : String :=
  if texts.isEmpty then "\x7b\x7d"
  else "\x7b\n" ++ lines (pad + 2) texts ++ blanks pad ++ "\x7d"

/-- The body of an enum: the constants, then the members behind a semicolon. -/
def enumBody (pad : Nat) (constants members : List String) : String :=
  "\x7b\n" ++ ",\n".intercalate (constants.map (blanks (pad + 2) ++ ·)) ++
    (if constants.isEmpty && members.isEmpty then "" else ";\n") ++
    lines (pad + 2) members ++ blanks pad ++ "\x7d"

/-- A switch, whose groups bring their own line ends. -/
def switchText (pad : Nat) (selector : String) (groups : List String) : String :=
  "switch (" ++ selector ++ ") \x7b\n" ++ String.join (groups.map (blanks (pad + 2) ++ ·)) ++
    blanks pad ++ "\x7d"

end Printer

open Printer in
/-- The text of a tree at an indentation. -/
def Tree.print : {c : Category} → Tree c → Nat → Printed c
  | _, .nil, _ => []
  | _, .cons head tail, pad => head.print pad :: tail.print pad
  | _, .none, _ => none
  | _, .some value, pad => some (value.print pad)
  | _, .type outer name args diamond annotations n _, pad =>
    optional "" (outer.print pad) "." ++ each " " (annotations.print pad) ++ name ++
      (if diamond then "<>" else "") ++ angles (args.print pad) ++ dims n
  | _, .typeArg type, pad => type.print pad
  | _, .wildcard annotations _, pad => each " " (annotations.print pad) ++ "?"
  | _, .wildcardExtends annotations bound _, pad =>
    each " " (annotations.print pad) ++ "? extends " ++ bound.print pad
  | _, .wildcardSuper annotations bound _, pad =>
    each " " (annotations.print pad) ++ "? super " ++ bound.print pad
  | _, .annot name elements _, pad =>
    let texts := elements.print pad
    "@" ++ name ++ (if texts.isEmpty then "" else parens texts)
  | _, .element key value, pad => optional "" key " = " ++ value.print pad
  | _, .typeParam annotations name bounds _, pad =>
    let texts := bounds.print pad
    each " " (annotations.print pad) ++ name ++
      (if texts.isEmpty then "" else " extends " ++ " & ".intercalate texts)
  | _, .param ms annotations type name varargs _, pad =>
    each " " (annotations.print pad) ++ modifiers ms ++ type.print pad ++
      (if varargs then "..." else "") ++ " " ++ name
  | _, .declarator name n init _, pad => name ++ dims n ++ optional " = " (init.print pad) ""
  | _, .varDecl front annotations type names _, pad =>
    each " " (annotations.print pad) ++ modifiers front.modifiers ++ type.print pad ++ " " ++
      commas (names.print pad)
  | _, .arrayInit elements _, pad => "\x7b" ++ commas (elements.print pad) ++ "\x7d"
  | _, .literal value _, _ => value.text
  | _, .ident name _, _ => name
  | _, .binary left op right _, pad =>
    left.print pad ++ " " ++ op.spelling ++ " " ++ right.print pad
  | _, .unary op operand _, pad =>
    if op.isTrailing then operand.print pad ++ op.spelling else op.spelling ++ operand.print pad
  | _, .assign target op value _, pad =>
    target.print pad ++ " " ++ op.spelling ++ " " ++ value.print pad
  | _, .call target typeArgs name arguments _, pad =>
    optional "" (target.print pad) "." ++ angles (typeArgs.print pad) ++ name ++
      parens (arguments.print pad)
  | _, .select target name _, pad => target.print pad ++ "." ++ name
  | _, .index array index _, pad => array.print pad ++ "[" ++ index.print pad ++ "]"
  | _, .cast type bounds operand _, pad =>
    "(" ++ " & ".intercalate (type.print pad :: bounds.print pad) ++ ") " ++ operand.print pad
  | _, .instanceOf operand type binding _, pad =>
    operand.print pad ++ " instanceof " ++ type.print pad ++ optional " " binding ""
  | _, .conditional condition yes no _, pad =>
    condition.print pad ++ " ? " ++ yes.print pad ++ " : " ++ no.print pad
  | _, .newObject outer type arguments body _, pad =>
    optional "" (outer.print pad) "." ++ "new " ++ type.print pad ++ parens (arguments.print pad) ++
      optional " " ((body.print (pad + 2)).map (braces pad)) ""
  | _, .newArray type sizes n init _, pad =>
    "new " ++ type.print pad ++ String.join ((sizes.print pad).map fun t => "[" ++ t ++ "]") ++
      dims n ++ optional " " (init.print pad) ""
  | _, .paren inner _, pad => "(" ++ inner.print pad ++ ")"
  | _, .arrayValue init, pad => init.print pad
  | _, .lambda (.cons (.lambdaParam [] .none name _) .nil) body _, pad =>
    name ++ " -> " ++ body.print pad
  | _, .lambda params body _, pad => parens (params.print pad) ++ " -> " ++ body.print pad
  | _, .methodRef target typeArgs name _, pad =>
    target.print pad ++ "::" ++ angles (typeArgs.print pad) ++ name
  | _, .switchExpr selector cases _, pad =>
    switchText pad (selector.print pad) (cases.print (pad + 2))
  | _, .annotationValue annot, pad => annot.print pad
  | _, .typeExpr type, pad => type.print pad
  | _, .erroneousExpr _, _ => "(ERROR)"
  | _, .lambdaParam ms type name _, pad =>
    modifiers ms ++ optional "" (type.print pad) " " ++ name
  | _, .exprBody value, pad => value.print pad
  | _, .blockBody block, pad => block.print pad
  | _, .block statements _, pad => braces pad (statements.print (pad + 2))
  | _, .switchCase labels true statements _, pad =>
    let texts := labels.print pad
    (if texts.isEmpty then "default" else "case " ++ commas texts) ++ " -> " ++
      String.join (statements.print pad) ++ "\n"
  | _, .switchCase labels false statements _, pad =>
    let texts := labels.print pad
    (if texts.isEmpty then "default" else "case " ++ commas texts) ++ ":\n" ++
      lines (pad + 2) (statements.print (pad + 2))
  | _, .standalone expr _, pad => expr.print pad
  | _, .forVariables decl, pad => decl.print pad
  | _, .forExprs exprs, pad => commas (exprs.print pad)
  | _, .resourceVariable ms type name init _, pad =>
    modifiers ms ++ type.print pad ++ " " ++ name ++ " = " ++ init.print pad
  | _, .resourceExpr expr _, pad => expr.print pad
  | _, .catchClause (.param ms _ type name _ _) alternatives block _, pad =>
    " catch (" ++ modifiers ms ++ " | ".intercalate (type.print pad :: alternatives.print pad) ++
      " " ++ name ++ ") " ++ block.print pad
  | _, .exprStmt expr, pad => expr.print pad ++ ";"
  | _, .localVariables decl, pad => decl.print pad ++ ";"
  | _, .localType decl, pad => decl.print pad
  | _, .ifStmt condition yes no _, pad =>
    "if (" ++ condition.print pad ++ ") " ++ yes.print pad ++ optional " else " (no.print pad) ""
  | _, .whileStmt condition body _, pad =>
    "while (" ++ condition.print pad ++ ") " ++ body.print pad
  | _, .doStmt body condition _, pad =>
    "do " ++ body.print pad ++ " while (" ++ condition.print pad ++ ");"
  | _, .forStmt init condition update body _, pad =>
    "for (" ++ init.print pad ++ "; " ++ optional "" (condition.print pad) "" ++ "; " ++
      commas (update.print pad) ++ ") " ++ body.print pad
  | _, .forEachStmt param iterable body _, pad =>
    "for (" ++ param.print pad ++ " : " ++ iterable.print pad ++ ") " ++ body.print pad
  | _, .switchStmt selector cases _, pad =>
    switchText pad (selector.print pad) (cases.print (pad + 2))
  | _, .returnStmt value _, pad => "return" ++ optional " " (value.print pad) "" ++ ";"
  | _, .breakStmt label _, _ => "break" ++ optional " " label "" ++ ";"
  | _, .continueStmt label _, _ => "continue" ++ optional " " label "" ++ ";"
  | _, .tryStmt resources body catches final _, pad =>
    let texts := resources.print pad
    "try " ++ (if texts.isEmpty then "" else "(" ++ "; ".intercalate texts ++ ") ") ++
      body.print pad ++ String.join (catches.print pad) ++ optional " finally " (final.print pad) ""
  | _, .throwStmt value _, pad => "throw " ++ value.print pad ++ ";"
  | _, .assertStmt condition message _, pad =>
    "assert " ++ condition.print pad ++ optional " : " (message.print pad) "" ++ ";"
  | _, .synchronizedStmt lock body _, pad =>
    "synchronized (" ++ lock.print pad ++ ") " ++ body.print pad
  | _, .labeledStmt label body _, pad => label ++ ": " ++ body.print pad
  | _, .yieldStmt value _, pad => "yield " ++ value.print pad ++ ";"
  | _, .blockStmt block, pad => block.print pad
  | _, .emptyStmt _, _ => ";"
  | _, .erroneousStmt _, _ => "(ERROR);"
  | _, .enumConstant annotations name arguments body _, pad =>
    each " " (annotations.print pad) ++ name ++ optional "" ((arguments.print pad).map parens) "" ++
      optional " " ((body.print (pad + 2)).map (braces pad)) ""
  | _, .classForm params parent interfaces permits, pad =>
    angles (params.print pad) ++ optional " extends " (parent.print pad) "" ++
      clause "implements" (interfaces.print pad) ++ clause "permits" (permits.print pad)
  | _, .interfaceForm params parents permits, pad =>
    angles (params.print pad) ++ clause "extends" (parents.print pad) ++
      clause "permits" (permits.print pad)
  | _, .enumForm interfaces _, pad => clause "implements" (interfaces.print pad)
  | _, .recordForm params components interfaces, pad =>
    angles (params.print pad) ++ parens (components.print pad) ++
      clause "implements" (interfaces.print pad)
  | _, .annotationForm, _ => ""
  | _, .typeDecl front annotations name (.enumForm interfaces constants) members _, pad =>
    onLines pad (annotations.print pad) ++ modifiers front.modifiers ++ "enum " ++ name ++
      clause "implements" (interfaces.print pad) ++ " " ++
      enumBody pad (constants.print (pad + 2)) (members.print (pad + 2))
  | _, .typeDecl front annotations name form members _, pad =>
    onLines pad (annotations.print pad) ++ modifiers front.modifiers ++ form.keyword ++ " " ++
      name ++ form.print pad ++ " " ++ braces pad (members.print (pad + 2))
  | _, .field (.varDecl front annotations type names _), pad =>
    onLines pad (annotations.print pad) ++ modifiers front.modifiers ++ type.print pad ++ " " ++
      commas (names.print pad) ++ ";"
  | _, .method front annotations typeParams result name params throws body default _, pad =>
    onLines pad (annotations.print pad) ++ modifiers front.modifiers ++
      (if typeParams.isNil then "" else angles (typeParams.print pad) ++ " ") ++
      (result.print pad).getD "void" ++ " " ++ name ++ parens (params.print pad) ++
      clause "throws" (throws.print pad) ++ optional " default " (default.print pad) "" ++
      (body.print pad).elim ";" (" " ++ ·)
  | _, .constructor front annotations typeParams name params throws body compact _, pad =>
    onLines pad (annotations.print pad) ++ modifiers front.modifiers ++
      (if typeParams.isNil then "" else angles (typeParams.print pad) ++ " ") ++ name ++
      (if compact then "" else parens (params.print pad)) ++ clause "throws" (throws.print pad) ++
      " " ++ body.print pad
  | _, .initBlock isStatic body _, pad => (if isStatic then "static " else "") ++ body.print pad
  | _, .memberType decl, pad => decl.print pad
  | _, .erroneousMember _, _ => "(ERROR)"

def PackageDecl.text (p : PackageDecl) : String :=
  "package " ++ p.name ++ ";"

def ImportDecl.text (i : ImportDecl) : String :=
  (if i.isStatic then "import static " else "import ") ++ i.name ++
    (if i.isWildcard then ".*;" else ";")

def Directive.text : Directive → String
  | .requires isTransitive isStatic name _ =>
    "requires " ++ (if isTransitive then "transitive " else "") ++
      (if isStatic then "static " else "") ++ name ++ ";"
  | .exports package targets _ => "exports " ++ package ++ Printer.clause "to" targets ++ ";"
  | .opens package targets _ => "opens " ++ package ++ Printer.clause "to" targets ++ ";"
  | .uses service _ => "uses " ++ service ++ ";"
  | .provides service implementations _ =>
    "provides " ++ service ++ " with " ++ Printer.commas implementations ++ ";"

def ModuleDecl.print (m : ModuleDecl) : String :=
  Printer.each "\n" (m.annotations.print 0) ++ (if m.isOpen then "open " else "") ++ "module " ++
    m.name ++ " \x7b\n" ++ Printer.lines 2 (m.directives.map Directive.text) ++ "\x7d"

def TopLevel.print : TopLevel → String
  | .type decl => decl.print 0
  | .empty _ => ";"
  | .erroneous _ => "(ERROR)"

/-- The text of a file: its clauses, each group followed by an empty line, then its forms. -/
def CompilationUnit.print (unit : CompilationUnit) : String :=
  (unit.package.elim "" fun p =>
    Printer.each "\n" (p.annotations.print 0) ++ p.text ++ "\n\n") ++
    Printer.each "\n" (unit.imports.map ImportDecl.text) ++
    (if unit.imports.isEmpty then "" else "\n") ++
    (unit.module.elim "" fun m => m.print ++ "\n") ++
    Printer.each "\n" (unit.forms.map TopLevel.print)

end JavaSyntax
