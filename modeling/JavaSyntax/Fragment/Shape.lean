import JavaSyntax.Fragment.Leading
import JavaSyntax.Tree.Kind

/-!
The shapes that fragments must have. The grammar of a file takes any file; a caller who asks for one
declaration, an expression or a type is refused a text of another shape. A syntax error inside a
text of the right shape is no violation.
-/

namespace JavaSyntax

inductive Violation where
  | imports
  | module
  | package
  | semicolon
  | formCount (n : Nat)
  | notDeclaration (kind : String)
  | notExpression (found : Leading)
  | notTypeUse (found : Leading)
deriving DecidableEq

/-- The rule that was broken. -/
def Violation.rule : Violation → String
  | .imports => "no imports"
  | .module => "no module declaration"
  | .package => "no package declaration"
  | .semicolon => "no top-level `;`"
  | .formCount _ => "exactly one top-level form"
  | .notDeclaration _ => "class-like declaration"
  | .notExpression _ => "expression"
  | .notTypeUse _ => "type use"

def Violation.message : Violation → String
  | .imports => "Type declaration source code has imports"
  | .module => "Type declaration source code has a module declaration"
  | .package => "Type declaration source code has a package declaration"
  | .semicolon => "Type declaration source code contains a top-level `;`"
  | .formCount n => s!"Type declaration source code has {n} top-level forms, not 1"
  | .notDeclaration kind => s!"source code should be a type declaration but is {kind}"
  | .notExpression found => s!"source code should be an expression but is a {found.label}"
  | .notTypeUse found => s!"source code should be a type use but is a {found.label}"

/-- A text that was refused, and why. -/
structure Rejection where
  violation : Violation
  text : String
deriving DecidableEq

def Rejection.message (r : Rejection) : String :=
  s!"{r.violation.message}: {r.text}"

namespace Shape

/-- The one declaration of a file in which nothing else stands. Of several violations the first in
the order of the tests here counts. -/
def declaration (unit : CompilationUnit) : Except Violation (Tree .typeDecl) :=
  if !unit.imports.isEmpty then .error .imports
  else if unit.module.isSome then .error .module
  else if unit.package.isSome then .error .package
  else if unit.forms.any (fun | .empty _ => true | _ => false) then .error .semicolon
  else
    match unit.forms with
    | [.type decl] => .ok decl
    | [form] => .error (.notDeclaration form.kind)
    | forms => .error (.formCount forms.length)

def expression (text : String) : Except Violation Unit :=
  match Leading.ofText text with
  | some found => .error (.notExpression found)
  | none => .ok ()

def typeUse (text : String) : Except Violation Unit :=
  match Leading.ofText text with
  | some found => .error (.notTypeUse found)
  | none => .ok ()

end Shape

end JavaSyntax
