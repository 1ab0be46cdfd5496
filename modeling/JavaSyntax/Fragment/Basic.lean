import JavaSyntax.Fragment.Shape
import JavaSyntax.Parse.Job

/-!
Parsing fragments: one operation for each kind of text. Each runs a job of its own, so a call leaves
nothing behind, and a text in the wrong shape is refused rather than diagnosed.
-/

namespace JavaSyntax

inductive FragmentKind where
  | compilationUnit
  | typeDeclaration
  | expression
  | typeUse
  | method
deriving DecidableEq

def FragmentKind.display : FragmentKind → String
  | .compilationUnit => "compilation unit"
  | .typeDeclaration => "type declaration"
  | .expression => "expression"
  | .typeUse => "type use"
  | .method => "method"

/-- Why a file could not be read. -/
inductive ReadError where
  | notFound
  | isDirectory
  | notText
deriving DecidableEq

def ReadError.message : ReadError → String
  | .notFound => "No such file or directory (os error 2)"
  | .isDirectory => "Is a directory (os error 21)"
  | .notText => "stream did not contain valid UTF-8"

/-- Why there is no tree. -/
inductive Failure where
  | unreadable (path : String) (cause : ReadError)
  | rejected (rejection : Rejection)
  | notImplemented (kind : FragmentKind)
deriving DecidableEq

def Failure.message : Failure → String
  | .unreadable path cause => s!"cannot read {path}: {cause.message}"
  | .rejected rejection => rejection.message
  | .notImplemented kind => s!"parsing a {kind.display} fragment is not implemented"

/-- A tree, where its tokens stand, and what parsing it reported. -/
structure Parsed (α : Type) where
  tree : α
  layout : Layout
  diagnostics : List Diagnostic

namespace Parsed

def source {α : Type} (p : Parsed α) : Source :=
  p.layout.source

def hasError {α : Type} (p : Parsed α) : Bool :=
  p.diagnostics.any Diagnostic.isError

def errorCount {α : Type} (p : Parsed α) : Nat :=
  p.diagnostics.countP Diagnostic.isError

def warningCount {α : Type} (p : Parsed α) : Nat :=
  p.diagnostics.countP fun d => d.severity == .warning

/-- All diagnostics as a report. -/
def rendered {α : Type} (p : Parsed α) : String :=
  "\n".intercalate (p.diagnostics.map fun d => d.render p.source)

end Parsed

namespace Fragment

/-- Runs one entry point on one source. -/
def parse {α : Type} (settings : Settings) (source : Source) (entry : Session → α × Session) :
    Parsed α :=
  let job := Job.create settings source
  let (tree, job) := job.parse entry
  ⟨tree, job.layout, job.drain.1⟩

def unitOf (settings : Settings) (source : Source) : Parsed CompilationUnit :=
  parse settings source Session.unit

def unit (settings : Settings) (text : String) : Parsed CompilationUnit :=
  unitOf settings (.ofText Source.unnamed text)

/-- A file, given what reading it gave. -/
def file (settings : Settings) (path : String) (content : Except ReadError String) :
    Except Failure (Parsed CompilationUnit) :=
  match content with
  | .ok text => .ok (unitOf settings (.ofText path text))
  | .error cause => .error (.unreadable path cause)

/-- Refuses a text that breaks a rule. -/
def insist {α : Type} (text : String) : Except Violation α → Except Failure α
  | .ok value => .ok value
  | .error violation => .error (.rejected ⟨violation, text⟩)

/-- A text that holds one type declaration and nothing else. -/
def declaration (settings : Settings) (text : String) :
    Except Failure (Parsed (Tree .typeDecl)) := do
  let parsed := unit settings text
  let decl ← insist text (Shape.declaration parsed.tree)
  return ⟨decl, parsed.layout, parsed.diagnostics⟩

def expression (settings : Settings) (text : String) : Except Failure (Parsed (Tree .expr)) := do
  insist text (Shape.expression text)
  return parse settings (.ofText Source.unnamed text) Session.expression

/-- A type as a declaration has it, such as `Map<String, List<int[]>>`. -/
def typeUse (settings : Settings) (text : String) : Except Failure (Parsed (Tree .expr)) := do
  insist text (Shape.typeUse text)
  return parse settings (.ofText Source.unnamed text) Session.typeUse

/-- Methods have no entry point of their own. -/
def method (_settings : Settings) (_text : String) : Except Failure (Parsed (Tree .member)) :=
  .error (.notImplemented .method)

end Fragment

end JavaSyntax
