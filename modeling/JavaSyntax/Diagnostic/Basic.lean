import JavaSyntax.Diagnostic.Code
import JavaSyntax.Source.Text

/-!
Diagnostics and the lists that hold them, in the order in which they arose.
-/

namespace JavaSyntax

/-- One problem at one place of a named source. -/
structure Diagnostic where
  severity : Severity
  code : Code
  message : String
  span : Span
  source : String
deriving DecidableEq

namespace Diagnostic

def isError (d : Diagnostic) : Bool :=
  d.severity == .error

def line (d : Diagnostic) : Nat :=
  d.span.start.line

def column (d : Diagnostic) : Nat :=
  d.span.start.column

/-- The problem on one line: `name:line:column: severity: message`. -/
def display (d : Diagnostic) : String :=
  s!"{d.source}:{d.line}:{d.column}: {d.severity.display}: {d.message}"

/-- The problem without its source: `message at span`. -/
def brief (d : Diagnostic) : String :=
  s!"{d.message} at {d.span.display}"

/-- Blanks up to a column; a tab stays a tab, so that the caret lines up in a terminal. -/
def indentTo (column : Nat) (text : String) : String :=
  String.ofList ((text.toList.take (column - 1)).map fun c => if c = '\t' then '\t' else ' ')

/-- A header, the offending line and a caret under the column. A line that the source does not have
leaves the header alone. -/
def render (d : Diagnostic) (source : Source) : String :=
  let header := s!"{d.source}:{d.line}: {d.severity.display}: {d.message}"
  match source.lineText d.line with
  | none => header
  | some text => header ++ "\n" ++ text ++ "\n" ++ indentTo d.column text ++ "^"

end Diagnostic

/-- The diagnostics recorded so far. -/
structure Collector where
  held : List Diagnostic

namespace Collector

def empty : Collector := ⟨[]⟩

def record (c : Collector) (d : Diagnostic) : Collector :=
  ⟨c.held ++ [d]⟩

def recordAll (c : Collector) (ds : List Diagnostic) : Collector :=
  ⟨c.held ++ ds⟩

/-- Hands out all that was recorded and starts anew. -/
def drain (c : Collector) : List Diagnostic × Collector :=
  (c.held, empty)

def hasError (c : Collector) : Bool :=
  c.held.any Diagnostic.isError

def errorCount (c : Collector) : Nat :=
  c.held.countP Diagnostic.isError

end Collector

end JavaSyntax
