/-!
Places in a source text. A location is told twice, by line and column and by byte offset; a span is
a pair of locations.
-/

namespace JavaSyntax

/-- A place in a text: line and column count from one, the offset counts bytes from zero. -/
structure Location where
  line : Nat
  column : Nat
  offset : Nat
deriving DecidableEq

namespace Location

/-- Locations are ordered by line, then column, then offset. -/
def before (a b : Location) : Bool :=
  a.line < b.line ||
    a.line == b.line && (a.column < b.column || a.column == b.column && a.offset < b.offset)

def earlier (a b : Location) : Location :=
  if b.before a then b else a

def later (a b : Location) : Location :=
  if a.before b then b else a

def display (a : Location) : String :=
  s!"{a.line}:{a.column}"

end Location

/-- The text from `start` up to `stop`. -/
structure Span where
  start : Location
  stop : Location
deriving DecidableEq

namespace Span

/-- The smallest span that covers both. -/
def join (a b : Span) : Span :=
  ⟨a.start.earlier b.start, a.stop.later b.stop⟩

def isEmpty (a : Span) : Bool :=
  a.stop.offset ≤ a.start.offset

/-- One place as `line:column`, a span inside a line as `line:column-column`, any other with both
ends in full. -/
def display (a : Span) : String :=
  if a.start.line = a.stop.line then
    if a.start.column = a.stop.column then a.start.display
    else s!"{a.start.display}-{a.stop.column}"
  else s!"{a.start.display}-{a.stop.display}"

end Span

end JavaSyntax
