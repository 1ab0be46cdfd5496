import JavaSyntax.Source.Location

/-!
A source text with its lines. Offsets count UTF-8 bytes; `Source.locationAt` turns one into a line
and a column, and `Source.lineText` gives a line without its terminator.
-/

namespace JavaSyntax

/-- How many bytes the characters take in UTF-8. -/
def byteLength : List Char → Nat
  | [] => 0
  | c :: cs => c.utf8Size + byteLength cs

/-- What is left after the first `n` bytes, when a character ends there. -/
def dropBytes? : Nat → List Char → Option (List Char)
  | 0, cs => some cs
  | _ + 1, [] => none
  | n + 1, c :: cs => if c.utf8Size ≤ n + 1 then dropBytes? (n + 1 - c.utf8Size) cs else none

/-- The characters in the first `n` bytes, when a character ends there. -/
def takeBytes? : Nat → List Char → Option (List Char)
  | 0, _ => some []
  | _ + 1, [] => none
  | n + 1, c :: cs =>
    if c.utf8Size ≤ n + 1 then (takeBytes? (n + 1 - c.utf8Size) cs).map (c :: ·) else none

/-- The text under a span. An end past the text stops there; a span that starts past the text, is
reversed or cuts a character covers nothing. -/
def Span.textIn (span : Span) (text : String) : String :=
  let cs := text.toList
  let stop := min span.stop.offset (byteLength cs)
  if stop < span.start.offset then ""
  else ((dropBytes? span.start.offset cs).bind (takeBytes? (stop - span.start.offset))).elim ""
    String.ofList

/-- How a line ends. Only the last line of a text has no terminator. -/
inductive LineEnd where
  | lf
  | crlf
  | cr
  | none
deriving DecidableEq

def LineEnd.chars : LineEnd → List Char
  | .lf => ['\n']
  | .crlf => ['\r', '\n']
  | .cr => ['\r']
  | .none => []

structure Line where
  chars : List Char
  ending : LineEnd
deriving DecidableEq

namespace Line

/-- The line with its terminator. -/
def all (line : Line) : List Char :=
  line.chars ++ line.ending.chars

/-- The lines of a text, where `seen` holds the characters of the first one read so far, last
character first. -/
def splitFrom (seen : List Char) : List Char → List Line
  | [] => [⟨seen.reverse, .none⟩]
  | '\r' :: '\n' :: rest => ⟨seen.reverse, .crlf⟩ :: splitFrom [] rest
  | '\r' :: rest => ⟨seen.reverse, .cr⟩ :: splitFrom [] rest
  | '\n' :: rest => ⟨seen.reverse, .lf⟩ :: splitFrom [] rest
  | c :: rest => splitFrom (c :: seen) rest

/-- A line ends at a line feed, at a carriage return, or at the two together. -/
def split (text : List Char) : List Line :=
  splitFrom [] text

/-- Column of the place `d` bytes into the line; inside a character the bytes are counted. -/
def column (line : Line) (d : Nat) : Nat :=
  ((takeBytes? d line.all).map List.length).getD d + 1

end Line

/-- Walks the lines to the one that holds `offset`; the last line takes what lies past the text. -/
def locateFrom (number start offset : Nat) : List Line → Location
  | [] => ⟨number, 1, start⟩
  | [line] =>
    let d := min (offset - start) (byteLength line.all)
    ⟨number, line.column d, start + d⟩
  | line :: next :: rest =>
    if offset < start + byteLength line.all then ⟨number, line.column (offset - start), offset⟩
    else locateFrom (number + 1) (start + byteLength line.all) offset (next :: rest)

/-- A named text together with its lines. -/
structure Source where
  name : String
  text : String
  lines : List Line
  lines_eq : lines = Line.split text.toList

namespace Source

/-- The name of a text that came from no file. -/
def unnamed : String := "<input>"

def ofText (name text : String) : Source :=
  ⟨name, text, Line.split text.toList, rfl⟩

/-- Length in bytes. -/
def size (source : Source) : Nat :=
  source.text.utf8ByteSize

def lineCount (source : Source) : Nat :=
  source.lines.length

/-- Line and column of a byte offset; an offset past the end is the end. -/
def locationAt (source : Source) (offset : Nat) : Location :=
  locateFrom 1 0 offset source.lines

def spanOf (source : Source) (start stop : Nat) : Span :=
  ⟨source.locationAt start, source.locationAt stop⟩

/-- The line of that number, counted from one, without its terminator. -/
def lineText (source : Source) (number : Nat) : Option String :=
  match number with
  | 0 => none
  | i + 1 => source.lines[i]?.map fun line => String.ofList line.chars

end Source

end JavaSyntax
