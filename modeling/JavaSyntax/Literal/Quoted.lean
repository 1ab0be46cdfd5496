import JavaSyntax.Literal.Number

/-!
The values of character, string and text-block literals.
-/

namespace JavaSyntax.Literal

/-- Escapes that stand for one character each. -/
def simpleEscape? : Char → Option Char
  | 'b' => some '\x08'
  | 't' => some '\t'
  | 'n' => some '\n'
  | 'f' => some '\x0c'
  | 'r' => some '\r'
  | 's' => some ' '
  | '"' => some '"'
  | '\'' => some '\''
  | '\\' => some '\\'
  | _ => none

def isOctal (c : Char) : Bool := '0' ≤ c && c ≤ '7'

/-- How many octal digits an escape takes: three up to `\377`, two above. -/
def octalLength (cs : List Char) : Nat :=
  let most := if cs.head?.any fun c => c ≤ '3' then 3 else 2
  ((cs.take most).takeWhile isOctal).length

/-- The character of a code point; a surrogate is replaced. -/
def ofCodePoint (n : Nat) : Char :=
  if n.isValidChar then Char.ofNat n else '\uFFFD'

/-- The escape after a backslash: what it stands for and how many characters it takes. Inside a text
block a line end may be escaped, and stands for nothing. -/
def escape? (inBlock : Bool) (cs : List Char) : Option (List Char × Nat) :=
  match cs with
  | [] => none
  | e :: rest =>
    match simpleEscape? e with
    | some c => some ([c], 1)
    | none =>
      if e = '\n' then if inBlock then some ([], 1) else none
      else if isOctal e then
        let n := octalLength cs
        (ofDigits? 8 (cs.take n)).map fun code => ([ofCodePoint code], n)
      else if e = 'u' then
        let n := 1 + Numeral.run (· == 'u') rest
        let digits := (cs.drop n).take 4
        if digits.length < 4 then none
        else (ofDigits? 16 digits).map fun code => ([ofCodePoint code], n + 4)
      else none

/-- Resolves escapes from a byte offset on; `skip` characters belong to an escape read before. The
error is the offset of a backslash that starts no escape. -/
def unescapeFrom (inBlock : Bool) : Nat → Nat → List Char → Except Nat (List Char)
  | _, _, [] => .ok []
  | skip + 1, offset, c :: cs => unescapeFrom inBlock skip (offset + c.utf8Size) cs
  | 0, offset, c :: cs =>
    if c = '\\' then
      match escape? inBlock cs with
      | none => .error offset
      | some (out, n) => (unescapeFrom inBlock n (offset + 1) cs).map (out ++ ·)
    else (unescapeFrom inBlock 0 (offset + c.utf8Size) cs).map (c :: ·)

def unescape (inBlock : Bool) (text : String) : Except Nat String :=
  (unescapeFrom inBlock 0 0 text.toList).map String.ofList

/-- The text between two delimiters, if both are there. -/
def between? (delimiter cs : List Char) : Option (List Char) :=
  if delimiter.isPrefixOf cs then
    let rest := cs.drop delimiter.length
    if delimiter.isSuffixOf rest then some (rest.take (rest.length - delimiter.length)) else none
  else none

/-- Resolves the escapes between two quotes; a text without them is taken whole. -/
def body (quote : Char) (text : String) : Except LiteralError (List Char) :=
  let cs := text.toList
  match unescapeFrom false 0 0 ((between? [quote] cs).getD cs) with
  | .ok out => .ok out
  | .error offset => .error (.illegalEscape (offset + 1))

def stringValue (text : String) : Except LiteralError String :=
  (body '"' text).map String.ofList

def charValue (text : String) : Except LiteralError Char := do
  match ← body '\'' text with
  | [c] => .ok c
  | _ => .error .unclosedChar

/-- All line ends as line feeds. -/
def normalizeNewlines : List Char → List Char
  | [] => []
  | '\r' :: '\n' :: cs => '\n' :: normalizeNewlines cs
  | '\r' :: cs => '\n' :: normalizeNewlines cs
  | c :: cs => c :: normalizeNewlines cs

def isBlankLine (line : List Char) : Bool :=
  line.all Unicode.isBlank

/-- The width of the blanks at the start of a line. -/
def indentation (line : List Char) : Nat :=
  Numeral.run Unicode.isBlank line

/-- The blanks that all lines share. Blank lines do not count, except for the last one, which holds
the closing delimiter. -/
def sharedIndentation : List (List Char) → Nat
  | [] => 0
  | [last] => indentation last
  | line :: next :: rest =>
    if isBlankLine line then sharedIndentation (next :: rest)
    else min (indentation line) (sharedIndentation (next :: rest))

/-- A line of a text block without the shared blanks and the blanks at its end. -/
def stripLine (indent : Nat) (line : List Char) : List Char :=
  if isBlankLine line then [] else Unicode.trimEnd (line.drop indent)

/-- The lines of a text block below its opening delimiter. -/
def blockLines (text : String) : List (List Char) :=
  let inner := normalizeNewlines ((between? ['"', '"', '"'] text.toList).getD [])
  ((inner.dropWhile (· != '\n')).drop 1).splitOn '\n'

/-- The value of a text block. A bad escape is told at its start, since the lines have moved. -/
def textBlockValue (text : String) : Except LiteralError String :=
  let lines := blockLines text
  let stripped := lines.map (stripLine (sharedIndentation lines))
  match unescapeFrom true 0 0 (['\n'].intercalate stripped) with
  | .ok out => .ok (String.ofList out)
  | .error _ => .error (.illegalEscape 0)

end JavaSyntax.Literal
