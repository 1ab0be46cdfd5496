import JavaSyntax.Token.Lexer

/-!
The patterns of the lexer, and what it is to take the longest match. A scanner finds the pattern for
the start of a text; what a literal or a comment goes on with behind its opening delimiter is then
read by hand.
-/

namespace JavaSyntax.Lexer

/-- A pattern of characters: a fixed text, one or any number of characters of a class, and patterns
made of these. -/
inductive Pattern where
  | text (chars : List Char)
  | one (p : Char → Bool)
  | many (p : Char → Bool)
  | optional (q : Pattern)
  | seq (q r : Pattern)

namespace Pattern

def Matches : Pattern → List Char → Prop
  | .text chars, cs => cs = chars
  | .one p, cs => ∃ c, cs = [c] ∧ p c = true
  | .many p, cs => ∀ c ∈ cs, p c = true
  | .optional q, cs => cs = [] ∨ q.Matches cs
  | .seq q r, cs => ∃ front back, cs = front ++ back ∧ q.Matches front ∧ r.Matches back

def oneOf (choices : List Char) : Pattern :=
  .one choices.contains

/-- A digit, and then digits and underscores. -/
def digits : Pattern :=
  .seq (.one Char.isDigit) (.many Numeral.isDecimal)

def longSuffix : Pattern :=
  .optional (oneOf ['l', 'L'])

def floatSuffix : Pattern :=
  .optional (oneOf ['f', 'F', 'd', 'D'])

def exponent (marks : List Char) : Pattern :=
  .seq (oneOf marks) (.seq (.optional (oneOf ['+', '-'])) digits)

def floatTail : Pattern :=
  .seq (.optional (exponent ['e', 'E'])) floatSuffix

/-- A number after a zero and a mark of its base. -/
def based (marks : List Char) (rest : Pattern) : Pattern :=
  .seq (.text ['0']) (.seq (oneOf marks) rest)

end Pattern

/-- What a scanner may find. -/
inductive Matcher where
  | spelled (kind : Kind)
  | string
  | textBlock
  | character
  | hexInteger
  | binaryInteger
  | decimalInteger
  | pointed
  | fraction
  | scaled
  | suffixed
  | hexFloat
  | identifier
  | blanks
  | lineComment
  | blockComment
  | docComment
deriving DecidableEq

namespace Matcher

open Pattern (digits longSuffix floatSuffix floatTail)

def pattern : Matcher → Pattern
  | spelled kind => .text kind.spelling.toList
  | string => .text ['"']
  | textBlock => .text ['"', '"', '"']
  | character => .text ['\'']
  | hexInteger =>
    .based ['x', 'X'] (.seq (.one Numeral.isHex) (.seq (.many Numeral.isHex) longSuffix))
  | binaryInteger =>
    .based ['b', 'B'] (.seq (.one Numeral.isBinary) (.seq (.many Numeral.isBinary) longSuffix))
  | decimalInteger => .seq digits longSuffix
  | pointed => .seq digits (.seq (.text ['.']) (.seq (.many Numeral.isDecimal) floatTail))
  | fraction => .seq (.text ['.']) (.seq digits floatTail)
  | scaled => .seq digits (.seq (.exponent ['e', 'E']) floatSuffix)
  | suffixed => .seq digits (.oneOf ['f', 'F', 'd', 'D'])
  | hexFloat =>
    .based ['x', 'X'] (.seq (.many Numeral.isHex) (.seq (.optional (.text ['.']))
      (.seq (.many Numeral.isHex) (.seq (.exponent ['p', 'P']) floatSuffix))))
  | identifier => .seq (.one Unicode.isIdentifierStart) (.many Unicode.isIdentifierPart)
  | blanks => .seq (.one isSkipped) (.many isSkipped)
  | lineComment => .seq (.text ['/', '/']) (.many fun c => !Enclosed.isNewline c)
  | blockComment => .text ['/', '*']
  | docComment => .text ['/', '*', '*']

/-- The piece at the start of the text, where so many characters of it matched. -/
def read (m : Matcher) (cs : List Char) (n : Nat) : Piece × Nat :=
  match m with
  | spelled kind => (.token kind, n)
  | string => Lexer.string (cs.drop n)
  | textBlock => Lexer.textBlock (cs.drop n)
  | character => Lexer.character (cs.drop n)
  | hexInteger | binaryInteger | decimalInteger => (.token .integerLit, n)
  | pointed | fraction | scaled | suffixed | hexFloat => (.token .floatingLit, n)
  | identifier => (.token .identifier, n)
  | blanks => (.blank, n)
  | lineComment => (.comment, n)
  | blockComment | docComment => comment (cs.drop 2)

end Matcher

/-- The patterns in their order. -/
def matchers : List Matcher :=
  (Kind.keywords ++ Kind.operators).map .spelled ++
    [.string, .textBlock, .character, .hexInteger, .binaryInteger, .decimalInteger, .pointed,
      .fraction, .scaled, .suffixed, .hexFloat, .identifier, .blanks, .lineComment, .blockComment,
      .docComment]

/-- A match at the start of a text that none is longer than; of those as long it is listed first. -/
structure Best (cs : List Char) (m : Matcher) (n : Nat) : Prop where
  pos : 0 < n
  le : n ≤ cs.length
  matched : m.pattern.Matches (cs.take n)
  longest : ∀ l ∈ matchers, ∀ k ≤ cs.length, l.pattern.Matches (cs.take k) → k ≤ n
  first : ∃ before after, matchers = before ++ m :: after ∧
    ∀ l ∈ before, ¬l.pattern.Matches (cs.take n)

/-- What finds the pattern for the start of a text, and the number of characters matched. -/
abbrev Scanner : Type := List Char → Option (Matcher × Nat)

namespace Scanner

/-- The scanner does what is asked of it: it finds the best match, where there is a match. -/
def TakesLongest (scan : Scanner) : Prop :=
  ∀ cs m n, scan cs = some (m, n) ↔ Best cs m n

/-- The pieces that a scanner leads to. A character that no match starts with is illegal. -/
def cut (scan : Scanner) : Cutter := fun c cs =>
  match scan (c :: cs) with
  | some (m, n) => m.read (c :: cs) n
  | none => (.flaw .illegalChar, 1)

end Scanner

end JavaSyntax.Lexer
