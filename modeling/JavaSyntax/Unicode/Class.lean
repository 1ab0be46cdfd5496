import JavaSyntax.Unicode.Extender
import JavaSyntax.Unicode.Letter

/-!
The character classes that lexing and printing ask about. ASCII is decided first; the tables are
read for other characters only.
-/

namespace JavaSyntax.Unicode

def inRanges (ranges : List (Nat × Nat)) (c : Char) : Bool :=
  ranges.any fun r => r.1 ≤ c.toNat && c.toNat ≤ r.2

def isAscii (c : Char) : Bool :=
  c.toNat < 128

/-- Letters, letter numbers, `_` and `$`. -/
def isIdentifierStart (c : Char) : Bool :=
  if isAscii c then c.isAlpha || c == '_' || c == '$' else inRanges letterRanges c

/-- What starts an identifier, digits, combining marks and connectors. -/
def isIdentifierPart (c : Char) : Bool :=
  if isAscii c then c.isAlphanum || c == '_' || c == '$'
  else inRanges letterRanges c || inRanges extenderRanges c

/-- The White_Space property. -/
def isBlank (c : Char) : Bool :=
  inRanges [(0x9, 0xD), (0x20, 0x20), (0x85, 0x85), (0xA0, 0xA0), (0x1680, 0x1680),
    (0x2000, 0x200A), (0x2028, 0x2029), (0x202F, 0x202F), (0x205F, 0x205F), (0x3000, 0x3000)] c

/-- The general category Cc. -/
def isControl (c : Char) : Bool :=
  inRanges [(0x0, 0x1F), (0x7F, 0x9F)] c

def trimStart (cs : List Char) : List Char :=
  cs.dropWhile isBlank

def trimEnd (cs : List Char) : List Char :=
  (cs.reverse.dropWhile isBlank).reverse

end JavaSyntax.Unicode
