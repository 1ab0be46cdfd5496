import JavaSyntax.Token.Flaw
import JavaSyntax.Token.Kind

/-!
The extent of a number at the start of a text. Every function gives a length in characters, and the
longest reading of the text as a number wins.
-/

namespace JavaSyntax.Numeral

/-- How many characters from the start on are of a class. -/
def run (p : Char → Bool) (cs : List Char) : Nat :=
  (cs.takeWhile p).length

def isDecimal (c : Char) : Bool := c.isDigit || c == '_'

def isBinary (c : Char) : Bool := c == '0' || c == '1' || c == '_'

def isHexDigit (c : Char) : Bool :=
  c.isDigit || 'a' ≤ c && c ≤ 'f' || 'A' ≤ c && c ≤ 'F'

def isHex (c : Char) : Bool := isHexDigit c || c == '_'

/-- One if the text starts with one of these characters, else zero. -/
def oneOf (choices : List Char) : List Char → Nat
  | [] => 0
  | c :: _ => if choices.contains c then 1 else 0

def longSuffix : List Char → Nat := oneOf ['l', 'L']

def floatSuffix : List Char → Nat := oneOf ['f', 'F', 'd', 'D']

/-- An exponent: a mark, a sign or none, and at least one digit. Zero if there is none. -/
def exponent (marks : List Char) (cs : List Char) : Nat :=
  let mark := oneOf marks cs
  let sign := oneOf ['+', '-'] (cs.drop mark)
  let digits := cs.drop (mark + sign)
  if mark = 1 ∧ (digits.head?.any Char.isDigit) then mark + sign + run isDecimal digits else 0

/-- An exponent, if any, and the suffix of a floating-point number. -/
def floatTail (marks : List Char) (cs : List Char) : Nat :=
  let e := exponent marks cs
  e + floatSuffix (cs.drop e)

/-- A number in base ten, read from its first digit. -/
def decimal (cs : List Char) : Kind × Nat :=
  let n := run isDecimal cs
  let rest := cs.drop n
  if rest.head? = some '.' then
    let m := n + 1 + run isDecimal (rest.drop 1)
    (.floatingLit, m + floatTail ['e', 'E'] (cs.drop m))
  else if 0 < floatTail ['e', 'E'] rest then (.floatingLit, n + floatTail ['e', 'E'] rest)
  else (.integerLit, n + longSuffix rest)

/-- A number that starts with its point. -/
def fraction (cs : List Char) : Nat :=
  let n := 1 + run isDecimal (cs.drop 1)
  n + floatTail ['e', 'E'] (cs.drop n)

/-- What a number turned out to be: a token of its kind, or text that is none. -/
inductive Reading where
  | number (kind : Kind) (length : Nat)
  | broken (length : Nat)

/-- A number in base sixteen with a point. Without an exponent it is no number, and the mark of one
belongs to the broken text unless the input ends there. -/
def pointedHex (cs : List Char) (m : Nat) : Reading :=
  let rest := cs.drop m
  if 0 < exponent ['p', 'P'] rest then .number .floatingLit (m + floatTail ['p', 'P'] rest)
  else if 1 < rest.length then .broken (m + oneOf ['p', 'P'] rest)
  else .broken m

/-- A number after `0x`; with no digits at all only the zero is one. -/
def hexadecimal (cs : List Char) : Reading :=
  let n := 2 + run isHex (cs.drop 2)
  let rest := cs.drop n
  if rest.head? = some '.' then pointedHex cs (n + 1 + run isHex (rest.drop 1))
  else if 0 < exponent ['p', 'P'] rest then .number .floatingLit (n + floatTail ['p', 'P'] rest)
  else if 2 < n then .number .integerLit (n + longSuffix rest)
  else .number .integerLit 1

/-- A number after `0b`; with no digits at all only the zero is one. -/
def binary (cs : List Char) : Nat :=
  let n := 2 + run isBinary (cs.drop 2)
  if 2 < n then n + longSuffix (cs.drop n) else 1

/-- The number at the start of a text whose first character is a digit. -/
def read (cs : List Char) : Reading :=
  match cs with
  | '0' :: c :: _ =>
    if c = 'x' ∨ c = 'X' then hexadecimal cs
    else if c = 'b' ∨ c = 'B' then .number .integerLit (binary cs)
    else .number (decimal cs).1 (decimal cs).2
  | _ => .number (decimal cs).1 (decimal cs).2

end JavaSyntax.Numeral
