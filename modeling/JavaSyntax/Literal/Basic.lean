import JavaSyntax.Diagnostic.Code
import JavaSyntax.Number.Shortest
import JavaSyntax.Token.Flaw
import JavaSyntax.Unicode.Class

/-!
The values of literals, what can be wrong with their text, and how they are written.
-/

namespace JavaSyntax

/-- A float is kept as the double of the same value. -/
inductive Literal where
  | int (value : Int)
  | long (value : Int)
  | float (value : FloatValue)
  | double (value : FloatValue)
  | boolean (value : Bool)
  | char (value : Char)
  | string (value : String)
  | textBlock (value : String)
  | null
deriving DecidableEq

/-- Offsets count bytes from the start of the literal. -/
inductive LiteralError where
  | intTooLarge
  | fpTooLarge
  | fpTooSmall
  | malformedFp
  | illegalEscape (offset : Nat)
  | illegalUnderscore (offset : Nat)
  | unclosedChar
deriving DecidableEq

namespace LiteralError

def code : LiteralError → Code
  | .intTooLarge => .intNumberTooLarge
  | .fpTooLarge => .fpNumberTooLarge
  | .fpTooSmall => .fpNumberTooSmall
  | .malformedFp => .malformedFpLit
  | .illegalEscape _ => .illegalEscChar
  | .illegalUnderscore _ => .illegalUnderscore
  | .unclosedChar => .unclosedCharLit

def message : LiteralError → String
  | .intTooLarge => "integer number too large"
  | .fpTooLarge => "floating-point number too large"
  | .fpTooSmall => "floating-point number too small"
  | .malformedFp => "malformed floating-point literal"
  | .illegalEscape _ => "illegal escape character"
  | .illegalUnderscore _ => "illegal underscore"
  | .unclosedChar => "unclosed character literal"

/-- Where in the literal the culprit is, if it is one character. -/
def offset? : LiteralError → Option Nat
  | .illegalEscape offset | .illegalUnderscore offset => some offset
  | _ => none

end LiteralError

namespace Literal

/-- A character inside quotes. Control characters without an escape of their own are written by
code point. -/
def escaped (quote c : Char) : List Char :=
  if c = '\n' then ['\\', 'n']
  else if c = '\t' then ['\\', 't']
  else if c = '\r' then ['\\', 'r']
  else if c = '\x08' then ['\\', 'b']
  else if c = '\x0c' then ['\\', 'f']
  else if c = '\\' then ['\\', '\\']
  else if c = quote then ['\\', c]
  else if Unicode.isControl c then '\\' :: 'u' :: (Flaw.hexadecimal c.toNat).toList
  else [c]

def quoted (quote : Char) (cs : List Char) : String :=
  String.ofList (quote :: cs.flatMap (escaped quote) ++ [quote])

/-- Doubles are written without an exponent from `0.0001` to below `1e16`. -/
def style : Shortest.Style := ⟨-3, 16⟩

/-- The literal as it is printed; a text block becomes a string. -/
def text : Literal → String
  | .int v => toString v
  | .long v => toString v ++ "L"
  | .float v => Shortest.text style v ++ "f"
  | .double v => Shortest.text style v
  | .boolean b => if b then "true" else "false"
  | .char c => quoted '\'' [c]
  | .string s | .textBlock s => quoted '"' s.toList
  | .null => "null"

end Literal

end JavaSyntax
