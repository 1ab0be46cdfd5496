import JavaSyntax.Literal.Basic
import JavaSyntax.Number.Decimal
import JavaSyntax.Token.Numeral

/-!
The values of number literals. A minus in front of a literal is folded into it, since the least
value of a type is in range only together with its sign.
-/

namespace JavaSyntax.Literal

def isHexText : List Char → Bool
  | '0' :: 'x' :: _ | '0' :: 'X' :: _ => true
  | _ => false

/-- The offset of the first underscore whose run does not stand between two digits; `before` is the
last character that is no underscore. -/
def strayUnderscore? (isDigit : Char → Bool) (before : Option Char) (offset : Nat) :
    List Char → Option Nat
  | [] => none
  | c :: cs =>
    if c = '_' then
      if before.any isDigit && (cs.dropWhile (· == '_')).head?.any isDigit then
        strayUnderscore? isDigit before (offset + 1) cs
      else some offset
    else strayUnderscore? isDigit (some c) (offset + c.utf8Size) cs

/-- Fails if an underscore is anywhere but between two digits. -/
def checkUnderscores (cs : List Char) : Except LiteralError Unit :=
  let isDigit := if isHexText cs then Numeral.isHexDigit else Char.isDigit
  match strayUnderscore? isDigit none 0 cs with
  | some offset => .error (.illegalUnderscore offset)
  | none => .ok ()

def dropUnderscores (cs : List Char) : List Char :=
  cs.filter (· != '_')

/-- The worth of a digit in bases up to thirty-six. -/
def digitValue? (radix : Nat) (c : Char) : Option Nat :=
  let worth :=
    if c.isDigit then c.toNat - '0'.toNat
    else if c.isLower then c.toNat - 'a'.toNat + 10
    else if c.isUpper then c.toNat - 'A'.toNat + 10
    else radix
  if worth < radix then some worth else none

/-- The number that digits denote; `none` if one is no digit of the base. -/
def ofDigits? (radix : Nat) (cs : List Char) : Option Nat :=
  cs.foldlM (fun n c => (digitValue? radix c).map (n * radix + ·)) 0

/-- A natural number in some base, a plus in front of it allowed. -/
def natural? (radix : Nat) (cs : List Char) : Option Nat :=
  let digits := if cs.head? = some '+' then cs.drop 1 else cs
  if digits = [] then none else ofDigits? radix digits

/-- The base of a numeral without underscores and suffix, and its digits. -/
def splitRadix : List Char → Nat × List Char
  | '0' :: 'x' :: cs | '0' :: 'X' :: cs => (16, cs)
  | '0' :: 'b' :: cs | '0' :: 'B' :: cs => (2, cs)
  | '0' :: c :: cs => (8, c :: cs)
  | cs => (10, cs)

/-- The greatest number a numeral may denote: a decimal one stands for a signed number of that
width, any other for a bit pattern. -/
def limit (width : Nat) (decimal negated : Bool) : Nat :=
  if !decimal then Nat.pow 2 width - 1
  else if negated then Nat.pow 2 (width - 1)
  else Nat.pow 2 (width - 1) - 1

/-- The signed number of a width that a natural number denotes. -/
def signedValue (width : Nat) (decimal negated : Bool) (n : Nat) : Int :=
  let v : Int := if decimal then n else Int.bmod n (Nat.pow 2 width)
  if !negated then v else if decimal then -v else Int.bmod (-v) (Nat.pow 2 width)

/-- Splits off the suffix of a long literal. -/
def splitLong (cs : List Char) : List Char × Bool :=
  match cs.getLast? with
  | some 'l' | some 'L' => (cs.dropLast, true)
  | _ => (cs, false)

/-- The value of an integer literal. -/
def integer (text : String) (negated : Bool) : Except LiteralError Literal := do
  let cs := text.toList
  checkUnderscores cs
  let (body, isLong) := splitLong cs
  let (radix, digits) := splitRadix (dropUnderscores body)
  let width := if isLong then 64 else 32
  let decimal := radix == 10
  match natural? radix digits with
  | none => .error .intTooLarge
  | some n =>
    if limit width decimal negated < n then .error .intTooLarge
    else
      let v := signedValue width decimal negated n
      .ok (if isLong then .long v else .int v)

/-- Splits off the suffix of a floating-point literal; true for a float. The `d` of a hexadecimal
numeral without exponent is a digit. -/
def splitFloat (cs : List Char) : List Char × Bool :=
  match cs.getLast? with
  | some 'f' | some 'F' => (cs.dropLast, true)
  | some 'd' | some 'D' =>
    if !isHexText cs || cs.any fun c => c == 'p' || c == 'P' then (cs.dropLast, false)
    else (cs, false)
  | _ => (cs, false)

/-- Whether a digit of the mantissa is not zero. -/
def hasMantissa (cs : List Char) : Bool :=
  let mark := if isHexText cs then 'p' else 'e'
  let body := if isHexText cs then cs.drop 2 else cs
  (body.takeWhile fun c => c.toLower != mark).any fun c => Numeral.isHexDigit c && c != '0'

/-- The power of two that scales the digits of a hexadecimal numeral, each of those behind the point
being worth four bits. It is a signed number of 32 bits, and the subtraction wraps around. -/
def hexScale (exponent : Int) (fractionDigits : Nat) : Int :=
  Int.bmod (exponent - 4 * fractionDigits) (Nat.pow 2 32)

example : hexScale (-2147483648) 1 = 2147483644 := by decide

/-- The value of a hexadecimal numeral after `0x`: the digits are gathered as a double, then scaled
by the exponent. -/
def hexFloat? (cs : List Char) : Option FloatValue := do
  let (mantissa, power) := Decimal.cutAt (fun c => c == 'p' || c == 'P') cs
  let exponent ← Decimal.integer? (← power)
  let (whole, fraction) := Decimal.cutAt (· == '.') mantissa
  let fraction := fraction.getD []
  if exponent < -2147483648 || 2147483648 ≤ exponent || (whole ++ fraction).isEmpty then none
  let digits ← (whole ++ fraction).mapM (digitValue? 16)
  let value := digits.foldl FloatValue.appendHex (.finite false 0 Format.double.least)
  return value.timesPower (hexScale exponent fraction.length)

/-- The value of a numeral without underscores and suffix in a format; a hexadecimal one is a double
first. -/
def readFloat? (f : Format) (cs : List Char) : Option FloatValue :=
  if isHexText cs then (hexFloat? (cs.drop 2)).map (·.toFormat f) else Decimal.read? f cs

/-- The value of a floating-point literal. -/
def floating (text : String) (negated : Bool) : Except LiteralError Literal := do
  checkUnderscores text.toList
  let (body, isFloat) := splitFloat (dropUnderscores text.toList)
  match readFloat? (if isFloat then .single else .double) body with
  | none => .error .malformedFp
  | some v =>
    if v.isInfinite then .error .fpTooLarge
    else if v.isZero && hasMantissa body then .error .fpTooSmall
    else
      let v := v.toFormat .double
      let v := if negated then v.negate else v
      .ok (if isFloat then .float v else .double v)

end JavaSyntax.Literal
