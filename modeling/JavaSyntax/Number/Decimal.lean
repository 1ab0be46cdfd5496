import JavaSyntax.Number.Binary

/-!
Reading a floating-point value from decimal text: a sign or none, digits with or without a point, an
exponent or none; or one of the words for what is no number.
-/

namespace JavaSyntax.Decimal

/-- The number that decimal digits denote, each worth ten times the next. -/
def ofDigits (cs : List Char) : Nat :=
  cs.foldl (fun n c => n * 10 + (c.toNat - '0'.toNat)) 0

/-- A text that is all digits and not empty. -/
def digits? (cs : List Char) : Option Nat :=
  if cs ≠ [] ∧ cs.all Char.isDigit then some (ofDigits cs) else none

/-- Splits off a sign; true for a minus. -/
def splitSign : List Char → Bool × List Char
  | '-' :: cs => (true, cs)
  | '+' :: cs => (false, cs)
  | cs => (false, cs)

/-- A whole number with a sign or none. -/
def integer? (cs : List Char) : Option Int :=
  let (negative, rest) := splitSign cs
  (digits? rest).map fun n => if negative then -(n : Int) else n

/-- A number without its sign: `digits * 10 ^ exponent`. -/
structure Scientific where
  digits : Nat
  exponent : Int

/-- The text in front of the first character of a class, and what comes after that character. -/
def cutAt (p : Char → Bool) (cs : List Char) : List Char × Option (List Char) :=
  let head := cs.takeWhile fun c => !p c
  (head, (cs.drop head.length).tail?)

def scientific? (cs : List Char) : Option Scientific := do
  let (mantissa, power) := cutAt (fun c => c == 'e' || c == 'E') cs
  let (whole, fraction) := cutAt (· == '.') mantissa
  let fraction := fraction.getD []
  let digits ← digits? (whole ++ fraction)
  let exponent ← match power with
    | none => some 0
    | some p => integer? p
  return ⟨digits, exponent - fraction.length⟩

/-- The nearest value of a format. The number of digits tells a value far out of range before the
power of ten is taken. -/
def Scientific.round (f : Format) (negative : Bool) (s : Scientific) : FloatValue :=
  let magnitude : Int := (Nat.toDigits 10 s.digits).length + s.exponent
  if s.digits = 0 ∨ magnitude < -400 then f.round negative ⟨0, 1⟩
  else if 400 < magnitude then .infinite negative
  else if 0 ≤ s.exponent then f.round negative ⟨s.digits * Nat.pow 10 s.exponent.toNat, 1⟩
  else f.round negative ⟨s.digits, Nat.pow 10 (-s.exponent).toNat⟩

/-- The value that a text denotes in a format. -/
def read? (f : Format) (cs : List Char) : Option FloatValue :=
  let (negative, rest) := splitSign cs
  match scientific? rest with
  | some s => some (s.round f negative)
  | none =>
    let name := String.ofList (rest.map Char.toLower)
    if name = "nan" then some .nan
    else if name = "inf" ∨ name = "infinity" then some (.infinite negative)
    else none

end JavaSyntax.Decimal
