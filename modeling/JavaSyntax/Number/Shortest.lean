import JavaSyntax.Number.Binary

/-!
The fewest decimal digits that still read back as the same double, and their layout as text.
-/

namespace JavaSyntax.Shortest

/-- The reals that round to a double, four times over and in units of a quarter of its last place:
from `low` to `high` around `value`, the ends among them if `closed`. -/
structure Interval where
  low : Nat
  value : Nat
  high : Nat
  exponent : Int
  closed : Bool

/-- Below a power of two the doubles are twice as dense. -/
def interval (mantissa : Nat) (exponent : Int) : Interval :=
  let low :=
    if mantissa = Nat.pow 2 52 ∧ Format.double.least < exponent then 4 * mantissa - 1
    else 4 * mantissa - 2
  ⟨low, 4 * mantissa, 4 * mantissa + 2, exponent - 2, mantissa % 2 = 0⟩

/-- Factors that bring multiples of `10 ^ k` and of `2 ^ e` to one unit. -/
def units (k e : Int) : Nat × Nat :=
  (Nat.pow 10 k.toNat * Nat.pow 2 (-e).toNat, Nat.pow 2 e.toNat * Nat.pow 10 (-k).toNat)

/-- Whether `n * 10 ^ k` rounds to the double. -/
def Interval.holds (i : Interval) (k : Int) (n : Nat) : Bool :=
  let (a, b) := units k i.exponent
  if i.closed then i.low * b ≤ n * a && n * a ≤ i.high * b
  else i.low * b < n * a && n * a < i.high * b

/-- The multiple of `10 ^ k` that rounds to the double, if one does: one of its two neighbours on
that grid, the nearer if both do, and the upper one if they are equally near. -/
def Interval.onGrid? (i : Interval) (k : Int) : Option Nat :=
  let (a, b) := units k i.exponent
  let n := i.value * b / a
  match i.holds k n, i.holds k (n + 1) with
  | true, true => if 2 * i.value * b < (2 * n + 1) * a then some n else some (n + 1)
  | true, false => some n
  | false, true => some (n + 1)
  | false, false => none

/-- Tries grids from the coarsest on, at most `fuel` of them. -/
def Interval.search (i : Interval) : Nat → Int → Nat × Int
  | 0, k => (i.value * (units k i.exponent).2 / (units k i.exponent).1, k)
  | fuel + 1, k =>
    match i.onGrid? k with
    | some n => (n, k)
    | none => i.search fuel (k - 1)

/-- Raises `k` while `10 ^ (k + 1)` is at most the value. -/
def Interval.leading (i : Interval) : Nat → Int → Int
  | 0, k => k
  | fuel + 1, k =>
    let (a, b) := units (k + 1) i.exponent
    if a ≤ i.value * b then i.leading fuel (k + 1) else k

/-- The exponent of the leading decimal digit. -/
def Interval.leadingExponent (i : Interval) : Int :=
  i.leading 4 (((i.value.log2 : Int) + i.exponent) * 30103 / 100000 - 2)

/-- Digits without trailing zeros, and the place of the decimal point: `0.digits * 10 ^ point`. -/
structure Digits where
  digits : List Char
  point : Int

def dropZeros (cs : List Char) : List Char :=
  (cs.reverse.dropWhile (· == '0')).reverse

/-- The fewest digits of a positive double. -/
def digits (mantissa : Nat) (exponent : Int) : Digits :=
  let i := interval mantissa exponent
  let (n, k) := i.search 20 (i.leadingExponent + 1)
  let all := Nat.toDigits 10 n
  ⟨dropZeros all, k + all.length⟩

/-- Where a value is written without an exponent: from `first` to `last` places of the point. -/
structure Style where
  first : Int
  last : Int

/-- All digits around the point, with a zero where a side would be empty. -/
def Digits.plain (d : Digits) : List Char :=
  if d.point ≤ 0 then ['0', '.'] ++ List.replicate (-d.point).toNat '0' ++ d.digits
  else
    let whole := d.digits.take d.point.toNat
    let fraction := d.digits.drop d.point.toNat
    whole ++ List.replicate (d.point.toNat - whole.length) '0' ++
      '.' :: (if fraction.isEmpty then ['0'] else fraction)

/-- One digit in front of the point, which is left out if nothing follows it, and the exponent. -/
def Digits.withExponent (d : Digits) : List Char :=
  let tail := d.digits.drop 1
  d.digits.take 1 ++ (if tail.isEmpty then [] else '.' :: tail) ++
    'e' :: (toString (d.point - 1)).toList

def Digits.layout (style : Style) (d : Digits) : List Char :=
  if style.first ≤ d.point ∧ d.point ≤ style.last then d.plain else d.withExponent

/-- The text of a double. -/
def text (style : Style) : FloatValue → String
  | .nan => "NaN"
  | .infinite negative => if negative then "-inf" else "inf"
  | .finite negative m e =>
    let magnitude := if m = 0 then "0.0" else String.ofList ((digits m e).layout style)
    if negative then "-" ++ magnitude else magnitude

end JavaSyntax.Shortest
