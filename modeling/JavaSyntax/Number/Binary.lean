/-!
Binary floating-point values in exact arithmetic. A finite value is `mantissa * 2 ^ exponent`; a
format says how many bits the mantissa has and how far the exponent goes, and `Format.round` takes
a quotient of naturals to the nearest value of the format, a half to the even neighbour.
-/

namespace JavaSyntax

inductive FloatValue where
  | nan
  | infinite (negative : Bool)
  | finite (negative : Bool) (mantissa : Nat) (exponent : Int)
deriving DecidableEq

/-- A quotient of naturals; the denominator is not zero. -/
structure Ratio where
  num : Nat
  den : Nat
deriving DecidableEq

namespace Ratio

/-- The quotient times `2 ^ e`. -/
def scale (r : Ratio) (e : Int) : Ratio :=
  if 0 ≤ e then ⟨r.num * Nat.pow 2 e.toNat, r.den⟩ else ⟨r.num, r.den * Nat.pow 2 (-e).toNat⟩

/-- The greatest `e` with `2 ^ e` at most the quotient, which is not zero. -/
def log2 (r : Ratio) : Int :=
  let e : Int := r.num.log2 - r.den.log2
  let s := r.scale (-e)
  if s.den ≤ s.num then e else e - 1

/-- The nearest natural number, a half to the even one. -/
def roundToEven (r : Ratio) : Nat :=
  let q := r.num / r.den
  let rest := r.num % r.den
  if r.den < 2 * rest ∨ r.den = 2 * rest ∧ q % 2 = 1 then q + 1 else q

end Ratio

/-- The mantissa has `precision` bits, the exponent lies from `least` to `greatest`. -/
structure Format where
  precision : Nat
  least : Int
  greatest : Int

namespace Format

def single : Format := ⟨24, -149, 104⟩

def double : Format := ⟨53, -1074, 971⟩

/-- The value of the format nearest to a quotient; past the greatest one it is infinite. -/
def round (f : Format) (negative : Bool) (r : Ratio) : FloatValue :=
  if r.num = 0 then .finite negative 0 f.least
  else
    let e := max f.least (r.log2 - (f.precision - 1))
    let m := (r.scale (-e)).roundToEven
    let (m, e) := if m = Nat.pow 2 f.precision then (m / 2, e + 1) else (m, e)
    if f.greatest < e then .infinite negative else .finite negative m e

end Format

namespace FloatValue

def negate : FloatValue → FloatValue
  | .nan => .nan
  | .infinite s => .infinite !s
  | .finite s m e => .finite (!s) m e

def isInfinite : FloatValue → Bool
  | .infinite _ => true
  | _ => false

def isZero : FloatValue → Bool
  | .finite _ m _ => m == 0
  | _ => false

/-- The nearest value of another format. -/
def toFormat (f : Format) : FloatValue → FloatValue
  | .finite s m e => f.round s ((Ratio.mk m 1).scale e)
  | v => v

/-- Sixteen times a value that is not negative, plus a digit, rounded to a double. -/
def appendHex (v : FloatValue) (digit : Nat) : FloatValue :=
  match v with
  | .finite s m e =>
    let r := (Ratio.mk m 1).scale e
    Format.double.round s ⟨r.num * 16 + digit * r.den, r.den⟩
  | v => v

/-- Times `2 ^ e`, rounded to a double. The power is a double of its own, infinite from `2 ^ 1024`
on and zero from `2 ^ -1024` down; zero times the one, and infinity times the other, is no
number. -/
def timesPower (v : FloatValue) (e : Int) : FloatValue :=
  match v with
  | .nan => .nan
  | .infinite s => if e ≤ -1024 then .nan else .infinite s
  | .finite s m q =>
    if 1024 ≤ e then if m = 0 then .nan else .infinite s
    else if e ≤ -1024 then .finite s 0 Format.double.least
    else Format.double.round s ((Ratio.mk m 1).scale (q + e))

end FloatValue

end JavaSyntax
