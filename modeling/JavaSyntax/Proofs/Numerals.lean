import JavaSyntax.Literal.Number
import JavaSyntax.Proofs.Cutting
import Mathlib.Algebra.Group.Int.Defs

/-!
Whole numbers written in base ten. The digits that a number is printed with are cut off as one word
and read back as that number; every literal that can be read lies in the range of its type.
-/

namespace JavaSyntax

/-- The digits of a number: all are digits, and zero leads only alone. -/
theorem toDigits_cons (n : Nat) :
    ∃ c ds, Nat.toDigits 10 n = c :: ds ∧ (∀ x ∈ c :: ds, x.isDigit = true) ∧
      (c = '0' → ds = []) := by
  have hall : ∀ x ∈ Nat.toDigits 10 n, x.isDigit = true := fun x hx =>
    Nat.isDigit_of_mem_toDigits (by decide) (by decide) hx
  have hlead : ∀ n, 0 < n → ∀ c ds, Nat.toDigits 10 n = c :: ds → c ≠ '0' := by
    intro n
    induction n using Nat.strongRecOn with
    | ind n ih =>
      intro hn c ds h
      rw [Nat.toDigits_eq_if (by decide)] at h
      split at h
      · cases h
        rw [Ne, Nat.digitChar_eq_zero]
        omega
      · obtain ⟨d, es, hd⟩ :=
          List.exists_cons_of_ne_nil (Nat.toDigits_ne_nil (n := n / 10) (b := 10))
        rw [hd, List.cons_append] at h
        obtain ⟨rfl, _⟩ := List.cons.inj h
        exact ih (n / 10) (by omega) (by omega) d es hd
  obtain ⟨c, ds, h⟩ := List.exists_cons_of_ne_nil (Nat.toDigits_ne_nil (n := n) (b := 10))
  refine ⟨c, ds, h, h ▸ hall, ?_⟩
  intro hc
  rcases Nat.eq_zero_or_pos n with rfl | hn
  · rw [Nat.toDigits_zero] at h
    exact (List.cons.inj h).2.symm
  · exact absurd hc (hlead n hn c ds h)

theorem starts_int {n : Nat} {rest : List Char}
    (hr : Follows (fun c => !isNumeric c && !(['l', 'L'].contains c)) rest) :
    Starts (.integerLit, n.repr) rest := by
  obtain ⟨c, ds, hdigits, hall, hzero⟩ := toDigits_cons n
  refine ⟨c, ds, Nat.toList_repr.trans hdigits, ?_⟩
  have hsuffix : Numeral.longSuffix rest = 0 :=
    oneOf_eq_zero (hr.mono fun x hx => (Bool.and_eq_true_iff.mp hx).2)
  rw [piece_digits (hall c List.mem_cons_self) (fun x hx => hall x (List.mem_cons_of_mem c hx))
    hzero (hr.mono fun x hx => (Bool.and_eq_true_iff.mp hx).1), hsuffix, Nat.toList_repr, hdigits,
    Nat.add_zero]

theorem starts_long {n : Nat} {rest : List Char} : Starts (.integerLit, n.repr ++ "L") rest := by
  obtain ⟨c, ds, hdigits, hall, hzero⟩ := toDigits_cons n
  have htext : (n.repr ++ "L").toList = c :: (ds ++ ['L']) := by
    rw [String.toList_append, Nat.toList_repr, hdigits]
    rfl
  refine ⟨c, ds ++ ['L'], htext, ?_⟩
  have hr : Follows (fun c => !isNumeric c) ('L' :: rest) := by
    intro x hx
    cases hx
    decide
  rw [List.append_assoc, List.singleton_append,
    piece_digits (hall c List.mem_cons_self) (fun x hx => hall x (List.mem_cons_of_mem c hx)) hzero
      hr, htext]
  simp [Numeral.longSuffix, Numeral.oneOf]

namespace Literal

theorem strayUnderscore?_eq_none {p : Char → Bool} {before : Option Char} {offset : Nat}
    {cs : List Char} (h : '_' ∉ cs) : strayUnderscore? p before offset cs = none := by
  induction cs generalizing before offset with
  | nil => rfl
  | cons c cs ih =>
    rw [List.mem_cons, not_or] at h
    unfold strayUnderscore?
    rw [if_neg (Ne.symm h.1)]
    exact ih h.2

theorem digitValue?_of_isDigit {c : Char} (h : c.isDigit = true) :
    digitValue? 10 c = some (c.toNat - '0'.toNat) := by
  have hrange : 48 ≤ c.toNat ∧ c.toNat ≤ 57 := by
    simpa [Char.isDigit, UInt32.le_iff_toNat_le] using h
  have hzero : '0'.toNat = 48 := rfl
  simp only [digitValue?, h, if_true, hzero]
  rw [if_pos (by omega)]

theorem ofDigits?_of_isDigit {cs : List Char} (h : ∀ c ∈ cs, c.isDigit = true) :
    ofDigits? 10 cs = some (Nat.ofDigitChars 10 cs 0) := by
  have hfold : ∀ (cs : List Char) (n : Nat), (∀ c ∈ cs, c.isDigit = true) →
      cs.foldlM (fun n c => (digitValue? 10 c).map (n * 10 + ·)) n =
        some (Nat.ofDigitChars 10 cs n) := by
    intro cs
    induction cs with
    | nil => exact fun n _ => by simp
    | cons c cs ih =>
      intro n h
      rw [List.foldlM_cons, digitValue?_of_isDigit (h c List.mem_cons_self)]
      simp only [Option.map_some, Option.bind_eq_bind, Option.bind_some]
      rw [ih _ fun x hx => h x (List.mem_cons_of_mem c hx), Nat.ofDigitChars_cons, Nat.mul_comm n]
  exact hfold cs 0 h

theorem not_mem_of_isDigit {c : Char} {cs : List Char} (h : ∀ x ∈ cs, x.isDigit = true)
    (hc : c.isDigit = false) : c ∉ cs := fun hmem => by simp [h c hmem] at hc

/-- Digits as a number is printed with are read in base ten, as that number. -/
theorem natural?_repr (n : Nat) :
    splitRadix n.repr.toList = (10, n.repr.toList) ∧ natural? 10 n.repr.toList = some n := by
  obtain ⟨c, ds, hdigits, hall, hzero⟩ := toDigits_cons n
  rw [Nat.toList_repr, hdigits]
  constructor
  · unfold splitRadix
    split <;> simp_all
  · have hplus : (c :: ds).head? ≠ some '+' := by
      simp only [List.head?_cons, ne_eq, Option.some.injEq]
      rintro rfl
      exact absurd (hall '+' List.mem_cons_self) (by decide)
    simp only [natural?, if_neg hplus, reduceCtorEq, if_false]
    rw [ofDigits?_of_isDigit hall, ← hdigits, Nat.ofDigitChars_ten_toDigits]

/-- The number of a width that a sign and decimal digits stand for. -/
def signed (negated : Bool) (n : Nat) : Int :=
  if negated then -n else n

theorem checkUnderscores_eq_ok {cs : List Char} (h : '_' ∉ cs) : checkUnderscores cs = .ok () := by
  simp only [checkUnderscores, strayUnderscore?_eq_none h]

theorem dropUnderscores_eq_self {cs : List Char} (h : '_' ∉ cs) : dropUnderscores cs = cs :=
  List.filter_eq_self.mpr fun c hc => by
    simp only [bne_iff_ne]
    rintro rfl
    exact h hc

theorem repr_digits (n : Nat) : ∀ c ∈ n.repr.toList, c.isDigit = true := by
  intro c hc
  rw [Nat.toList_repr] at hc
  exact Nat.isDigit_of_mem_toDigits (by decide) (by decide) hc

theorem integer_repr {n : Nat} {negated : Bool} (h : n ≤ limit 32 true negated) :
    integer n.repr negated = .ok (.int (signed negated n)) := by
  have hscore : '_' ∉ n.repr.toList := not_mem_of_isDigit (repr_digits n) (by decide)
  have hsplit : splitLong n.repr.toList = (n.repr.toList, false) := by
    unfold splitLong
    split
    · rename_i hlast
      exact absurd (repr_digits n _ (List.mem_of_getLast? hlast)) (by decide)
    · rename_i hlast
      exact absurd (repr_digits n _ (List.mem_of_getLast? hlast)) (by decide)
    · rfl
  obtain ⟨hradix, hnatural⟩ := natural?_repr n
  simp only [integer, checkUnderscores_eq_ok hscore, hsplit, dropUnderscores_eq_self hscore, hradix,
    hnatural]
  show (if limit 32 true negated < n then _ else _) = _
  rw [if_neg (by omega)]
  cases negated <;> rfl

theorem integer_repr_long {n : Nat} {negated : Bool} (h : n ≤ limit 64 true negated) :
    integer (n.repr ++ "L") negated = .ok (.long (signed negated n)) := by
  have hchars : (n.repr ++ "L").toList = n.repr.toList ++ ['L'] := String.toList_append
  have hscore : '_' ∉ n.repr.toList := not_mem_of_isDigit (repr_digits n) (by decide)
  have hscore' : '_' ∉ (n.repr ++ "L").toList := by
    rw [hchars, List.mem_append, not_or]
    exact ⟨hscore, by decide⟩
  have hsplit : splitLong (n.repr ++ "L").toList = (n.repr.toList, true) := by
    simp only [splitLong, hchars, List.getLast?_append, List.getLast?_singleton, Option.some_or,
      List.dropLast_concat]
  obtain ⟨hradix, hnatural⟩ := natural?_repr n
  simp only [integer, checkUnderscores_eq_ok hscore', hsplit, dropUnderscores_eq_self hscore,
    hradix, hnatural]
  show (if limit 64 true negated < n then _ else _) = _
  rw [if_neg (by omega)]
  cases negated <;> rfl

/-- The whole numbers of each type. -/
def InRange : Literal → Prop
  | .int v => -2 ^ 31 ≤ v ∧ v < 2 ^ 31
  | .long v => -2 ^ 63 ≤ v ∧ v < 2 ^ 63
  | _ => False

theorem signedValue_range (w : Nat) {n : Nat} {decimal negated : Bool}
    (h : n ≤ limit (w + 1) decimal negated) :
    -2 ^ w ≤ signedValue (w + 1) decimal negated n ∧
      signedValue (w + 1) decimal negated n < 2 ^ w := by
  have hpos : 0 < 2 ^ w := Nat.two_pow_pos w
  have hcast : ((2 ^ w : Nat) : Int) = 2 ^ w := Int.natCast_pow 2 w
  have hbmod (v : Int) :
      -2 ^ w ≤ v.bmod (2 ^ (w + 1)) ∧ v.bmod (2 ^ (w + 1)) < 2 ^ w := by
    have hlow := Int.le_bmod (x := v) (m := 2 ^ (w + 1)) (Nat.two_pow_pos _)
    have hhigh := Int.bmod_lt (x := v) (m := 2 ^ (w + 1)) (Nat.two_pow_pos _)
    rw [Nat.pow_succ] at hlow hhigh ⊢
    omega
  cases decimal with
  | false => cases negated <;> exact hbmod _
  | true =>
    cases negated with
    | false =>
      have hn : n ≤ 2 ^ w - 1 := h
      show -2 ^ w ≤ (n : Int) ∧ (n : Int) < 2 ^ w
      omega
    | true =>
      have hn : n ≤ 2 ^ w := h
      show -2 ^ w ≤ -(n : Int) ∧ -(n : Int) < 2 ^ w
      omega

/-- Whatever its notation, a literal that is read lies in the range of its type. -/
theorem integer_inRange {text : String} {negated : Bool} {value : Literal}
    (h : integer text negated = .ok value) : value.InRange := by
  unfold integer at h
  cases hcheck : checkUnderscores text.toList with
  | error error => simp [hcheck, bind, Except.bind] at h
  | ok _ =>
    simp only [hcheck, bind, Except.bind] at h
    split at h
    · cases h
    · cases hlong : (splitLong text.toList).2 with
      | false =>
        simp only [hlong, Bool.false_eq_true, if_false] at h
        split at h
        · cases h
        · rename_i hle
          cases h
          exact signedValue_range 31 (Nat.le_of_not_lt hle)
      | true =>
        simp only [hlong, if_true] at h
        split at h
        · cases h
        · rename_i hle
          cases h
          exact signedValue_range 63 (Nat.le_of_not_lt hle)

end Literal

end JavaSyntax
