import JavaSyntax.Proofs.Underscores
import JavaSyntax.Proofs.Numerals
import Mathlib.Data.Nat.Digits.Defs

/-!
The values of whole numbers. What a number denotes is told from its parts, its digits in the radix
that its mark or a leading zero gives, and a literal is read exactly if that fits into its type.
-/

namespace JavaSyntax.Numeral

/-- The worth of a digit, a letter in either case. -/
def worth (c : Char) : Nat :=
  "0123456789abcdef".toList.idxOf c.toLower

namespace Whole

variable (w : Whole)

/-- The figures without the underscores. -/
def digits : List Char :=
  w.figures.filter (· != '_')

/-- The bits of the type that the suffix chooses. -/
def width : Nat :=
  if w.suffix = [] then 32 else 64

/-- Without a mark, a leading zero makes a longer number octal. -/
def radix : Nat :=
  match w.base with
  | .decimal => if w.digits.head? = some '0' ∧ 1 < w.digits.length then 8 else 10
  | .hexadecimal => 16
  | .binary => 2

def Valid : Prop :=
  ∀ c ∈ w.digits, worth c < w.radix

instance : Decidable w.Valid :=
  List.decidableBAll (fun c => worth c < w.radix) w.digits

/-- The number that the digits denote, the last of them being the least. -/
def number : Nat :=
  Nat.ofDigits w.radix (w.digits.map worth).reverse

/-- The greatest number that fits: a decimal one is a magnitude, any other a bit pattern. -/
def greatest (negated : Bool) : Nat :=
  if w.radix = 10 then
    if negated then 2 ^ (w.width - 1) else 2 ^ (w.width - 1) - 1
  else 2 ^ w.width - 1

/-- The bit pattern of a number that is not decimal. -/
def word : BitVec w.width :=
  BitVec.ofNat w.width w.number

/-- The value with a sign folded in. -/
def value (negated : Bool) : Int :=
  if w.radix = 10 then
    if negated then -(w.number : Int) else w.number
  else
    if negated then (-w.word).toInt else w.word.toInt

def literal (negated : Bool) : Literal :=
  if w.width = 64 then .long (w.value negated) else .int (w.value negated)

end Whole

section Digits

variable {base : Base} {cs : List Char} {c : Char} {radix : Nat}

theorem digitValue?_eq_some_iff {d : Nat} (h : isHexDigit c = true) :
    Literal.digitValue? radix c = some d ↔ worth c < radix ∧ d = worth c := by
  let agrees (c : Char) : Prop := isHexDigit c = true →
    (if c.isDigit then c.toNat - '0'.toNat
      else if c.isLower then c.toNat - 'a'.toNat + 10
      else c.toNat - 'A'.toNat + 10) = worth c ∧ (c.isDigit || c.isLower || c.isUpper) = true
  have hagrees : ∀ n : Fin 128, agrees (Char.ofNat n) := by decide
  obtain ⟨hvalue, hclass⟩ := of_ascii (q := agrees) hagrees (ascii_of_isHexDigit h) h
  have hsame : (if c.isDigit then c.toNat - '0'.toNat
      else if c.isLower then c.toNat - 'a'.toNat + 10
      else if c.isUpper then c.toNat - 'A'.toNat + 10
      else radix) = worth c := by
    rw [← hvalue]
    simp only [Bool.or_eq_true] at hclass
    rcases hclass with (hclass | hclass) | hclass <;> simp only [hclass, if_true]
  unfold Literal.digitValue?
  simp only [hsame]
  rw [Option.ite_none_right_eq_some, Option.some.injEq, eq_comm (a := d)]

/-- Digits are read from the first to the last, each of them the least so far. -/
theorem ofDigits?_eq_some_iff {n : Nat} (h : ∀ c ∈ cs, isHexDigit c = true) :
    Literal.ofDigits? radix cs = some n ↔
      (∀ c ∈ cs, worth c < radix) ∧ n = Nat.ofDigits radix (cs.map worth).reverse := by
  unfold Literal.ofDigits?
  induction cs using List.reverseRecOn generalizing n with
  | nil => simp [eq_comm]
  | append_singleton cs c ih =>
    rw [List.forall_mem_append] at h
    have hc (d : Nat) := @digitValue?_eq_some_iff c radix d (h.2 c (by simp))
    have hsum (m : Nat) : m * radix + worth c = worth c + radix * m := by
      rw [Nat.mul_comm, Nat.add_comm]
    rw [List.foldlM_append, Option.bind_eq_bind, Option.bind_eq_some_iff]
    simp only [ih h.1, List.foldlM_cons, List.foldlM_nil, Option.bind_eq_bind, Option.pure_def,
      Option.bind_fun_some, Option.map_eq_some_iff, hc, List.forall_mem_append,
      List.forall_mem_singleton, List.map_append, List.map_cons, List.map_nil,
      List.reverse_append, List.reverse_singleton, List.singleton_append, Nat.ofDigits_cons]
    constructor
    · rintro ⟨m, ⟨hcs, rfl⟩, d, ⟨hlt, rfl⟩, rfl⟩
      exact ⟨⟨hcs, hlt⟩, hsum _⟩
    · rintro ⟨⟨hcs, hlt⟩, rfl⟩
      exact ⟨_, ⟨hcs, rfl⟩, _, ⟨hlt, rfl⟩, hsum _⟩

end Digits

namespace Whole

variable (w : Whole)

theorem isDigit_of_mem_digits {c : Char} (hc : c ∈ w.digits) : w.base.isDigit c = true := by
  obtain ⟨hc, hscore⟩ := List.mem_filter.mp hc
  have hfigure := w.figures_all c hc
  simp only [Base.isFigure, Bool.or_eq_true, beq_iff_eq] at hfigure
  rcases hfigure with hdigit | rfl
  · exact hdigit
  · cases hscore

theorem isHexDigit_of_mem_digits {c : Char} (hc : c ∈ w.digits) : isHexDigit c = true := by
  have hdigit := w.isDigit_of_mem_digits hc
  cases hbase : w.base with
  | hexadecimal => rwa [hbase] at hdigit
  | decimal =>
    rw [hbase] at hdigit
    have hdecimal : c.isDigit = true := hdigit
    simp [isHexDigit, hdecimal]
  | binary =>
    rw [hbase] at hdigit
    simp only [Base.isDigit, Bool.or_eq_true, beq_iff_eq] at hdigit
    rcases hdigit with rfl | rfl <;> decide

/-- Underscores alone do not stand between digits. -/
theorem digits_ne_nil (h : Tidy w.glyphs) : w.digits ≠ [] := by
  intro hnil
  have hscores : ∀ c ∈ w.figures, c = '_' := by
    intro c hc
    by_contra hne
    have hmem : c ∈ w.digits := List.mem_filter.mpr ⟨hc, by simpa using hne⟩
    rw [hnil] at hmem
    cases hmem
  have hnone : ∀ g ∈ w.glyphs, g.isDigit = false := by
    intro g hg
    simp only [glyphs, signs, glyphsOf, List.mem_append, List.mem_map] at hg
    rcases hg with ⟨c, _, rfl⟩ | ⟨c, hc, rfl⟩ | ⟨c, _, rfl⟩
    · rfl
    · rw [hscores c hc]
      cases w.base <;> rfl
    · rfl
  obtain ⟨c, cs, hfigures⟩ := List.exists_cons_of_ne_nil w.figures_ne
  refine h (signs w.mark).length ⟨?_, ?_⟩
  · rw [glyphs, List.getElem?_append_right (Nat.le_refl _), Nat.sub_self, hfigures,
      hscores c (by rw [hfigures]; exact List.mem_cons_self)]
    rfl
  · rintro ⟨before, first, run, last, after, heq, hfirst, _⟩
    rw [hnone first (by rw [heq]; simp)] at hfirst
    cases hfirst

/-! The parts of a number, as they are split off one after the other. -/

theorem splitLong_chars :
    Literal.splitLong w.chars = (w.mark ++ w.figures, decide (w.width = 64)) := by
  have hlong : ∀ c, c = 'l' ∨ c = 'L' → w.base.isFigure c = false := by
    rintro c (rfl | rfl) <;> cases w.base <;> rfl
  have hsuffix := w.suffix_mem
  simp only [List.mem_cons, List.not_mem_nil, or_false] at hsuffix
  unfold chars Literal.splitLong width
  rcases hsuffix with hsuffix | hsuffix | hsuffix
  · rw [hsuffix, List.append_nil, List.getLast?_append_of_ne_nil _ w.figures_ne]
    split
    · rename_i hlast
      exact absurd (w.figures_all _ (List.mem_of_getLast? hlast)) (by simp [hlong])
    · rename_i hlast
      exact absurd (w.figures_all _ (List.mem_of_getLast? hlast)) (by simp [hlong])
    · rfl
  · rw [hsuffix, List.getLast?_concat, List.dropLast_concat]
    rfl
  · rw [hsuffix, List.getLast?_concat, List.dropLast_concat]
    rfl

theorem dropUnderscores_body :
    Literal.dropUnderscores (w.mark ++ w.figures) = w.mark ++ w.digits := by
  have hmarks : ∀ base : Base, ∀ m ∈ base.marks, Literal.dropUnderscores m = m := by
    intro base
    cases base <;> decide
  have hmark := hmarks w.base w.mark w.mark_mem
  unfold Literal.dropUnderscores at hmark ⊢
  rw [List.filter_append, hmark]
  rfl

theorem splitRadix_digits (hne : w.digits ≠ []) :
    ∃ ds, Literal.splitRadix (w.mark ++ w.digits) = (w.radix, ds) ∧
      (ds = w.digits ∨ w.digits = '0' :: ds ∧ ds ≠ []) := by
  have hmark := w.mark_mem
  have hdigit (c : Char) (hc : c ∈ w.digits) := w.isDigit_of_mem_digits hc
  unfold radix
  cases hbase : w.base with
  | hexadecimal =>
    rw [hbase] at hmark
    rcases Base.mark_hexadecimal hmark with hmark | hmark <;>
      exact ⟨w.digits, by rw [hmark]; rfl, .inl rfl⟩
  | binary =>
    rw [hbase] at hmark
    rcases Base.mark_binary hmark with hmark | hmark <;>
      exact ⟨w.digits, by rw [hmark]; rfl, .inl rfl⟩
  | decimal =>
    rw [hbase] at hmark hdigit
    rw [List.mem_singleton.mp hmark, List.nil_append]
    generalize w.digits = cs at hne hdigit
    unfold Literal.splitRadix
    split
    · exact absurd (hdigit 'x' (by simp)) (by decide)
    · exact absurd (hdigit 'X' (by simp)) (by decide)
    · exact absurd (hdigit 'b' (by simp)) (by decide)
    · exact absurd (hdigit 'B' (by simp)) (by decide)
    · exact ⟨_, by simp, .inr ⟨rfl, List.cons_ne_nil _ _⟩⟩
    · rename_i hlead
      refine ⟨cs, ?_, .inl rfl⟩
      rw [if_neg]
      rintro ⟨hhead, hlength⟩
      obtain ⟨ds, rfl⟩ := List.head?_eq_some_iff.mp hhead
      cases ds with
      | nil => exact absurd hlength (by simp)
      | cons d ds => exact hlead d ds rfl

theorem natural?_digits {ds : List Char} {n : Nat} (hne : w.digits ≠ [])
    (hds : ds = w.digits ∨ w.digits = '0' :: ds ∧ ds ≠ []) :
    Literal.natural? w.radix ds = some n ↔ w.Valid ∧ n = w.number := by
  have hall (c : Char) (hc : c ∈ w.digits) := w.isHexDigit_of_mem_digits hc
  have hread : ∀ c ∈ ds, isHexDigit c = true := by
    rcases hds with rfl | ⟨hdigits, _⟩
    · exact hall
    · exact fun c hc => hall c (by rw [hdigits]; exact List.mem_cons_of_mem _ hc)
  have hne' : ds ≠ [] := by
    rcases hds with rfl | ⟨_, hds⟩
    · exact hne
    · exact hds
  have hplus : ds.head? ≠ some '+' := fun hhead =>
    absurd (hread '+' (List.mem_of_head? hhead)) (by decide)
  unfold Literal.natural? Valid number
  simp only [if_neg hplus, if_neg hne']
  rw [ofDigits?_eq_some_iff hread]
  rcases hds with rfl | ⟨hdigits, _⟩
  · rfl
  · -- A zero in front adds nothing.
    have hzero : worth '0' = 0 := by decide
    have hpos : 0 < w.radix := by
      unfold radix
      repeat' split
      all_goals decide
    rw [hdigits, List.forall_mem_cons, List.map_cons, hzero, List.reverse_cons, Nat.ofDigits_append,
      Nat.ofDigits_singleton, Nat.mul_zero, Nat.add_zero]
    simp only [hpos, true_and]

theorem limit_width (negated : Bool) :
    Literal.limit w.width (w.radix == 10) negated = w.greatest negated := by
  unfold Literal.limit greatest
  by_cases hradix : w.radix = 10
  · cases negated <;> simp [hradix]
  · simp [hradix]

theorem signedValue_number (negated : Bool) :
    Literal.signedValue w.width (w.radix == 10) negated w.number = w.value negated := by
  unfold Literal.signedValue value word
  by_cases hradix : w.radix = 10
  · cases negated <;> simp [hradix]
  · cases negated <;> simp [hradix, BitVec.toInt_neg, BitVec.toInt_ofNat']

/-- A number with no stray underscore is read if its digits are valid and it fits. -/
theorem integer_eq {text : String} (negated : Bool) (htext : w.chars = text.toList)
    (htidy : Tidy w.glyphs) :
    Literal.integer text negated =
      if w.Valid ∧ w.number ≤ w.greatest negated then .ok (w.literal negated)
      else .error .intTooLarge := by
  have hne := w.digits_ne_nil htidy
  obtain ⟨ds, hsplit, hds⟩ := w.splitRadix_digits hne
  have hnatural (n : Nat) := w.natural?_digits (n := n) hne hds
  have hwidth : (if decide (w.width = 64) = true then 64 else 32) = w.width := by
    unfold width
    split <;> rfl
  unfold Literal.integer
  simp only [← htext, w.checkUnderscores_tidy_iff.mpr htidy, bind, Except.bind, w.splitLong_chars,
    w.dropUnderscores_body, hsplit, hwidth, w.limit_width]
  cases hread : Literal.natural? w.radix ds with
  | none =>
    have hinvalid : ¬w.Valid := by
      intro hvalid
      rw [(hnatural _).mpr ⟨hvalid, rfl⟩] at hread
      cases hread
    simp only [hinvalid, false_and, if_false]
  | some n =>
    obtain ⟨hvalid, rfl⟩ := (hnatural n).mp hread
    simp only [hvalid, true_and, w.signedValue_number]
    by_cases hle : w.number ≤ w.greatest negated
    · rw [if_neg (Nat.not_lt.mpr hle), if_pos hle]
      simp only [literal, decide_eq_true_eq]
    · rw [if_pos (Nat.lt_of_not_le hle), if_neg hle]

/-- A number that fits has a value in the range of its type. -/
theorem value_range {negated : Bool} (h : w.number ≤ w.greatest negated) :
    -2 ^ (w.width - 1) ≤ w.value negated ∧ w.value negated < 2 ^ (w.width - 1) := by
  obtain ⟨v, hv⟩ : ∃ v, w.width = v + 1 := by
    unfold width
    split
    · exact ⟨31, rfl⟩
    · exact ⟨63, rfl⟩
  rw [← w.limit_width, hv] at h
  rw [← w.signedValue_number, hv]
  exact Literal.signedValue_range v h

end Whole

end JavaSyntax.Numeral

namespace JavaSyntax.Literal

open Numeral

/-- A literal is read exactly if its underscores are in place, its digits are valid and its number
fits into the type. It then has the value of that number, in the range of the type; a literal whose
underscores are in place and that is not read is too large. -/
theorem integer_value {keepDocs : Bool} {source : String} {t : Token}
    (ht : .token t ∈ lex keepDocs source) (hk : t.kind = .integerLit) :
    (∃ w : Whole, w.chars = t.text.toList) ∧
      ∀ (w : Whole) (negated : Bool), w.chars = t.text.toList →
        (∀ v, integer t.text negated = .ok v ↔
          (Tidy w.glyphs ∧ w.Valid ∧ w.number ≤ w.greatest negated) ∧ v = w.literal negated) ∧
        (w.number ≤ w.greatest negated →
          -2 ^ (w.width - 1) ≤ w.value negated ∧ w.value negated < 2 ^ (w.width - 1)) ∧
        (Tidy w.glyphs → ¬(w.Valid ∧ w.number ≤ w.greatest negated) →
          integer t.text negated = .error .intTooLarge) := by
  refine ⟨lex_whole ht hk, fun w negated hw => ⟨fun v => ?_, w.value_range, ?_⟩⟩
  · by_cases htidy : Tidy w.glyphs
    · rw [w.integer_eq negated hw htidy]
      by_cases hfits : w.Valid ∧ w.number ≤ w.greatest negated
      · rw [if_pos hfits, Except.ok.injEq, and_iff_right ⟨htidy, hfits⟩, eq_comm]
      · rw [if_neg hfits]
        exact ⟨fun h => (nomatch h), fun h => absurd h.1.2 hfits⟩
    · have herror : ∃ i, integer t.text negated = .error (.illegalUnderscore i) := by
        rw [← w.checkUnderscores_tidy_iff, hw] at htidy
        obtain ⟨i, hi⟩ := (checkUnderscores_cases t.text.toList).resolve_left htidy
        exact ⟨i, integer_underscore_iff.mpr hi⟩
      obtain ⟨i, hi⟩ := herror
      simp only [hi, reduceCtorEq, htidy, false_and]
  · intro htidy hunfit
    rw [w.integer_eq negated hw htidy, if_neg hunfit]

/-- The negation of a bit pattern wraps around. -/
theorem integer_value_wraps :
    .token ⟨.integerLit, "0xFFFF_FFFF", 0, 11, none⟩ ∈ lex true "0xFFFF_FFFF" ∧
      integer "0xFFFF_FFFF" true = .ok (.int 1) := by
  have ht : .token ⟨.integerLit, "0xFFFF_FFFF", 0, 11, none⟩ ∈ lex true "0xFFFF_FFFF" := by
    decide
  let w : Whole := ⟨.hexadecimal, ['0', 'x'], "FFFF_FFFF".toList, [], by decide, by decide,
    List.all_eq_true.mp (by decide), by decide⟩
  have htidy : Tidy w.glyphs := w.checkUnderscores_tidy_iff.mp rfl
  have hfits : w.Valid ∧ w.number ≤ w.greatest true := by decide
  have hliteral : .int 1 = w.literal true := by decide
  exact ⟨ht, (((integer_value ht rfl).2 w true rfl).1 (.int 1)).mpr ⟨⟨htidy, hfits⟩, hliteral⟩⟩

end JavaSyntax.Literal
