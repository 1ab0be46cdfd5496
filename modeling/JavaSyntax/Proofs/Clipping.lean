import JavaSyntax.Proofs.Cutting
import JavaSyntax.Proofs.Separating
import JavaSyntax.Proofs.Tiling
import Mathlib.Data.List.TakeWhile

/-!
Texts that are cut off behind a token. What the lexer finds at the start of a text depends only on
the characters it takes and on the one behind them: if a blank comes there instead, or nothing, the
same token is found. Only a reserved word may be read as a name for what is behind it.
-/

namespace JavaSyntax

open Enclosed (isNewline)

namespace Lexer

/-- Blanks that leave a reserved word in front of them reserved. -/
def spacings : List Char := [' ', '\t', '\r', '\n', '\x0c', '\x1A']

def isSpacing (c : Char) : Bool :=
  spacings.contains c

/-- Nothing comes next, or a blank. -/
abbrev Spaced (rest : List Char) : Prop :=
  Follows isSpacing rest

theorem Spaced.nil : Spaced [] := fun _ => nofun

theorem not_of_isSpacing {c : Char} {p : Char → Bool} (h : isSpacing c = true)
    (hp : spacings.any p = false) : p c = false :=
  Bool.eq_false_iff.mpr (List.any_eq_false.mp hp c (List.contains_iff_mem.mp h))

theorem Spaced.head {rest : List Char} (h : Spaced rest) {p : Char → Bool}
    (hp : spacings.any p = false) : rest.head?.any p = false := by
  cases rest with
  | nil => rfl
  | cons c rest => exact not_of_isSpacing (h c rfl) hp

end Lexer

open Lexer (Spaced spacings)

/-! Lengths. -/

/-- A length is settled by the characters it covers: it stays if a blank comes behind them instead,
or nothing. -/
def Settled (length : List Char → Nat) : Prop :=
  ∀ front back rest, length (front ++ back) ≤ front.length → Spaced rest →
    length (front ++ rest) = length (front ++ back)

/-- The same for what is found and its length, where at least `k` characters are kept. -/
def Settles {α : Type} (k : Nat) (read : List Char → Option (α × Nat)) : Prop :=
  ∀ front back rest found n, read (front ++ back) = some (found, n) → n ≤ front.length →
    k ≤ front.length → Spaced rest → read (front ++ rest) = some (found, n)

namespace Settled

variable {f g : List Char → Nat}

theorem const (n : Nat) : Settled fun _ => n := fun _ _ _ _ _ => rfl

theorem seq (hf : Settled f) (hg : Settled g) : Settled fun cs => f cs + g (cs.drop (f cs)) := by
  intro front back rest hle hrest
  dsimp only at hle ⊢
  have hsame := hf front back rest (by omega) hrest
  rw [List.drop_append_of_le_length (by omega)] at hle
  rw [hsame, List.drop_append_of_le_length (by omega), List.drop_append_of_le_length (by omega),
    hg _ back rest (by rw [List.length_drop]; omega) hrest]

theorem settles {α : Type} (hf : Settled f) (k : Nat) (found : α) :
    Settles k fun cs => some (found, f cs) := by
  intro front back rest found' n hread hn _ hrest
  cases hread
  exact congrArg (fun n => some (found, n)) (hf front back rest hn hrest)

end Settled

namespace Settles

variable {α : Type} {k : Nat} {n t : List Char → Nat} {f g : List Char → Option (α × Nat)}

theorem none : Settles k fun _ => (Option.none : Option (α × Nat)) := nofun

theorem congr (hf : Settles k f) (h : ∀ cs, g cs = f cs) : Settles k g := by
  rwa [show g = f from funext h]

/-- It depends on a stretch behind the first `n` characters how to go on. -/
theorem ite (hn : Settled n) (ht : Settled t) (hf : Settles k f) (hg : Settles k g)
    (hcovers : ∀ cs found m, 0 < t (cs.drop (n cs)) → f cs = some (found, m) →
      n cs + t (cs.drop (n cs)) ≤ max k m)
    (hreaches : ∀ cs found m, g cs = some (found, m) → n cs ≤ max k m) :
    Settles k fun cs => if 0 < t (cs.drop (n cs)) then f cs else g cs := by
  intro front back rest found m hread hm hk hrest
  dsimp only at hread ⊢
  have hlength :
      n (front ++ back) + t ((front ++ back).drop (n (front ++ back))) ≤ front.length := by
    split at hread
    · rename_i hpos
      have hle := hcovers _ _ _ hpos hread
      omega
    · have hle := hreaches _ _ _ hread
      omega
  have hsame := hn front back rest (by omega) hrest
  have htogether := hn.seq ht front back rest hlength hrest
  dsimp only at htogether
  have htail : t ((front ++ rest).drop (n (front ++ rest))) =
      t ((front ++ back).drop (n (front ++ back))) := by omega
  rw [htail]
  split at hread
  · rename_i hpos
    rw [if_pos hpos]
    exact hf front back rest found m hread hm hk hrest
  · rename_i hzero
    rw [if_neg hzero]
    exact hg front back rest found m hread hm hk hrest

end Settles

namespace Numeral

/-- A run that stops inside a text stops there whatever comes behind it, if that does not go on. -/
theorem run_clipped {p : Char → Bool} {front back rest : List Char}
    (hle : run p (front ++ back) ≤ front.length) (hrest : rest.head?.any p = false) :
    run p (front ++ rest) = run p (front ++ back) := by
  have hstop : rest.takeWhile p = [] := by
    cases rest with
    | nil => rfl
    | cons c rest => exact List.takeWhile_cons_of_neg (Bool.eq_false_iff.mp hrest)
  unfold run at hle ⊢
  simp only [List.takeWhile_append, hstop] at hle ⊢
  by_cases hall : (front.takeWhile p).length = front.length
  · rw [if_pos hall, List.length_append] at hle
    simp only [if_pos hall, List.length_append, List.length_nil]
    omega
  · simp only [if_neg hall]

/-- A run that stops in front of the end stops there whatever comes behind it. -/
theorem run_inside {p : Char → Bool} {front back : List Char}
    (hlt : run p (front ++ back) < front.length) (rest : List Char) :
    run p (front ++ rest) = run p (front ++ back) := by
  unfold run at hlt ⊢
  simp only [List.takeWhile_append] at hlt ⊢
  by_cases hall : (front.takeWhile p).length = front.length
  · rw [if_pos hall, List.length_append] at hlt
    omega
  · simp only [if_neg hall]

theorem settled_run {p : Char → Bool} (hp : spacings.any p = false) : Settled (run p) :=
  fun _ _ _ hle hrest => run_clipped hle (hrest.head hp)

theorem oneOf_le (choices cs : List Char) : oneOf choices cs ≤ 1 := by
  cases cs with
  | nil => exact Nat.zero_le 1
  | cons c cs =>
    simp only [oneOf]
    split <;> omega

/-- Digits behind a number of characters, which count only with at least one of them. -/
def digits (k : Nat) (cs : List Char) : Nat :=
  if cs.head?.any Char.isDigit then k + run isDecimal cs else 0

section Digits

variable {k : Nat} {front back rest : List Char}

theorem digits_spaced (h : Spaced rest) : digits k rest = 0 := by
  have hnone := h.head (p := Char.isDigit) (by decide)
  simp [digits, hnone]

/-- If there are digits, they are longer. -/
theorem digits_of_le {cs : List Char} (h : digits k cs ≤ k) : digits k cs = 0 := by
  unfold digits at h ⊢
  cases cs with
  | nil => rfl
  | cons c cs =>
    by_cases hc : c.isDigit = true
    · have hpos := @Lexer.run_pos isDecimal c cs (by simp [isDecimal, hc])
      simp only [List.head?_cons, Option.any_some, hc, if_true] at h
      omega
    · simp [hc]

theorem digits_clipped (hle : digits k (front ++ back) ≤ k + front.length) (hrest : Spaced rest) :
    digits k (front ++ rest) = digits k (front ++ back) := by
  cases front with
  | nil => exact (digits_spaced hrest).trans (digits_of_le hle).symm
  | cons c front =>
    unfold digits at hle ⊢
    by_cases hc : c.isDigit = true
    · simp only [List.cons_append, List.head?_cons, Option.any_some, hc, if_true,
        Nat.add_le_add_iff_left] at hle ⊢
      exact congrArg (k + ·) (settled_run (by decide) (c :: front) back rest hle hrest)
    · simp [hc]

end Digits

section Marks

variable {marks : List Char} (hmarks : spacings.any marks.contains = false)

include hmarks

theorem oneOf_spaced {rest : List Char} (h : Spaced rest) : oneOf marks rest = 0 :=
  oneOf_eq_zero fun c hc => by
    have hnot := h.head hmarks
    rw [hc] at hnot
    simpa using hnot

theorem settled_oneOf : Settled (oneOf marks) := by
  intro front back rest hle hrest
  cases front with
  | nil => exact (oneOf_spaced hmarks hrest).trans (Nat.le_zero.mp hle).symm
  | cons c front => rfl

omit hmarks in
theorem exponent_eq (cs : List Char) : exponent marks cs =
    if oneOf marks cs = 1 then
      digits (1 + oneOf ['+', '-'] (cs.drop 1)) (cs.drop (1 + oneOf ['+', '-'] (cs.drop 1)))
    else 0 := by
  unfold exponent digits
  by_cases hmark : oneOf marks cs = 1
  · simp only [hmark, true_and, if_true]
  · simp only [hmark, false_and, if_false]

/-- An exponent that is cut off is none. -/
theorem settled_exponent : Settled (exponent marks) := by
  intro front back rest hle hrest
  rw [exponent_eq] at hle
  rw [exponent_eq, exponent_eq]
  match front with
  | [] =>
    rw [List.nil_append] at hle ⊢
    rw [oneOf_spaced hmarks hrest, if_neg (by decide)]
    exact (Nat.le_zero.mp hle).symm
  | [c] =>
    have hsign : oneOf ['+', '-'] rest = 0 := oneOf_spaced (by decide) hrest
    by_cases hmark : oneOf marks [c] = 1
    · have hmark' (more : List Char) : oneOf marks ([c] ++ more) = 1 := hmark
      rw [if_pos (hmark' _)] at hle
      rw [if_pos (hmark' _), if_pos (hmark' _),
        digits_of_le (Nat.le_trans hle (Nat.le_add_right ..))]
      simpa [hsign] using digits_spaced hrest
    · have hmark' (more : List Char) : ¬oneOf marks ([c] ++ more) = 1 := hmark
      rw [if_neg (hmark' _), if_neg (hmark' _)]
  | c :: d :: front =>
    have hmark (more : List Char) : oneOf marks (c :: d :: front ++ more) = oneOf marks [c] := rfl
    have hsign (more : List Char) : oneOf ['+', '-'] ((c :: d :: front ++ more).drop 1) =
      oneOf ['+', '-'] [d] := rfl
    have hone := oneOf_le ['+', '-'] [d]
    generalize oneOf ['+', '-'] [d] = sign at hsign hone
    have hcovered : 1 + sign ≤ (c :: d :: front).length := by
      simp only [List.length_cons]
      omega
    simp only [hmark, hsign, List.drop_append_of_le_length hcovered] at hle ⊢
    split
    · rename_i hfound
      rw [if_pos hfound] at hle
      refine digits_clipped (Nat.le_trans hle ?_) hrest
      rw [List.length_drop]
      omega
    · rfl

theorem settled_floatTail : Settled (floatTail marks) :=
  (settled_exponent hmarks).seq (settled_oneOf (by decide) : Settled floatSuffix)

end Marks

theorem exponent_le_floatTail (marks cs : List Char) : exponent marks cs ≤ floatTail marks cs :=
  Nat.le_add_right _ _

theorem oneOf_pos_iff {choice : Char} {cs : List Char} :
    0 < oneOf [choice] cs ↔ cs.head? = some choice := by
  cases cs with
  | nil => simp [oneOf]
  | cons c cs => by_cases hc : c = choice <;> simp [oneOf, hc]

theorem settles_decimal : Settles 0 fun cs => some (decimal cs) := by
  have hdigits : Settled (run isDecimal) := settled_run (by decide)
  have hpoint : Settled (oneOf ['.']) := settled_oneOf (by decide)
  have htail : Settled (floatTail ['e', 'E']) := settled_floatTail (by decide)
  have hsuffix : Settled longSuffix := settled_oneOf (by decide)
  refine (Settles.ite hdigits hpoint
    ((hdigits.seq (hpoint.seq (hdigits.seq htail))).settles 0 Kind.floatingLit)
    (.ite hdigits htail ((hdigits.seq htail).settles 0 Kind.floatingLit)
      ((hdigits.seq hsuffix).settles 0 Kind.integerLit) ?_ ?_) ?_ ?_).congr fun cs => ?_
  · rintro cs found m - ⟨⟩
    exact Nat.le_max_right ..
  · rintro cs found m ⟨⟩
    exact Nat.le_trans (Nat.le_add_right ..) (Nat.le_max_right ..)
  · rintro cs found m - ⟨⟩
    omega
  · intro cs found m hread
    split at hread <;> cases hread <;> omega
  · unfold decimal
    simp only [oneOf_pos_iff]
    split
    · rename_i hhead
      simp only [oneOf_of_head hhead, List.drop_drop, Nat.add_assoc]
    · split <;> rfl

theorem settles_hexadecimal : Settles 2 fun cs => (hexadecimal cs).number? := by
  have hdigits : Settled (run isHex) := settled_run (by decide)
  have hpoint : Settled (oneOf ['.']) := settled_oneOf (by decide)
  have hexponent : Settled (exponent ['p', 'P']) := settled_exponent (by decide)
  have htail : Settled (floatTail ['p', 'P']) := settled_floatTail (by decide)
  have hsuffix : Settled longSuffix := settled_oneOf (by decide)
  have hwhole := (Settled.const 2).seq hdigits
  have hpointed := hwhole.seq (hpoint.seq hdigits)
  refine (Settles.ite hwhole hpoint
    (.ite hpointed hexponent ((hpointed.seq htail).settles 2 Kind.floatingLit) .none ?_ nofun)
    (.ite hwhole hexponent ((hwhole.seq htail).settles 2 Kind.floatingLit)
      (.ite (.const 2) hdigits ((hwhole.seq hsuffix).settles 2 Kind.integerLit)
        ((Settled.const 1).settles 2 Kind.integerLit) ?_ ?_) ?_ ?_) ?_ ?_).congr fun cs => ?_
  · rintro cs found m - ⟨⟩
    exact (Nat.add_le_add_left (exponent_le_floatTail _ _) _).trans (Nat.le_max_right ..)
  · rintro cs found m - ⟨⟩
    omega
  · rintro cs found m ⟨⟩
    omega
  · rintro cs found m - ⟨⟩
    exact (Nat.add_le_add_left (exponent_le_floatTail _ _) _).trans (Nat.le_max_right ..)
  · intro cs found m hread
    split at hread <;> cases hread <;> omega
  · intro cs found m hpos hread
    split at hread <;> cases hread
    omega
  · intro cs found m hread
    repeat' split at hread
    all_goals
      cases hread
      omega
  · unfold hexadecimal pointedHex
    simp only [oneOf_pos_iff]
    split
    · rename_i hhead
      simp only [oneOf_of_head hhead, List.drop_drop, Nat.add_assoc]
      split
      · rfl
      · split <;> rfl
    · split
      · rfl
      · have hpos : 2 < 2 + run isHex (cs.drop 2) ↔ 0 < run isHex (cs.drop 2) := by omega
        simp only [hpos]
        split <;> rfl

theorem settles_binary : Settles 2 fun cs => some (Kind.integerLit, binary cs) := by
  have hdigits : Settled (run isBinary) := settled_run (by decide)
  have hsuffix : Settled longSuffix := settled_oneOf (by decide)
  have hwhole := (Settled.const 2).seq hdigits
  refine (Settles.ite (.const 2) hdigits ((hwhole.seq hsuffix).settles 2 Kind.integerLit)
    ((Settled.const 1).settles 2 Kind.integerLit) ?_ ?_).congr fun cs => ?_
  · rintro cs found m - ⟨⟩
    omega
  · rintro cs found m ⟨⟩
    omega
  · have hpos : 2 < 2 + run isBinary (cs.drop 2) ↔ 0 < run isBinary (cs.drop 2) := by omega
    unfold binary
    simp only [hpos]
    split <;> rfl

theorem decimal_clipped {front back rest : List Char}
    (hn : (decimal (front ++ back)).2 ≤ front.length) (hrest : Spaced rest) :
    decimal (front ++ rest) = decimal (front ++ back) :=
  Option.some.inj (settles_decimal front back rest _ _ rfl hn (Nat.zero_le _) hrest)

section Digit

variable {c : Char} {front back rest : List Char} {kind : Kind} {n : Nat}

theorem number?_eq_some {reading : Reading} :
    reading.number? = some (kind, n) ↔ reading = .number kind n := by
  cases reading <;> simp [Reading.number?]

theorem read_cons (c d : Char) (cs : List Char) : read (c :: d :: cs) =
    if c = '0' ∧ (d = 'x' ∨ d = 'X') then hexadecimal (c :: d :: cs)
    else if c = '0' ∧ (d = 'b' ∨ d = 'B') then .number .integerLit (binary (c :: d :: cs))
    else .number (decimal (c :: d :: cs)).1 (decimal (c :: d :: cs)).2 := by
  by_cases hc : c = '0'
  · simp [read, hc]
  · simp [read, hc]

theorem decimal_digit (hc : c.isDigit = true) (hrest : Spaced rest) :
    decimal (c :: rest) = (.integerLit, 1) := by
  have hfree : Follows (fun c => !isNumeric c) rest := fun d hd => by
    have hnone := hrest.head (p := isNumeric) (by decide)
    rw [hd] at hnone
    simpa using hnone
  have hsuffix : longSuffix rest = 0 := oneOf_spaced (by decide) hrest
  have hdecimal := @decimal_digits [c] rest (by simpa using hc) hfree
  rwa [hsuffix] at hdecimal

theorem read_digit (hc : c.isDigit = true) (hrest : Spaced rest) :
    read (c :: rest) = .number .integerLit 1 := by
  have hdecimal := decimal_digit hc hrest
  cases rest with
  | nil => simp [read, hdecimal]
  | cons d rest =>
    have hd := hrest.head (p := fun d => ['x', 'X', 'b', 'B'].contains d) (by decide)
    have hplain : ¬(d = 'x' ∨ d = 'X') ∧ ¬(d = 'b' ∨ d = 'B') := by
      simp at hd
      simp [hd]
    simp [read_cons, hplain, hdecimal]

/-- A number of one character is a whole one. -/
theorem read_short (hc : c.isDigit = true) (h : read (c :: back) = .number kind n) (hn : n ≤ 1) :
    kind = .integerLit ∧ n = 1 := by
  cases back with
  | nil =>
    rw [read_digit hc .nil] at h
    cases h
    exact ⟨rfl, rfl⟩
  | cons d ds =>
    rw [read_cons] at h
    split at h
    · unfold hexadecimal pointedHex at h
      dsimp only at h
      repeat' split at h
      all_goals cases h
      all_goals first | omega | exact ⟨rfl, rfl⟩
    · split at h
      · cases h
        unfold binary at hn ⊢
        dsimp only at hn ⊢
        split at hn
        · omega
        · rename_i hnone
          rw [if_neg hnone]
          exact ⟨rfl, rfl⟩
      · cases h
        have hsame := @decimal_clipped [c] (d :: ds) [] hn .nil
        rw [List.append_nil, decimal_digit hc .nil] at hsame
        rw [← List.singleton_append, ← hsame]
        exact ⟨rfl, rfl⟩

theorem read_clipped (hc : c.isDigit = true)
    (h : read (c :: (front ++ back)) = .number kind n) (hn : n ≤ (c :: front).length)
    (hrest : Spaced rest) : read (c :: (front ++ rest)) = .number kind n := by
  cases front with
  | nil =>
    obtain ⟨rfl, rfl⟩ := read_short hc h hn
    exact read_digit hc hrest
  | cons d front =>
    have hlong : 2 ≤ (c :: d :: front).length := by simp
    rw [List.cons_append, read_cons] at h ⊢
    split
    · rename_i hhex
      rw [if_pos hhex] at h
      exact number?_eq_some.mp (settles_hexadecimal (c :: d :: front) back rest kind n
        (number?_eq_some.mpr h) hn hlong hrest)
    · rename_i hhex
      rw [if_neg hhex] at h
      split
      · rename_i hbinary
        rw [if_pos hbinary] at h
        cases h
        have hsame := settles_binary (c :: d :: front) back rest _ _ rfl hn hlong hrest
        simpa using hsame
      · rename_i hbinary
        rw [if_neg hbinary] at h
        cases h
        have hsame := @decimal_clipped (c :: d :: front) back rest hn hrest
        exact congrArg (fun read => Reading.number read.1 read.2) hsame

end Digit

theorem fraction_clipped {front back rest : List Char}
    (hn : fraction (front ++ back) ≤ front.length) (hrest : Spaced rest) :
    fraction (front ++ rest) = fraction (front ++ back) :=
  ((Settled.const 1).seq (@settled_run isDecimal (by decide))).seq
    (@settled_floatTail ['e', 'E'] (by decide)) front back rest hn hrest

end Numeral

/-! Texts between delimiters. -/

namespace Enclosed

/-- The first `k` characters of a text are read as `found`, whatever comes behind them. -/
def Covered {α : Type} (read : List Char → α) (found : α) (k : Nat) (cs : List Char) : Prop :=
  ∃ front rest, cs = front ++ rest ∧ k = front.length ∧ ∀ more, read (front ++ more) = found

theorem Covered.clipped {α : Type} {read : List Char → α} {found : α} {k : Nat}
    {front back : List Char} (h : Covered read found k (front ++ back)) (hk : k ≤ front.length)
    (rest : List Char) : read (front ++ rest) = found := by
  obtain ⟨covered, behind, heq, rfl, hread⟩ := h
  obtain ⟨more, rfl⟩ : covered <+: front :=
    List.prefix_of_prefix_length_le ⟨behind, heq.symm⟩ (List.prefix_append front back) hk
  rw [List.append_assoc]
  exact hread _

section Closed

variable {quote : Char} {n m : Nat} {cs front back : List Char}

theorem quoted_covered (h : quoted quote n cs = (m, true)) :
    ∃ k, m = n + k ∧ Covered (quoted quote n) (m, true) k cs := by
  fun_induction quoted quote n cs with
  | case1 n => cases h
  | case2 n => cases h
  | case3 n c rest hc => cases h
  | case4 n c rest hc ih =>
    obtain ⟨_, hm, front, back, rfl, rfl, hread⟩ := ih h
    refine ⟨front.length + 2, by omega, '\\' :: c :: front, back, rfl, rfl, fun more => ?_⟩
    simpa [quoted, hc] using hread more
  | case5 n rest hlast hmore =>
    cases h
    refine ⟨1, rfl, [quote], rest, rfl, rfl, fun more => ?_⟩
    rw [List.singleton_append, quoted_cons (ne_backslash hlast hmore), if_pos rfl]
  | case6 n c rest => cases h
  | case7 n c rest hlast hmore hc hline ih =>
    obtain ⟨_, hm, front, back, rfl, rfl, hread⟩ := ih h
    refine ⟨front.length + 1, by omega, c :: front, back, rfl, rfl, fun more => ?_⟩
    rw [List.cons_append, quoted_cons (ne_backslash hlast hmore), if_neg hc, if_neg hline]
    exact hread more

theorem quoted_clipped (h : quoted quote n (front ++ back) = (m, true))
    (hm : m ≤ n + front.length) (rest : List Char) :
    quoted quote n (front ++ rest) = (m, true) := by
  obtain ⟨k, rfl, hcovered⟩ := quoted_covered h
  exact hcovered.clipped (by omega) rest

theorem block_covered (h : block n cs = (m, true)) :
    ∃ k, m = n + k ∧ 3 ≤ k ∧ Covered (block n) (m, true) k cs := by
  fun_induction block n cs with
  | case1 n => cases h
  | case2 n c rest ih =>
    obtain ⟨_, hm, hk, front, back, rfl, rfl, hread⟩ := ih h
    exact ⟨front.length + 2, by omega, by omega, '\\' :: c :: front, back, rfl, rfl, hread⟩
  | case3 n rest =>
    cases h
    exact ⟨3, rfl, Nat.le_refl 3, ['"', '"', '"'], rest, rfl, rfl, fun _ => rfl⟩
  | case4 n c rest hescape hquotes ih =>
    obtain ⟨_, hm, hk, front, back, rfl, rfl, hread⟩ := ih h
    refine ⟨front.length + 1, by omega, by omega, c :: front, back, rfl, rfl, fun more => ?_⟩
    rcases front with _ | ⟨d, _ | ⟨e, front⟩⟩
    · simp at hk
    · simp at hk
    · rw [List.cons_append, block]
      · exact hread more
      · rintro d' ds rfl heq
        exact hescape d _ rfl rfl
      · rintro ds rfl heq
        cases heq
        exact hquotes _ rfl rfl

theorem block_clipped (h : block n (front ++ back) = (m, true)) (hm : m ≤ n + front.length)
    (rest : List Char) : block n (front ++ rest) = (m, true) := by
  obtain ⟨k, rfl, -, hcovered⟩ := block_covered h
  exact hcovered.clipped (by omega) rest

/-- The line end that opens a text block comes before its closing quotes. -/
theorem opensBlock_clipped (hclosed : block n (front ++ []) = (m, true))
    (h : opensBlock (front ++ back) = true) : opensBlock front = true := by
  obtain ⟨body, more, hfront, -⟩ := block_closed hclosed
  unfold opensBlock at h ⊢
  rw [List.dropWhile_append] at h
  cases hrest : front.dropWhile fun c => c == ' ' || c == '\t' || c == '\x0c' with
  | nil =>
    have hblank := List.dropWhile_eq_nil_iff.mp hrest '"' (by
      rw [← List.append_nil front, hfront]
      simp)
    cases hblank
  | cons c rest =>
    rw [hrest] at h
    exact h

theorem comment_covered (h : comment n cs = some m) :
    ∃ k, m = n + k ∧ Covered (comment n) (some m) k cs := by
  fun_induction comment n cs with
  | case1 n => cases h
  | case2 n rest =>
    cases h
    exact ⟨2, rfl, ['*', '/'], rest, rfl, rfl, fun _ => rfl⟩
  | case3 n c rest hopen ih =>
    obtain ⟨_, hm, front, back, rfl, rfl, hread⟩ := ih h
    refine ⟨front.length + 1, by omega, c :: front, back, rfl, rfl, fun more => ?_⟩
    rw [List.cons_append, comment]
    · exact hread more
    · rintro ds rfl heq
      cases front with
      | nil => cases hread []
      | cons d front =>
        cases heq
        exact hopen _ rfl rfl

theorem comment_clipped (h : comment n (front ++ back) = some m) (hm : m ≤ n + front.length)
    (rest : List Char) : comment n (front ++ rest) = some m := by
  obtain ⟨k, rfl, hcovered⟩ := comment_covered h
  exact hcovered.clipped (by omega) rest

end Closed

end Enclosed

namespace Lexer

/-- A text without blanks that stands in front of a blank. -/
theorem prefix_spaced {text front rest : List Char} (hplain : text.any isSpacing = false)
    (h : text <+: front ++ rest) (hrest : Spaced rest) : text <+: front := by
  obtain ⟨behind, heq⟩ := h
  rcases List.append_eq_append_iff.mp heq with ⟨more, hfront, -⟩ | ⟨more, htext, hmore⟩
  · exact ⟨more, hfront.symm⟩
  · cases more with
    | nil => exact ⟨[], by rw [htext, List.append_nil, List.append_nil]⟩
    | cons c more =>
      have hblank := hrest c (by rw [hmore]; rfl)
      exact absurd hblank (List.any_eq_false.mp hplain c (by simp [htext]))

section Clipped

variable {c : Char} {front back rest : List Char} {k : Kind} {n : Nat}

/-- A word stays what it was. Only if a reserved word was taken for a name, because of what stood
behind it, it would become reserved. -/
theorem word_clipped (h : word (c :: (front ++ back)) = (.token k, n)) (hn : n ≤ front.length + 1)
    (hfree : k = .identifier → isReserved (String.ofList ((c :: front).take n)) = false)
    (hrest : Spaced rest) : word (c :: (front ++ rest)) = (.token k, n) := by
  unfold word at h ⊢
  dsimp only at h ⊢
  obtain ⟨hk, hrun⟩ := Prod.mk.inj h
  rw [← List.cons_append] at hk hrun ⊢
  have hsame : Numeral.run Unicode.isIdentifierPart (c :: front ++ rest) = n :=
    (Numeral.run_clipped (by rw [hrun]; exact hn) (hrest.head (by decide))).trans hrun
  rw [hrun] at hk
  rw [hsame]
  rw [List.take_append_of_le_length hn, List.drop_append_of_le_length hn] at hk ⊢
  refine congrArg (fun k => (Piece.token k, n)) ?_
  have hkind := Piece.token.inj hk
  unfold wordKind at hkind ⊢
  split
  · rename_i l hfind
    rw [hfind] at hkind
    dsimp only at hkind
    split at hkind
    · have hreserved := hfree hkind.symm
      have hspell := List.find?_some hfind
      have hmem := List.mem_of_find?_eq_some hfind
      rw [isReserved, List.any_eq_false] at hreserved
      exact absurd hspell (hreserved l hmem)
    · rename_i hfollows
      rw [if_neg, hkind]
      cases hdrop : (c :: front).drop n with
      | nil =>
        have hnone := hrest.head (p := unreserves) (by decide)
        rw [List.nil_append, hnone]
        exact Bool.false_ne_true
      | cons d more =>
        rw [hdrop] at hfollows
        exact hfollows
  · rename_i hfind
    rwa [hfind] at hkind

theorem operator_clipped (h : operator (c :: (front ++ back)) = (.token k, n))
    (hn : n ≤ front.length + 1) (hrest : Spaced rest) :
    operator (c :: (front ++ rest)) = (.token k, n) := by
  have hplain : ∀ k ∈ Kind.operators, k.spelling.toList.any isSpacing = false := by
    decide
  unfold operator at h
  split at h
  · rename_i l hfind
    cases h
    obtain ⟨hfound, before, behind, hsplit, hbefore⟩ := List.find?_eq_some_iff_append.mp hfind
    have hin : k.spelling.toList <+: c :: front :=
      List.prefix_of_prefix_length_le (List.isPrefixOf_iff_prefix.mp hfound)
        (List.prefix_append (c :: front) back) (by simpa [String.length_toList] using hn)
    have hfind' : Kind.operators.find?
        (fun k => k.spelling.toList.isPrefixOf (c :: (front ++ rest))) = some k := by
      refine List.find?_eq_some_iff_append.mpr ⟨List.isPrefixOf_iff_prefix.mpr
        (hin.trans (List.prefix_append (c :: front) rest)), before, behind, hsplit, fun l hl => ?_⟩
      have hnot := hbefore l hl
      have hmem : l ∈ Kind.operators := hsplit ▸ List.mem_append_left _ hl
      simp only [Bool.not_eq_true', Bool.eq_false_iff, ne_eq, List.isPrefixOf_iff_prefix] at hnot ⊢
      exact fun hprefix => hnot ((prefix_spaced (hplain l hmem) hprefix hrest).trans
        (List.prefix_append (c :: front) back))
    unfold operator
    rw [hfind']
  · cases h

theorem textBlock_clipped (h : textBlock (front ++ back) = (.token k, n))
    (hn : n ≤ front.length + 3) : textBlock (front ++ rest) = (.token k, n) := by
  unfold textBlock at h
  split at h
  · rename_i hopens
    split at h
    · rename_i m hblock
      cases h
      have hclipped := Enclosed.block_clipped hblock (by omega)
      have hopens' : Enclosed.opensBlock front = true :=
        Enclosed.opensBlock_clipped (Enclosed.block_clipped hblock (by omega) []) hopens
      unfold textBlock
      rw [if_pos (Enclosed.opensBlock_append hopens' rest), hclipped]
    · cases h
  · cases h

theorem string_clipped (h : string (front ++ back) = (.token k, n)) (hn : n ≤ front.length + 1) :
    string (front ++ rest) = (.token k, n) := by
  unfold string at h ⊢
  split at h
  · rename_i m hquoted
    cases h
    rw [Enclosed.quoted_clipped hquoted (by omega)]
  · cases h

theorem character_clipped (h : character (front ++ back) = (.token k, n))
    (hn : n ≤ front.length + 1) (hrest : Spaced rest) :
    character (front ++ rest) = (.token k, n) := by
  unfold character at h
  split at h
  · cases h
  · rename_i hempty
    split at h
    · rename_i m hquoted
      cases h
      have hempty' : ¬(front ++ rest).head? = some '\'' := by
        cases front with
        | nil =>
          intro hhead
          exact absurd (hrest _ hhead) (by decide)
        | cons d front => exact hempty
      unfold character
      rw [if_neg hempty', Enclosed.quoted_clipped hquoted (by omega)]
    · cases h

/-- The next character is the one that was there before, or a blank. -/
theorem head_clipped (hrest : Spaced rest) {d : Char} (hd : d ∈ (front ++ rest).head?) :
    d ∈ (front ++ back).head? ∨ isSpacing d = true := by
  cases front with
  | nil => exact .inr (hrest d hd)
  | cons e front => exact .inl hd

theorem point_clipped (h : piece '.' (front ++ back) = (.token k, n)) (hn : n ≤ front.length + 1)
    (hd : (front ++ back).head?.any Char.isDigit = true) (hrest : Spaced rest) :
    piece '.' (front ++ rest) = (.token k, n) := by
  obtain ⟨d, hhead, hdigit⟩ := (Option.any_eq_true _ _).mp hd
  obtain ⟨more, hmore⟩ := List.head?_eq_some_iff.mp hhead
  rw [hmore, piece_fraction hdigit] at h
  cases h
  rw [← hmore] at hn ⊢
  cases front with
  | nil =>
    have hpos := @run_pos Numeral.isDecimal d more (by simp [Numeral.isDecimal, hdigit])
    rw [hmore] at hn
    have hle : 1 + Numeral.run Numeral.isDecimal (d :: more) ≤ 1 :=
      Nat.le_trans (Nat.le_add_right _ _) hn
    omega
  | cons e front =>
    cases hmore
    have hsame := @Numeral.fraction_clipped ('.' :: d :: front) back rest (by simpa using hn) hrest
    rw [List.cons_append, piece_fraction hdigit]
    exact congrArg (fun n => (Piece.token .floatingLit, n)) hsame

theorem textBlock_long {cs : List Char} (h : textBlock cs = (.token k, n)) : 6 ≤ n := by
  unfold textBlock at h
  split at h
  · split at h
    · rename_i m hblock
      cases h
      obtain ⟨_, rfl, hthree, -⟩ := Enclosed.block_covered hblock
      omega
    · cases h
  · cases h

theorem piece_block (cs : List Char) : piece '"' ('"' :: '"' :: cs) = textBlock cs := by
  unfold piece
  rw [if_neg (by decide), if_neg (by decide), if_neg (by decide)]
  rfl

theorem quote_clipped (h : piece '"' (front ++ back) = (.token k, n)) (hn : n ≤ front.length + 1)
    (hrest : Spaced rest) : piece '"' (front ++ rest) = (.token k, n) := by
  by_cases hblock : ['"', '"'] <+: front ++ back
  · have hlong : 6 ≤ n := by
      obtain ⟨more, heq⟩ := hblock
      rw [← heq] at h
      exact textBlock_long ((piece_block more).symm.trans h)
    obtain ⟨inside, rfl⟩ : ['"', '"'] <+: front :=
      List.prefix_of_prefix_length_le hblock (List.prefix_append front back) (by simp; omega)
    have hinside : textBlock (inside ++ back) = (.token k, n) := (piece_block _).symm.trans h
    exact (piece_block _).trans (textBlock_clipped hinside (by simpa using hn))
  · have hopen : ¬['"', '"'] <+: front ++ rest := fun hprefix =>
      hblock ((prefix_spaced (by decide) hprefix hrest).trans (List.prefix_append front back))
    have hother {cs : List Char} (hcs : ¬['"', '"'] <+: cs) (more : List Char) :
        cs ≠ '"' :: '"' :: more := fun heq => hcs ⟨more, heq.symm⟩
    rw [piece_string (hother hblock)] at h
    rw [piece_string (hother hopen)]
    exact string_clipped h hn

/-- What stands behind a token matters no more than whether it goes on. -/
theorem piece_clipped (h : piece c (front ++ back) = (.token k, n)) (hn : n ≤ front.length + 1)
    (hfree : k = .identifier → isReserved (String.ofList ((c :: front).take n)) = false)
    (hrest : Spaced rest) : piece c (front ++ rest) = (.token k, n) := by
  by_cases hskip : isSkipped c = true
  · rw [piece_blank hskip] at h
    cases h
  by_cases hstart : Unicode.isIdentifierStart c = true
  · have hword := piece_wordStart hskip hstart
    rw [hword] at h ⊢
    exact word_clipped h hn hfree hrest
  by_cases hdigit : c.isDigit = true
  · have hnumber := piece_digit hskip hstart hdigit
    rw [hnumber] at h ⊢
    unfold number at h ⊢
    split at h
    · rename_i hread
      cases h
      rw [Numeral.read_clipped hdigit hread hn hrest]
    · cases h
  by_cases hquote : c = '"'
  · subst hquote
    exact quote_clipped h hn hrest
  by_cases hapostrophe : c = '\''
  · subst hapostrophe
    exact character_clipped h hn hrest
  by_cases hpoint : c = '.' ∧ (front ++ back).head?.any Char.isDigit = true
  · obtain ⟨rfl, hd⟩ := hpoint
    exact point_clipped h hn hd hrest
  have hnext : ∀ d ∈ (front ++ back).head?,
      (c = '/' → d ≠ '/' ∧ d ≠ '*') ∧ (c = '.' → d.isDigit = false) := by
    intro d hd
    obtain ⟨more, hmore⟩ := List.head?_eq_some_iff.mp hd
    rw [hmore] at h hpoint
    refine ⟨?_, fun hc => Bool.eq_false_iff.mpr fun hdigit => hpoint ⟨hc, hdigit⟩⟩
    rintro rfl
    constructor
    · rintro rfl
      cases h
    · rintro rfl
      exact comment_not_token h k rfl
  have hoperator {cs : List Char} (hcs : ∀ d ∈ cs.head?,
      d ∈ (front ++ back).head? ∨ isSpacing d = true) : piece c cs = operator (c :: cs) := by
    refine piece_operator hskip hstart hdigit ⟨hquote, hapostrophe⟩ (fun hc d hd => ?_)
      fun hc d hd => ?_
    · rcases hcs d hd with hback | hblank
      · exact (hnext d hback).1 hc
      · constructor <;> rintro rfl <;> exact absurd hblank (by decide)
    · rcases hcs d hd with hback | hblank
      · exact (hnext d hback).2 hc
      · exact not_of_isSpacing hblank (by decide)
  rw [hoperator fun d hd => .inl hd] at h
  rw [hoperator fun d hd => head_clipped hrest hd]
  exact operator_clipped h hn hrest

theorem comment_doc {body : List Char} {m : Nat} (hopen : body.head? ≠ some '/')
    (h : Enclosed.comment 3 body = some m) :
    comment ('*' :: body) = (.doc (body.take (m - 5)), m) := by
  cases body with
  | nil => cases h
  | cons d body =>
    have hd : d ≠ '/' := fun hd => hopen (hd ▸ rfl)
    simp [comment, hd, h]

theorem comment_plain {cs : List Char} {m : Nat} (hstar : cs.head? ≠ some '*')
    (h : Enclosed.comment 2 cs = some m) : comment cs = (.comment, m) := by
  cases cs with
  | nil => cases h
  | cons d cs =>
    have hd : d ≠ '*' := fun hd => hstar (hd ▸ rfl)
    simp [comment, hd, h]

theorem comment_clipped {found : Piece} (h : comment (front ++ back) = (found, n))
    (hskip : found.isSkipped = true) (hn : n ≤ front.length + 2) (rest : List Char) :
    comment (front ++ rest) = (found, n) := by
  generalize hwhole : front ++ back = cs at h
  unfold comment at h
  split at h
  · cases h
    match front with
    | [] | [_] =>
      simp only [List.length_nil, List.length_cons] at hn
      omega
    | d :: e :: front =>
      cases hwhole
      rfl
  · rename_i body hopen
    split at h
    · rename_i m hcomment
      cases h
      obtain ⟨inside, more, -, hlong, -⟩ := comment_takes hcomment
      match front with
      | [] | [_] =>
        simp only [List.length_nil, List.length_cons] at hn
        omega
      | d :: e :: front =>
        cases hwhole
        have hlength : n ≤ 3 + (e :: front).length := by
          simp only [List.length_cons] at hn ⊢
          omega
        have htake (more : List Char) :
            (e :: front ++ more).take (n - 5) = (e :: front).take (n - 5) :=
          List.take_append_of_le_length (by omega)
        have hsame := @Enclosed.comment_clipped _ _ (e :: front) back hcomment hlength rest
        have he : (e :: front ++ rest).head? ≠ some '/' := by
          rintro ⟨⟩
          exact hopen _ rfl
        rw [List.cons_append, comment_doc he hsame, htake]
        exact congrArg (fun body => (Piece.doc body, n)) (htake back).symm
    · cases h
      cases hskip
  · rename_i hstar
    split at h
    · rename_i m hcomment
      cases h
      subst hwhole
      obtain ⟨inside, more, -, hlong, -⟩ := comment_takes hcomment
      have hsame := Enclosed.comment_clipped hcomment (by omega) rest
      refine comment_plain (fun hhead => ?_) hsame
      cases front with
      | nil =>
        simp only [List.length_nil] at hn
        omega
      | cons d front =>
        cases hhead
        exact hstar _ rfl
    · cases h
      cases hskip

/-- A token is found again from its characters alone. -/
theorem starts_of_piece {cs : List Char} (h : piece c cs = (.token k, n))
    (hfree : k = .identifier → isReserved (String.ofList ((c :: cs).take n)) = false)
    (hrest : Spaced rest) : Starts (k, String.ofList ((c :: cs).take n)) rest := by
  have hle := (piece_separated h rfl).le
  obtain ⟨m, rfl⟩ := Nat.exists_eq_succ_of_ne_zero (Nat.pos_iff_ne_zero.mp (piece_pos h))
  have hlength : (cs.take m).length = m :=
    List.length_take_of_le (Nat.le_of_succ_le_succ hle)
  refine ⟨c, cs.take m, String.toList_ofList, ?_⟩
  rw [String.toList_ofList, List.take_succ_cons, List.length_cons, hlength]
  rw [← List.take_append_drop m cs] at h
  refine piece_clipped h (Nat.le_of_eq (congrArg Nat.succ hlength.symm)) (fun hk => ?_) hrest
  rw [List.take_succ_cons, List.take_take, Nat.min_self]
  exact hfree hk

/-- A comment is known by its first two characters. -/
theorem comment_opens {cs : List Char} {found : Piece} (h : piece c cs = (found, n))
    (hskip : found.isSkipped = true) (hblank : ¬isSkipped c = true) :
    c = '/' ∧ ∃ d more, cs = d :: more ∧ (d = '/' ∨ d = '*') := by
  cases piece_finds h with
  | blank skipped => exact absurd skipped hblank
  | lineComment => exact ⟨rfl, '/', _, rfl, .inl rfl⟩
  | emptyComment | doc | comment => exact ⟨rfl, '*', _, rfl, .inr rfl⟩
  | _ => cases hskip

/-- Nothing behind a comment that is followed by something matters. -/
theorem skipped_clipped {found : Piece} (h : piece c (front ++ back) = (found, n))
    (hskip : found.isSkipped = true) (hn : n ≤ front.length) (rest : List Char) :
    piece c (front ++ rest) = (found, n) := by
  by_cases hblank : isSkipped c = true
  · rw [piece_blank hblank] at h ⊢
    exact h
  obtain ⟨rfl, d, more, hopen, hd⟩ := comment_opens h hskip hblank
  cases front with
  | nil => exact absurd (piece_pos h) (Nat.not_lt.mpr hn)
  | cons e front =>
    cases hopen
    rw [List.length_cons] at hn
    rcases hd with rfl | rfl
    · have hread : (Piece.comment, 2 + Enclosed.line (front ++ back)) = (found, n) := h
      cases hread
      have hlt : Enclosed.line (front ++ back) < front.length := by omega
      have hsame := @Numeral.run_inside (fun c => !isNewline c) front back hlt rest
      exact congrArg (fun n => (Piece.comment, 2 + n)) hsame
    · exact comment_clipped h hskip (Nat.le_succ_of_le hn) rest

end Clipped

end Lexer

end JavaSyntax
