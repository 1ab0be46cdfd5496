import JavaSyntax.Proofs.LongestMatch

/-!
Numbers are read by hand, to the end of the longest match.
-/

namespace JavaSyntax.Lexer.Pattern

/-- The pattern matches so many characters at the start of a text. -/
def Reaches (p : Pattern) (cs : List Char) (k : Nat) : Prop :=
  k ≤ cs.length ∧ p.Matches (cs.take k)

section Reaching

variable {p : Char → Bool} {q r s : Pattern} {cs : List Char} {k : Nat}

theorem reaches_seq : (Pattern.seq q r).Reaches cs k ↔
    ∃ i j, k = i + j ∧ q.Reaches cs i ∧ r.Reaches (cs.drop i) j := by
  constructor
  · rintro ⟨hk, front, back, hsplit, hq, hr⟩
    have hlength : k = front.length + back.length := by
      rw [← List.length_append, ← hsplit, List.length_take_of_le hk]
    have hfront : cs.take front.length = front := by
      have htake := congrArg (List.take front.length) hsplit
      rwa [List.take_left, List.take_take, Nat.min_eq_left (by omega)] at htake
    have hback : (cs.drop front.length).take back.length = back := by
      have hdrop := congrArg (List.drop front.length) hsplit
      rw [List.drop_left, List.drop_take] at hdrop
      rwa [show back.length = k - front.length by omega]
    refine ⟨front.length, back.length, hlength, ⟨by omega, hfront.symm ▸ hq⟩, ?_, hback.symm ▸ hr⟩
    rw [List.length_drop]
    omega
  · rintro ⟨i, j, rfl, ⟨hi, hq⟩, hj, hr⟩
    rw [List.length_drop] at hj
    exact ⟨by omega, cs.take i, (cs.drop i).take j, List.take_add, hq, hr⟩

theorem reaches_assoc : (Pattern.seq (.seq q r) s).Reaches cs k ↔
    (Pattern.seq q (.seq r s)).Reaches cs k := by
  simp only [reaches_seq]
  constructor
  · rintro ⟨_, j, rfl, ⟨i, l, rfl, hq, hr⟩, hs⟩
    rw [← List.drop_drop] at hs
    exact ⟨i, l + j, Nat.add_assoc .., hq, l, j, rfl, hr, hs⟩
  · rintro ⟨i, _, rfl, hq, l, j, rfl, hr, hs⟩
    rw [List.drop_drop] at hs
    exact ⟨i + l, j, (Nat.add_assoc ..).symm, ⟨i, l, rfl, hq, hr⟩, hs⟩

theorem reaches_optional : (Pattern.optional q).Reaches cs k ↔ k = 0 ∨ q.Reaches cs k := by
  constructor
  · rintro ⟨hk, hnil | hq⟩
    · have hlength := congrArg List.length hnil
      rw [List.length_take_of_le hk] at hlength
      exact .inl hlength
    · exact .inr ⟨hk, hq⟩
  · rintro (rfl | ⟨hk, hq⟩)
    · exact ⟨Nat.zero_le _, .inl rfl⟩
    · exact ⟨hk, .inr hq⟩

theorem reaches_one : (Pattern.one p).Reaches cs k ↔ k = 1 ∧ cs.head?.any p = true := by
  constructor
  · rintro ⟨hk, c, hc, hp⟩
    have hlength := congrArg List.length hc
    rw [List.length_take_of_le hk] at hlength
    obtain rfl : k = 1 := hlength
    cases cs with
    | nil => cases hc
    | cons d ds =>
      cases hc
      exact ⟨rfl, hp⟩
  · rintro ⟨rfl, hp⟩
    cases cs with
    | nil => cases hp
    | cons d ds => exact ⟨Nat.succ_le_succ (Nat.zero_le _), d, rfl, hp⟩

theorem reaches_many : (Pattern.many p).Reaches cs k ↔ k ≤ Numeral.run p cs := by
  constructor
  · rintro ⟨hk, hall⟩
    have hrun : (cs.take k ++ cs.drop k).takeWhile p = cs.take k ++ (cs.drop k).takeWhile p :=
      List.takeWhile_append_of_pos hall
    rw [List.take_append_drop] at hrun
    rw [Numeral.run, hrun, List.length_append, List.length_take_of_le hk]
    exact Nat.le_add_right ..
  · intro hk
    refine ⟨Nat.le_trans hk (List.takeWhile_prefix _).length_le, fun c hc => ?_⟩
    have hstart : cs.take k <+: cs.takeWhile p := by
      rw [← take_run]
      exact List.take_prefix_take_left hk
    exact List.all_eq_true.mp List.all_takeWhile c (hstart.subset hc)

theorem reaches_text {chars : List Char} :
    (Pattern.text chars).Reaches cs k ↔ k = chars.length ∧ chars <+: cs := by
  constructor
  · rintro ⟨hk, heq⟩
    have htake : cs.take k = chars := heq
    exact ⟨by rw [← htake, List.length_take_of_le hk], htake ▸ List.take_prefix k cs⟩
  · rintro ⟨rfl, hstart⟩
    exact ⟨hstart.length_le, (List.prefix_iff_eq_take.mp hstart).symm⟩

end Reaching

theorem reaches_zero {r : Pattern} {x : Char} {xs : List Char} {j : Nat}
    (hx : r.starts x = false) (h : r.Reaches (x :: xs) j) : j = 0 := by
  cases j with
  | zero => rfl
  | succ j =>
    rw [starts_of_matches h.2] at hx
    cases hx

/-! Runs of characters of a class. -/

/-- What follows the run cannot start with a character of its class. -/
def Stops (p : Char → Bool) (r : Pattern) : Prop :=
  ∀ x, r.starts x = true → p x = false

section Runs

variable {p : Char → Bool} {q r : Pattern} {cs : List Char} {i j k : Nat}

theorem drop_of_lt_run (h : i < Numeral.run p cs) :
    ∃ x xs, cs.drop i = x :: xs ∧ p x = true := by
  have hlt : i < (cs.takeWhile p).length := h
  have hdrop : cs.drop i = (cs.takeWhile p).drop i ++ cs.dropWhile p := by
    conv_lhs => rw [← List.takeWhile_append_dropWhile (p := p) (l := cs)]
    exact List.drop_append_of_le_length (Nat.le_of_lt hlt)
  refine ⟨(cs.takeWhile p)[i], (cs.takeWhile p).drop (i + 1) ++ cs.dropWhile p, ?_, ?_⟩
  · rw [hdrop, List.drop_eq_getElem_cons hlt, List.cons_append]
  · exact List.all_eq_true.mp List.all_takeWhile _ (List.getElem_mem hlt)

theorem run_drop (h : i ≤ Numeral.run p cs) :
    Numeral.run p (cs.drop i) = Numeral.run p cs - i := by
  have hdrop : cs.drop i = (cs.takeWhile p).drop i ++ cs.dropWhile p := by
    conv_lhs => rw [← List.takeWhile_append_dropWhile (p := p) (l := cs)]
    exact List.drop_append_of_le_length h
  have hall : ∀ x ∈ (cs.takeWhile p).drop i, p x = true := fun x hx =>
    List.all_eq_true.mp List.all_takeWhile x (List.mem_of_mem_drop hx)
  have hstop : JavaSyntax.Follows (fun x => !p x) (cs.dropWhile p) := fun x hx => by
    have hnot := List.head?_dropWhile_not p cs
    rw [hx] at hnot
    simpa using hnot
  rw [hdrop, run_append hall hstop, List.length_drop]
  rfl

/-- The run is followed where it ends, or not at all. -/
theorem run_or_zero (hstops : Stops p r) (hi : i ≤ Numeral.run p cs)
    (hr : r.Reaches (cs.drop i) j) : i = Numeral.run p cs ∨ j = 0 := by
  rcases Nat.lt_or_eq_of_le hi with hlt | rfl
  · obtain ⟨x, xs, hdrop, hx⟩ := drop_of_lt_run hlt
    rw [hdrop] at hr
    refine .inr (reaches_zero ?_ hr)
    refine Bool.eq_false_iff.mpr fun hstarts => ?_
    rw [hstops x hstarts] at hx
    cases hx
  · exact .inl rfl

/-- What has to follow follows at the end of the run. -/
theorem run_of_needed (hstops : Stops p r) (hneeded : r.nullable = false)
    (hi : i ≤ Numeral.run p cs) (hr : r.Reaches (cs.drop i) j) : i = Numeral.run p cs := by
  rcases run_or_zero hstops hi hr with hrun | rfl
  · exact hrun
  · rw [(matches_nil r).mp hr.2] at hneeded
    cases hneeded

end Runs

/-! The parts of numbers. -/

section Parts

variable {choices marks : List Char} {r : Pattern} {cs : List Char} {k : Nat}

theorem reaches_oneOf :
    (oneOf choices).Reaches cs k ↔ k = 1 ∧ Numeral.oneOf choices cs = 1 := by
  rw [oneOf, reaches_one]
  cases cs with
  | nil => simp [Numeral.oneOf]
  | cons c cs => simp [Numeral.oneOf]

theorem reaches_atMostOne :
    (optional (oneOf choices)).Reaches cs k ↔ k ≤ Numeral.oneOf choices cs := by
  have hle := Numeral.oneOf_le choices cs
  rw [reaches_optional, reaches_oneOf]
  omega

theorem stops_oneOf {p : Char → Bool} (h : choices.any p = false) : Stops p (oneOf choices) :=
  fun x hx => Bool.eq_false_iff.mpr (List.any_eq_false.mp h x (List.contains_iff_mem.mp hx))

theorem stops_seq {p : Char → Bool} {q : Pattern} (h : Stops p q) (hq : q.nullable = false) :
    Stops p (.seq q r) := fun x hx => h x (by simpa [starts, hq] using hx)

theorem stops_both {p : Char → Bool} {q : Pattern} (hq : Stops p q) (hr : Stops p r) :
    Stops p (.seq q r) := fun x hx => by
  rcases Bool.or_eq_true_iff.mp hx with hx | hx
  · exact hq x hx
  · exact hr x (Bool.and_eq_true_iff.mp hx).2

theorem stops_exponent {p : Char → Bool} (h : marks.any p = false) : Stops p (exponent marks) :=
  stops_seq (stops_oneOf h) rfl

/-- One character and then a run. -/
theorem reaches_plus {p q : Char → Bool} (hpq : ∀ c, p c = true → q c = true) :
    (Pattern.seq (.one p) (.many q)).Reaches cs k ↔
      cs.head?.any p = true ∧ 0 < k ∧ k ≤ Numeral.run q cs := by
  rw [reaches_seq]
  cases cs with
  | nil => simp [reaches_one]
  | cons c cs =>
    simp only [reaches_one, reaches_many, List.head?_cons, Option.any_some]
    constructor
    · rintro ⟨_, j, rfl, ⟨rfl, hc⟩, hj⟩
      rw [Numeral.run, List.takeWhile_cons_of_pos (hpq c hc), List.length_cons]
      exact ⟨hc, by omega, by rw [Nat.add_comm]; exact Nat.succ_le_succ hj⟩
    · rintro ⟨hc, hpos, hk⟩
      rw [Numeral.run, List.takeWhile_cons_of_pos (hpq c hc), List.length_cons] at hk
      exact ⟨1, k - 1, by omega, ⟨rfl, hc⟩, by
        show k - 1 ≤ (cs.takeWhile q).length
        omega⟩

theorem reaches_digits : digits.Reaches cs k ↔
    cs.head?.any Char.isDigit = true ∧ 0 < k ∧ k ≤ Numeral.run Numeral.isDecimal cs :=
  reaches_plus fun c hc => by simp [Numeral.isDecimal, hc]

theorem reaches_exponent : (exponent marks).Reaches cs k ↔ Numeral.oneOf marks cs = 1 ∧
    ∃ d, k = 1 + Numeral.oneOf ['+', '-'] (cs.drop 1) + d ∧
      digits.Reaches (cs.drop (1 + Numeral.oneOf ['+', '-'] (cs.drop 1))) d := by
  simp only [exponent, reaches_seq, reaches_oneOf, reaches_atMostOne]
  constructor
  · rintro ⟨_, _, rfl, ⟨rfl, hmark⟩, sign, d, rfl, hsign, hd⟩
    have hle := Numeral.oneOf_le ['+', '-'] (cs.drop 1)
    -- A sign that is there is no digit, so it is taken.
    have htaken : sign = Numeral.oneOf ['+', '-'] (cs.drop 1) := by
      refine Nat.le_antisymm hsign (Nat.le_of_not_lt fun hlt => ?_)
      obtain rfl : sign = 0 := by omega
      have hone : Numeral.oneOf ['+', '-'] (cs.drop 1) = 1 := by omega
      have hdigit := (reaches_digits.mp hd).1
      rw [List.drop_zero] at hdigit
      cases hdrop : cs.drop 1 with
      | nil =>
        rw [hdrop] at hdigit
        cases hdigit
      | cons c ds =>
        rw [hdrop] at hone hdigit
        have hc : c = '+' ∨ c = '-' :=
          or_iff_not_imp_left.mpr (by simpa [Numeral.oneOf] using hone)
        rcases hc with rfl | rfl <;> cases hdigit
    rw [List.drop_drop] at hd
    exact ⟨hmark, d, by omega, htaken ▸ hd⟩
  · rintro ⟨hmark, d, rfl, hd⟩
    rw [← List.drop_drop] at hd
    exact ⟨1, _, Nat.add_assoc .., ⟨rfl, hmark⟩, _, d, rfl, Nat.le_refl _, hd⟩

theorem exponent_of_digits (hmark : Numeral.oneOf marks cs = 1) {d : Nat}
    (hd : digits.Reaches (cs.drop (1 + Numeral.oneOf ['+', '-'] (cs.drop 1))) d) :
    Numeral.exponent marks cs = 1 + Numeral.oneOf ['+', '-'] (cs.drop 1) +
      Numeral.run Numeral.isDecimal (cs.drop (1 + Numeral.oneOf ['+', '-'] (cs.drop 1))) := by
  rw [Numeral.exponent_eq, if_pos hmark, Numeral.digits, if_pos (reaches_digits.mp hd).1]

theorem stops_floatSuffix : Stops Numeral.isDecimal floatSuffix :=
  stops_oneOf (by decide)

/-- An exponent with the suffix of a floating-point number goes as far as it is measured. -/
theorem reaches_scale (h : (Pattern.seq (exponent marks) floatSuffix).Reaches cs k) :
    0 < Numeral.exponent marks cs ∧ k ≤ Numeral.floatTail marks cs := by
  obtain ⟨_, j, rfl, hexponent, hj⟩ := reaches_seq.mp h
  obtain ⟨hmark, d, rfl, hd⟩ := reaches_exponent.mp hexponent
  have hvalue := exponent_of_digits hmark hd
  obtain ⟨-, hpos, hle⟩ := reaches_digits.mp hd
  rw [← List.drop_drop] at hj
  refine ⟨by omega, ?_⟩
  unfold Numeral.floatTail
  dsimp only
  rcases run_or_zero stops_floatSuffix hle hj with rfl | rfl
  · rw [List.drop_drop, ← hvalue] at hj
    have hsuffix : j ≤ Numeral.floatSuffix (cs.drop (Numeral.exponent marks cs)) :=
      reaches_atMostOne.mp hj
    omega
  · omega

theorem scale_reaches (h : 0 < Numeral.exponent marks cs) :
    (Pattern.seq (exponent marks) floatSuffix).Reaches cs (Numeral.floatTail marks cs) := by
  refine reaches_seq.mpr ⟨_, _, rfl, reaches_exponent.mpr ?_, reaches_atMostOne.mpr (Nat.le_refl _)⟩
  rw [Numeral.exponent_eq] at h ⊢
  split at h
  · rename_i hmark
    rw [if_pos hmark]
    unfold Numeral.digits at h ⊢
    split at h
    · rename_i hdigit
      rw [if_pos hdigit]
      refine ⟨hmark, _, rfl, reaches_digits.mpr ⟨hdigit, ?_, Nat.le_refl _⟩⟩
      cases hdrop : cs.drop (1 + Numeral.oneOf ['+', '-'] (cs.drop 1)) with
      | nil =>
        rw [hdrop] at hdigit
        cases hdigit
      | cons c ds =>
        rw [hdrop] at hdigit
        exact run_pos ds (by simp [Numeral.isDecimal, show c.isDigit = true from hdigit])
    · cases h
  · cases h

theorem not_mem_of_apart (happart : marks.all (fun c => !choices.contains c) = true) {c : Char}
    (hc : c ∈ marks) : c ∉ choices := by
  simpa using List.all_eq_true.mp happart c hc

/-- Of two classes that have no character in common one at most is what comes next. -/
theorem oneOf_apart (happart : marks.all (fun c => !choices.contains c) = true)
    (h : Numeral.oneOf marks cs = 1) : Numeral.oneOf choices cs = 0 := by
  cases cs with
  | nil => rfl
  | cons c cs =>
    have hc : c ∈ marks := by simpa [Numeral.oneOf] using h
    have hnot := not_mem_of_apart happart hc
    simp only [Numeral.oneOf, List.contains_iff_mem, hnot, if_false]

theorem oneOf_of_exponent (h : 0 < Numeral.exponent marks cs) : Numeral.oneOf marks cs = 1 := by
  rw [Numeral.exponent_eq] at h
  split at h
  · assumption
  · cases h

theorem reaches_floatTail (h : floatTail.Reaches cs k) :
    k ≤ Numeral.floatTail ['e', 'E'] cs := by
  obtain ⟨i, j, rfl, hi, hj⟩ := reaches_seq.mp h
  rcases reaches_optional.mp hi with rfl | hi
  · have hsuffix : j ≤ Numeral.floatSuffix cs := reaches_atMostOne.mp hj
    unfold Numeral.floatTail
    dsimp only
    rcases Nat.eq_zero_or_pos (Numeral.exponent ['e', 'E'] cs) with hnone | hpos
    · rw [hnone, List.drop_zero]
      omega
    · have hzero : Numeral.floatSuffix cs = 0 := oneOf_apart (by decide) (oneOf_of_exponent hpos)
      omega
  · exact (reaches_scale (reaches_seq.mpr ⟨i, j, rfl, hi, hj⟩)).2

theorem floatTail_reaches (cs : List Char) :
    floatTail.Reaches cs (Numeral.floatTail ['e', 'E'] cs) := by
  rcases Nat.eq_zero_or_pos (Numeral.exponent ['e', 'E'] cs) with hnone | hpos
  · refine reaches_seq.mpr ⟨0, _, (Nat.zero_add _).symm, reaches_optional.mpr (.inl rfl), ?_⟩
    unfold Numeral.floatTail
    dsimp only
    rw [hnone, List.drop_zero, Nat.zero_add]
    exact reaches_atMostOne.mpr (Nat.le_refl _)
  · obtain ⟨i, j, hsum, hi, hj⟩ := reaches_seq.mp (scale_reaches hpos)
    rw [hsum]
    exact reaches_seq.mpr ⟨i, j, rfl, reaches_optional.mpr (.inr hi), hj⟩

/-- A run of digits with a tail goes on behind all of the digits, or ends among them. -/
theorem le_of_tail {i j : Nat} (hi : i ≤ Numeral.run Numeral.isDecimal cs)
    (hj : floatTail.Reaches (cs.drop i) j) : i + j ≤ Numeral.run Numeral.isDecimal cs +
      Numeral.floatTail ['e', 'E'] (cs.drop (Numeral.run Numeral.isDecimal cs)) := by
  have htail : Stops Numeral.isDecimal floatTail :=
    stops_both (stops_exponent (by decide) : Stops _ (.exponent ['e', 'E'])) stops_floatSuffix
  rcases run_or_zero htail hi hj with rfl | rfl
  · exact Nat.add_le_add_left (reaches_floatTail hj) _
  · omega

end Parts

end JavaSyntax.Lexer.Pattern

namespace JavaSyntax.Lexer.Matcher

open Pattern

/-! The numbers in base ten. -/

section Decimal

variable {cs rest : List Char} {n k : Nat}

/-- The text goes on like this behind its digits. -/
structure Digits (cs rest : List Char) (n : Nat) : Prop where
  digit : cs.head?.any Char.isDigit = true
  run : Numeral.run Numeral.isDecimal cs = n
  rest : cs.drop n = rest

theorem Digits.reaches (h : Digits cs rest n) {r : Pattern}
    (hneeded : r.nullable = false) (hstops : Stops Numeral.isDecimal r)
    (hreaches : (Pattern.seq digits r).Reaches cs k) :
    ∃ j, k = n + j ∧ r.Reaches rest j := by
  obtain ⟨i, j, rfl, hi, hj⟩ := reaches_seq.mp hreaches
  obtain rfl : i = n := h.run ▸ run_of_needed hstops hneeded (reaches_digits.mp hi).2.2 hj
  exact ⟨j, rfl, h.rest ▸ hj⟩

theorem Digits.digits (h : Digits cs rest n) : digits.Reaches cs n := by
  refine reaches_digits.mpr ⟨h.digit, ?_, Nat.le_of_eq h.run.symm⟩
  obtain ⟨digit, rfl, -⟩ := h
  cases cs with
  | nil => cases digit
  | cons c cs => exact run_pos cs (by simp [Numeral.isDecimal, show c.isDigit = true from digit])

theorem Digits.reaches_decimalInteger (h : Digits cs rest n)
    (hreaches : decimalInteger.pattern.Reaches cs k) : k ≤ n + Numeral.longSuffix rest := by
  obtain ⟨i, j, rfl, hi, hj⟩ := reaches_seq.mp hreaches
  have hle := (reaches_digits.mp hi).2.2
  have hstops : Stops Numeral.isDecimal longSuffix :=
    (stops_oneOf (by decide) : Stops Numeral.isDecimal (oneOf ['l', 'L']))
  obtain ⟨-, rfl, rfl⟩ := h
  rcases run_or_zero hstops hle hj with rfl | rfl
  · exact Nat.add_le_add_left (reaches_atMostOne.mp hj) _
  · omega

theorem Digits.reaches_suffixed (h : Digits cs rest n)
    (hreaches : suffixed.pattern.Reaches cs k) : Numeral.floatSuffix rest = 1 ∧ k = n + 1 := by
  obtain ⟨j, rfl, hj⟩ := h.reaches rfl (stops_oneOf (by decide)) hreaches
  obtain ⟨rfl, hsuffix⟩ := reaches_oneOf.mp hj
  exact ⟨hsuffix, rfl⟩

theorem Digits.reaches_scaled (h : Digits cs rest n) (hreaches : scaled.pattern.Reaches cs k) :
    0 < Numeral.exponent ['e', 'E'] rest ∧ k ≤ n + Numeral.floatTail ['e', 'E'] rest := by
  have hstops : Stops Numeral.isDecimal (.seq (.exponent ['e', 'E']) floatSuffix) :=
    stops_seq (stops_exponent (by decide)) rfl
  obtain ⟨j, rfl, hj⟩ := h.reaches rfl hstops hreaches
  obtain ⟨hpos, hle⟩ := reaches_scale hj
  exact ⟨hpos, Nat.add_le_add_left hle _⟩

theorem reaches_point {r : Pattern} {cs : List Char} :
    (Pattern.seq (.text ['.']) r).Reaches cs k ↔
      ∃ more j, cs = '.' :: more ∧ k = 1 + j ∧ r.Reaches more j := by
  rw [reaches_seq]
  constructor
  · rintro ⟨_, j, rfl, hpoint, hj⟩
    obtain ⟨rfl, more, rfl⟩ := reaches_text.mp hpoint
    exact ⟨more, j, rfl, rfl, hj⟩
  · rintro ⟨more, j, rfl, rfl, hj⟩
    exact ⟨1, j, rfl, reaches_text.mpr ⟨rfl, more, rfl⟩, hj⟩

theorem Digits.reaches_pointed (h : Digits cs rest n) (hreaches : pointed.pattern.Reaches cs k) :
    ∃ more, rest = '.' :: more ∧ k ≤ n + 1 + Numeral.run Numeral.isDecimal more +
      Numeral.floatTail ['e', 'E'] (more.drop (Numeral.run Numeral.isDecimal more)) := by
  have hstops : Stops Numeral.isDecimal
      (.seq (.text ['.']) (.seq (.many Numeral.isDecimal) floatTail)) :=
    stops_seq (fun x hx => by
      obtain rfl : '.' = x := by simpa [starts] using hx
      rfl) rfl
  obtain ⟨_, rfl, hpoint⟩ := h.reaches rfl hstops hreaches
  obtain ⟨more, _, rfl, rfl, hbehind⟩ := reaches_point.mp hpoint
  obtain ⟨i, j, rfl, hi, hj⟩ := reaches_seq.mp hbehind
  have hle := le_of_tail (reaches_many.mp hi) hj
  exact ⟨more, rfl, by omega⟩

theorem fraction_cons (cs : List Char) : Numeral.fraction ('.' :: cs) =
    1 + (Numeral.run Numeral.isDecimal cs +
      Numeral.floatTail ['e', 'E'] (cs.drop (Numeral.run Numeral.isDecimal cs))) := by
  unfold Numeral.fraction
  dsimp only
  rw [List.drop_one, List.tail_cons, Nat.add_comm 1 (Numeral.run _ _), List.drop_succ_cons]
  omega

theorem reaches_fraction (h : fraction.pattern.Reaches ('.' :: cs) k) :
    k ≤ Numeral.fraction ('.' :: cs) := by
  obtain ⟨more, _, heq, rfl, hmore⟩ := reaches_point.mp h
  cases heq
  obtain ⟨i, j, rfl, hi, hj⟩ := reaches_seq.mp hmore
  rw [fraction_cons]
  exact Nat.add_le_add_left (le_of_tail (reaches_digits.mp hi).2.2 hj) 1

theorem fraction_reaches {d : Char} (hd : d.isDigit = true) (cs : List Char) :
    fraction.pattern.Reaches ('.' :: d :: cs) (Numeral.fraction ('.' :: d :: cs)) := by
  have hdigits : Digits (d :: cs) _ _ := ⟨hd, rfl, rfl⟩
  rw [fraction_cons]
  exact reaches_point.mpr ⟨_, _, rfl, rfl, reaches_seq.mpr ⟨_, _, rfl, hdigits.digits,
    floatTail_reaches _⟩⟩

end Decimal

/-- The matchers of numbers with the kind of their tokens. -/
def number? : Matcher → Option Kind
  | hexInteger | binaryInteger | decimalInteger => some .integerLit
  | pointed | scaled | suffixed | hexFloat => some .floatingLit
  | _ => none

/-- A number of this kind and length, and no longer one. -/
structure Decides (cs : List Char) (kind : Kind) (n : Nat) : Prop where
  reached : ∃ m : Matcher, m.number? = some kind ∧ m.pattern.Reaches cs n
  longest : ∀ (m : Matcher) k, m.number?.isSome = true → m.pattern.Reaches cs k →
    k < n ∨ k = n ∧ m.number? = some kind

section Decimal

variable {cs : List Char} {n k : Nat}

/-- The text is no number in another base. -/
def Plain (cs : List Char) : Prop :=
  ∀ k, ¬hexInteger.pattern.Reaches cs k ∧ ¬hexFloat.pattern.Reaches cs k ∧
    ¬binaryInteger.pattern.Reaches cs k

/-- A tail is an exponent or a suffix. -/
theorem floatTail_cases {rest : List Char} (h : 0 < Numeral.floatTail ['e', 'E'] rest) :
    0 < Numeral.exponent ['e', 'E'] rest ∨ Numeral.floatSuffix rest = 1 := by
  rcases Nat.eq_zero_or_pos (Numeral.exponent ['e', 'E'] rest) with hnone | hpos
  · unfold Numeral.floatTail at h
    dsimp only at h
    rw [hnone, List.drop_zero, Nat.zero_add] at h
    exact .inr (Nat.le_antisymm (Numeral.oneOf_le ['f', 'F', 'd', 'D'] rest) h)
  · exact .inl hpos

theorem longSuffix_of_floatTail {rest : List Char}
    (h : 0 < Numeral.floatTail ['e', 'E'] rest) : Numeral.longSuffix rest = 0 := by
  rcases floatTail_cases h with hpos | hsuffix
  · exact oneOf_apart (by decide) (oneOf_of_exponent hpos)
  · exact oneOf_apart (by decide) hsuffix

theorem head_of_oneOf {choices rest : List Char} {c : Char} (hc : choices.contains c = false)
    (h : Numeral.oneOf choices rest = 1) : rest.head? ≠ some c := by
  intro hhead
  obtain ⟨more, rfl⟩ := List.head?_eq_some_iff.mp hhead
  simp only [Numeral.oneOf, hc, Bool.false_eq_true, if_false] at h
  cases h

theorem floatTail_of_suffix {rest : List Char} (h : Numeral.floatSuffix rest = 1) :
    Numeral.floatTail ['e', 'E'] rest = 1 := by
  have hnone : Numeral.exponent ['e', 'E'] rest = 0 := by
    refine Nat.eq_zero_of_not_pos fun hpos => ?_
    have hzero : Numeral.oneOf ['e', 'E'] rest = 0 := oneOf_apart (by decide) h
    rw [oneOf_of_exponent hpos] at hzero
    cases hzero
  unfold Numeral.floatTail
  dsimp only
  rw [hnone, List.drop_zero, h]

/-- In base ten the longest match is found by what stands behind the digits. -/
theorem decides_of_digits {kind : Kind} {rest : List Char} (hdigits : Digits cs rest n)
    (hplain : Plain cs) {length : Nat}
    (hreached : ∃ m : Matcher, m.number? = some kind ∧ m.pattern.Reaches cs length)
    (hinteger : n + Numeral.longSuffix rest < length ∨
      n + Numeral.longSuffix rest = length ∧ kind = .integerLit)
    (hpointed : ∀ more, rest = '.' :: more → kind = .floatingLit ∧
      n + 1 + Numeral.run Numeral.isDecimal more +
        Numeral.floatTail ['e', 'E'] (more.drop (Numeral.run Numeral.isDecimal more)) ≤ length)
    (htail : rest.head? ≠ some '.' → 0 < Numeral.floatTail ['e', 'E'] rest →
      kind = .floatingLit ∧ n + Numeral.floatTail ['e', 'E'] rest ≤ length) :
    Decides cs kind length := by
  refine ⟨hreached, fun m k hm hreaches => ?_⟩
  have hfloating (hkind : kind = .floatingLit) {k : Nat} (hle : k ≤ length) :
      k < length ∨ k = length ∧ some Kind.floatingLit = some kind := by
    rcases Nat.lt_or_eq_of_le hle with hlt | rfl
    · exact .inl hlt
    · exact .inr ⟨rfl, hkind ▸ rfl⟩
  cases m with
  | hexInteger => exact absurd hreaches (hplain k).1
  | hexFloat => exact absurd hreaches (hplain k).2.1
  | binaryInteger => exact absurd hreaches (hplain k).2.2
  | decimalInteger =>
    have hle := hdigits.reaches_decimalInteger hreaches
    rcases hinteger with hlt | ⟨rfl, rfl⟩
    · exact .inl (Nat.lt_of_le_of_lt hle hlt)
    · rcases Nat.lt_or_eq_of_le hle with hlt | rfl
      · exact .inl hlt
      · exact .inr ⟨rfl, rfl⟩
  | pointed =>
    obtain ⟨more, hmore, hle⟩ := hdigits.reaches_pointed hreaches
    obtain ⟨hkind, hlength⟩ := hpointed more hmore
    exact hfloating hkind (Nat.le_trans hle hlength)
  | scaled =>
    obtain ⟨hpos, hle⟩ := hdigits.reaches_scaled hreaches
    have hpos' : 0 < Numeral.floatTail ['e', 'E'] rest :=
      Nat.lt_of_lt_of_le hpos (Numeral.exponent_le_floatTail ..)
    obtain ⟨hkind, hlength⟩ := htail (head_of_oneOf rfl (oneOf_of_exponent hpos)) hpos'
    exact hfloating hkind (Nat.le_trans hle hlength)
  | suffixed =>
    obtain ⟨hsuffix, rfl⟩ := hdigits.reaches_suffixed hreaches
    have htail' := floatTail_of_suffix hsuffix
    obtain ⟨hkind, hlength⟩ := htail (head_of_oneOf rfl hsuffix) (by omega)
    exact hfloating hkind (by omega)
  | _ => cases hm

theorem decimal_decides (hdigit : cs.head?.any Char.isDigit = true) (hplain : Plain cs) :
    Decides cs (Numeral.decimal cs).1 (Numeral.decimal cs).2 := by
  generalize hn : Numeral.run Numeral.isDecimal cs = n
  generalize hrest : cs.drop n = rest
  have hdigits : Digits cs rest n := ⟨hdigit, hn, hrest⟩
  unfold Numeral.decimal
  simp only [hn, hrest]
  split
  · rename_i hpoint
    obtain ⟨more, rfl⟩ := List.head?_eq_some_iff.mp hpoint
    have hbehind : cs.drop (n + 1 + Numeral.run Numeral.isDecimal more) =
        more.drop (Numeral.run Numeral.isDecimal more) := by
      rw [← List.drop_drop, ← List.drop_drop, hrest, List.drop_one, List.tail_cons]
    rw [List.drop_one, List.tail_cons, hbehind]
    refine decides_of_digits hdigits hplain ⟨pointed, rfl, ?_⟩ (.inl ?_) ?_ nofun
    · refine reaches_seq.mpr ⟨n, _, ?_, hdigits.digits, reaches_point.mpr ⟨more, _, hrest, rfl,
        reaches_seq.mpr ⟨_, _, rfl, reaches_many.mpr (Nat.le_refl _), floatTail_reaches _⟩⟩⟩
      simp only [Nat.add_assoc]
    · have hnone : Numeral.longSuffix ('.' :: more) = 0 := rfl
      omega
    · rintro _ ⟨⟩
      exact ⟨rfl, Nat.le_refl _⟩
  · rename_i hpoint
    split
    · rename_i htail
      have hnone := longSuffix_of_floatTail htail
      refine decides_of_digits hdigits hplain ?_ (.inl (by omega)) ?_
        fun _ _ => ⟨rfl, Nat.le_refl _⟩
      · rcases floatTail_cases htail with hpos | hsuffix
        · refine ⟨scaled, rfl, reaches_seq.mpr ⟨n, _, rfl, hdigits.digits, ?_⟩⟩
          rw [hrest]
          exact scale_reaches hpos
        · refine ⟨suffixed, rfl, reaches_seq.mpr ⟨n, _, rfl, hdigits.digits, ?_⟩⟩
          rw [hrest]
          exact reaches_oneOf.mpr ⟨floatTail_of_suffix hsuffix, hsuffix⟩
      · rintro more rfl
        exact absurd rfl hpoint
    · rename_i htail
      refine decides_of_digits hdigits hplain ⟨decimalInteger, rfl, ?_⟩ (.inr ⟨rfl, rfl⟩) ?_
        fun _ hpos => absurd hpos htail
      · exact reaches_seq.mpr ⟨n, _, rfl, hdigits.digits,
          hrest ▸ reaches_atMostOne.mpr (Nat.le_refl _)⟩
      · rintro more rfl
        exact absurd rfl hpoint

end Decimal

/-! The numbers in other bases. -/

section Based

variable {marks : List Char} {p : Char → Bool} {r : Pattern} {x : Char} {cs ds : List Char}
  {n k : Nat}

theorem reaches_based : (Pattern.based marks r).Reaches cs k ↔
    ∃ x ds j, cs = '0' :: x :: ds ∧ x ∈ marks ∧ k = 2 + j ∧ r.Reaches ds j := by
  simp only [Pattern.based, reaches_seq, reaches_oneOf]
  constructor
  · rintro ⟨_, _, rfl, hzero, _, j, rfl, ⟨rfl, hmark⟩, hj⟩
    obtain ⟨rfl, rest, rfl⟩ := reaches_text.mp hzero
    cases rest with
    | nil => cases hmark
    | cons x ds =>
      have hx : x ∈ marks := by simpa [Numeral.oneOf] using hmark
      exact ⟨x, ds, j, rfl, hx, by simp only [List.length_singleton]; omega, hj⟩
  · rintro ⟨x, ds, j, rfl, hx, rfl, hj⟩
    exact ⟨1, 1 + j, by omega, reaches_text.mpr ⟨rfl, x :: ds, rfl⟩, 1, j, rfl,
      ⟨rfl, by simp [Numeral.oneOf, hx]⟩, hj⟩

theorem reaches_basedInteger (hstops : Stops p longSuffix)
    (h : (Pattern.seq (.one p) (.seq (.many p) longSuffix)).Reaches ds k) :
    0 < Numeral.run p ds ∧
      k ≤ Numeral.run p ds + Numeral.longSuffix (ds.drop (Numeral.run p ds)) := by
  obtain ⟨i, j, rfl, hi, hj⟩ := reaches_seq.mp (reaches_assoc.mpr h)
  obtain ⟨-, hpos, hle⟩ := (reaches_plus fun _ => id).mp hi
  refine ⟨by omega, ?_⟩
  rcases run_or_zero hstops hle hj with rfl | rfl
  · exact Nat.add_le_add_left (reaches_atMostOne.mp hj) _
  · omega

theorem basedInteger_reaches (h : 0 < Numeral.run p ds) :
    (Pattern.seq (.one p) (.seq (.many p) longSuffix)).Reaches ds
      (Numeral.run p ds + Numeral.longSuffix (ds.drop (Numeral.run p ds))) := by
  refine reaches_assoc.mp (reaches_seq.mpr ⟨_, _, rfl, (reaches_plus fun _ => id).mpr
    ⟨?_, h, Nat.le_refl _⟩, reaches_atMostOne.mpr (Nat.le_refl _)⟩)
  obtain ⟨c, cs, hcs, hc⟩ := drop_of_lt_run h
  rw [List.drop_zero] at hcs
  rw [hcs]
  exact hc

/-- Behind the mark of a base there is no number in base ten but the zero in front of it. -/
theorem digits_based (hx : x ∈ ['x', 'X', 'b', 'B']) :
    Digits ('0' :: x :: ds) (x :: ds) 1 := by
  refine ⟨rfl, ?_, rfl⟩
  have hnot : ['x', 'X', 'b', 'B'].any Numeral.isDecimal = false := by decide
  simp [Numeral.run, List.any_eq_false.mp hnot x hx, show Numeral.isDecimal '0' = true from rfl]

/-- How far a hexadecimal floating-point number goes. -/
theorem reaches_hexTail
    (h : (Pattern.seq (.many Numeral.isHex) (.seq (.exponent ['p', 'P']) floatSuffix)).Reaches
      ds k) : 0 < Numeral.exponent ['p', 'P'] (ds.drop (Numeral.run Numeral.isHex ds)) ∧
    k ≤ Numeral.run Numeral.isHex ds +
      Numeral.floatTail ['p', 'P'] (ds.drop (Numeral.run Numeral.isHex ds)) := by
  obtain ⟨i, j, rfl, hi, hj⟩ := reaches_seq.mp h
  have hstops : Stops Numeral.isHex (.seq (.exponent ['p', 'P']) floatSuffix) :=
    stops_seq (stops_exponent (by decide)) rfl
  obtain rfl := run_of_needed hstops rfl (reaches_many.mp hi) hj
  obtain ⟨hpos, hle⟩ := reaches_scale hj
  exact ⟨hpos, Nat.add_le_add_left hle _⟩

theorem hexTail_reaches
    (h : 0 < Numeral.exponent ['p', 'P'] (ds.drop (Numeral.run Numeral.isHex ds))) :
    (Pattern.seq (.many Numeral.isHex) (.seq (.exponent ['p', 'P']) floatSuffix)).Reaches ds
      (Numeral.run Numeral.isHex ds +
        Numeral.floatTail ['p', 'P'] (ds.drop (Numeral.run Numeral.isHex ds))) :=
  reaches_seq.mpr ⟨_, _, rfl, reaches_many.mpr (Nat.le_refl _), scale_reaches h⟩

/-- A hexadecimal floating-point number has its exponent behind its digits, or behind its point and
more digits. -/
theorem reaches_hexFloat (h : hexFloat.pattern.Reaches ('0' :: x :: ds) k) : x ∈ ['x', 'X'] ∧
    ((0 < Numeral.exponent ['p', 'P'] (ds.drop (Numeral.run Numeral.isHex ds)) ∧
        k ≤ 2 + (Numeral.run Numeral.isHex ds +
          Numeral.floatTail ['p', 'P'] (ds.drop (Numeral.run Numeral.isHex ds)))) ∨
      ∃ more, ds.drop (Numeral.run Numeral.isHex ds) = '.' :: more ∧
        0 < Numeral.exponent ['p', 'P'] (more.drop (Numeral.run Numeral.isHex more)) ∧
        k ≤ 2 + (Numeral.run Numeral.isHex ds + (1 + (Numeral.run Numeral.isHex more +
          Numeral.floatTail ['p', 'P'] (more.drop (Numeral.run Numeral.isHex more)))))) := by
  obtain ⟨_, _, j, heq, hx, rfl, hj⟩ := reaches_based.mp h
  cases heq
  refine ⟨hx, ?_⟩
  obtain ⟨i, _, rfl, hi, hrest⟩ := reaches_seq.mp hj
  obtain ⟨l, j, rfl, hl, hj⟩ := reaches_seq.mp hrest
  have hle := reaches_many.mp hi
  rcases reaches_optional.mp hl with rfl | hpoint
  · -- Without a point the two runs are one.
    obtain ⟨hpos, hlength⟩ := reaches_hexTail hj
    rw [List.drop_zero, run_drop hle, List.drop_drop, Nat.add_sub_cancel' hle] at hpos hlength
    exact .inl ⟨hpos, by omega⟩
  · obtain ⟨rfl, more, hmore⟩ := reaches_text.mp hpoint
    rw [← hmore] at hj
    obtain ⟨hpos, hlength⟩ := reaches_hexTail hj
    obtain rfl : i = Numeral.run Numeral.isHex ds := by
      refine Nat.le_antisymm hle (Nat.le_of_not_lt fun hlt => ?_)
      obtain ⟨c, cs, hcs, hc⟩ := drop_of_lt_run hlt
      rw [hcs] at hmore
      cases hmore
      cases hc
    exact .inr ⟨more, hmore.symm, hpos, by
      simp only [List.length_singleton, List.singleton_append, List.drop_succ_cons,
        List.drop_zero] at hlength ⊢
      omega⟩

theorem hexInteger_reaches (hx : x ∈ ['x', 'X']) (h : 0 < Numeral.run Numeral.isHex ds) :
    hexInteger.pattern.Reaches ('0' :: x :: ds) (2 + (Numeral.run Numeral.isHex ds +
      Numeral.longSuffix (ds.drop (Numeral.run Numeral.isHex ds)))) :=
  reaches_based.mpr ⟨x, ds, _, rfl, hx, rfl, basedInteger_reaches h⟩

theorem hexFloat_reaches (hx : x ∈ ['x', 'X'])
    (h : 0 < Numeral.exponent ['p', 'P'] (ds.drop (Numeral.run Numeral.isHex ds))) :
    hexFloat.pattern.Reaches ('0' :: x :: ds) (2 + (Numeral.run Numeral.isHex ds +
      Numeral.floatTail ['p', 'P'] (ds.drop (Numeral.run Numeral.isHex ds)))) := by
  refine reaches_based.mpr ⟨x, ds, _, rfl, hx, rfl, reaches_seq.mpr ⟨_, _, rfl,
    reaches_many.mpr (Nat.le_refl _), reaches_seq.mpr ⟨0, _, (Nat.zero_add _).symm,
      reaches_optional.mpr (.inl rfl), ?_⟩⟩⟩
  refine reaches_seq.mpr ⟨0, _, (Nat.zero_add _).symm, reaches_many.mpr (Nat.zero_le _), ?_⟩
  exact scale_reaches h

theorem pointedHex_reaches (hx : x ∈ ['x', 'X']) {more : List Char}
    (hmore : ds.drop (Numeral.run Numeral.isHex ds) = '.' :: more)
    (h : 0 < Numeral.exponent ['p', 'P'] (more.drop (Numeral.run Numeral.isHex more))) :
    hexFloat.pattern.Reaches ('0' :: x :: ds) (2 + (Numeral.run Numeral.isHex ds +
      (1 + (Numeral.run Numeral.isHex more +
        Numeral.floatTail ['p', 'P'] (more.drop (Numeral.run Numeral.isHex more)))))) := by
  refine reaches_based.mpr ⟨x, ds, _, rfl, hx, rfl, reaches_seq.mpr ⟨_, _, rfl,
    reaches_many.mpr (Nat.le_refl _), reaches_seq.mpr ⟨1, _, rfl,
      reaches_optional.mpr (.inr (reaches_text.mpr ⟨rfl, more, hmore.symm⟩)), ?_⟩⟩⟩
  rw [hmore]
  exact hexTail_reaches h

theorem lt_or_same {kind l : Kind} (h : k ≤ n) (hl : kind = l) : k < n ∨ k = n ∧ kind = l :=
  (Nat.lt_or_eq_of_le h).imp_right fun heq => ⟨heq, hl⟩

/-- With a mark of a base the longest match is one of that base, or else the zero. -/
theorem decides_of_based {kind : Kind} (hx : x ∈ ['x', 'X', 'b', 'B'])
    (hreached : ∃ m : Matcher, m.number? = some kind ∧ m.pattern.Reaches ('0' :: x :: ds) n)
    (hzero : 1 < n ∨ 1 = n ∧ kind = .integerLit)
    (hinteger : ∀ k, hexInteger.pattern.Reaches ('0' :: x :: ds) k ∨
      binaryInteger.pattern.Reaches ('0' :: x :: ds) k → k < n ∨ k = n ∧ kind = .integerLit)
    (hfloat : ∀ k, hexFloat.pattern.Reaches ('0' :: x :: ds) k →
      k < n ∨ k = n ∧ kind = .floatingLit) : Decides ('0' :: x :: ds) kind n := by
  have hdigits := @digits_based x ds hx
  have hbase : Numeral.oneOf ['x', 'X', 'b', 'B'] (x :: ds) = 1 :=
    if_pos (List.contains_iff_mem.mpr hx)
  refine ⟨hreached, fun m k hm hreaches => ?_⟩
  have hkind {l : Kind} (h : k < n ∨ k = n ∧ kind = l) : k < n ∨ k = n ∧ some l = some kind :=
    h.imp_right fun h => ⟨h.1, congrArg some h.2.symm⟩
  cases m with
  | hexInteger => exact hkind (hinteger k (.inl hreaches))
  | binaryInteger => exact hkind (hinteger k (.inr hreaches))
  | hexFloat => exact hkind (hfloat k hreaches)
  | decimalInteger =>
    have hle := hdigits.reaches_decimalInteger hreaches
    rw [show Numeral.longSuffix (x :: ds) = 0 from oneOf_apart (by decide) hbase] at hle
    rcases hzero with hlt | ⟨rfl, hone⟩
    · exact .inl (by omega)
    · exact hkind (lt_or_same hle hone)
  | pointed =>
    obtain ⟨more, hmore, -⟩ := hdigits.reaches_pointed hreaches
    cases hmore
    simp at hx
  | scaled =>
    have hmark := oneOf_of_exponent (hdigits.reaches_scaled hreaches).1
    rw [oneOf_apart (by decide) hbase] at hmark
    cases hmark
  | suffixed =>
    have hsuffix : Numeral.oneOf ['f', 'F', 'd', 'D'] (x :: ds) = 1 :=
      (hdigits.reaches_suffixed hreaches).1
    rw [oneOf_apart (by decide) hbase] at hsuffix
    cases hsuffix
  | _ => cases hm

theorem zero_reaches (hx : x ∈ ['x', 'X', 'b', 'B']) :
    decimalInteger.pattern.Reaches ('0' :: x :: ds) 1 :=
  reaches_seq.mpr ⟨1, 0, rfl, (digits_based hx).digits, reaches_optional.mpr (.inl rfl)⟩

theorem reaches_hexInteger (hx : x ∈ ['x', 'X'])
    (h : hexInteger.pattern.Reaches ('0' :: x :: ds) k ∨
      binaryInteger.pattern.Reaches ('0' :: x :: ds) k) : 0 < Numeral.run Numeral.isHex ds ∧
    k ≤ 2 + (Numeral.run Numeral.isHex ds +
      Numeral.longSuffix (ds.drop (Numeral.run Numeral.isHex ds))) := by
  rcases h with h | h
  · obtain ⟨_, _, j, heq, -, rfl, hj⟩ := reaches_based.mp h
    cases heq
    have hstops : Stops Numeral.isHex longSuffix :=
      (stops_oneOf (by decide) : Stops Numeral.isHex (.oneOf ['l', 'L']))
    obtain ⟨hpos, hle⟩ := reaches_basedInteger hstops hj
    exact ⟨hpos, Nat.add_le_add_left hle 2⟩
  · obtain ⟨_, _, j, heq, hb, -⟩ := reaches_based.mp h
    cases heq
    exact absurd hb (not_mem_of_apart (by decide) hx)

theorem hexadecimal_decides {kind : Kind} (hx : x ∈ ['x', 'X'])
    (h : Numeral.hexadecimal ('0' :: x :: ds) = .number kind n) :
    Decides ('0' :: x :: ds) kind n := by
  have hx' : x ∈ ['x', 'X', 'b', 'B'] := List.mem_append_left ['b', 'B'] hx
  have hdrop (m : Nat) : ('0' :: x :: ds).drop (2 + m) = ds.drop m := by
    rw [← List.drop_drop]
    rfl
  generalize hrest : ds.drop (Numeral.run Numeral.isHex ds) = rest
  have hbound {k : Nat} (h : hexInteger.pattern.Reaches ('0' :: x :: ds) k ∨
      binaryInteger.pattern.Reaches ('0' :: x :: ds) k) := hrest ▸ reaches_hexInteger hx h
  have hfloat {k : Nat} (h : hexFloat.pattern.Reaches ('0' :: x :: ds) k) :=
    hrest ▸ (reaches_hexFloat h).2
  unfold Numeral.hexadecimal at h
  simp only [List.drop_succ_cons, List.drop_zero, hdrop, hrest] at h
  split at h
  · rename_i hpoint
    obtain ⟨more, rfl⟩ := List.head?_eq_some_iff.mp hpoint
    unfold Numeral.pointedHex at h
    have hbehind : ('0' :: x :: ds).drop (2 + Numeral.run Numeral.isHex ds + 1 +
        Numeral.run Numeral.isHex more) = more.drop (Numeral.run Numeral.isHex more) := by
      rw [← List.drop_drop, ← List.drop_drop, hdrop, hrest, List.drop_one, List.tail_cons]
    simp only [List.drop_one, List.tail_cons, hbehind] at h
    split at h
    · rename_i hpos
      cases h
      have hnone : Numeral.longSuffix ('.' :: more) = 0 := rfl
      refine decides_of_based hx' ⟨hexFloat, rfl, ?_⟩ (.inl (by omega)) (fun k hk => ?_)
        fun k hk => ?_
      · have hreaches := pointedHex_reaches hx hrest hpos
        rwa [← Nat.add_assoc, ← Nat.add_assoc, ← Nat.add_assoc] at hreaches
      · have hle := (hbound hk).2
        exact .inl (by omega)
      · rcases hfloat hk with ⟨hpos, -⟩ | ⟨more, heq, -, hle⟩
        · cases oneOf_of_exponent hpos
        · cases heq
          exact lt_or_same (by omega) rfl
    · split at h <;> cases h
  · rename_i hpoint
    have hscaled {k : Nat} (hk : hexFloat.pattern.Reaches ('0' :: x :: ds) k) :
        0 < Numeral.exponent ['p', 'P'] rest ∧
          k ≤ 2 + (Numeral.run Numeral.isHex ds + Numeral.floatTail ['p', 'P'] rest) := by
      rcases hfloat hk with hscaled | ⟨more, rfl, -⟩
      · exact hscaled
      · exact absurd rfl hpoint
    split at h
    · rename_i hpos
      cases h
      have hnone : Numeral.longSuffix rest = 0 := oneOf_apart (by decide) (oneOf_of_exponent hpos)
      have htail := Numeral.exponent_le_floatTail ['p', 'P'] rest
      refine decides_of_based hx' ⟨hexFloat, rfl, ?_⟩ (.inl (by omega)) (fun k hk => ?_)
        fun k hk => ?_
      · have hreaches := @hexFloat_reaches x ds hx (hrest ▸ hpos)
        rwa [hrest, ← Nat.add_assoc] at hreaches
      · have hle := (hbound hk).2
        exact .inl (by omega)
      · have hle := (hscaled hk).2
        exact lt_or_same (by omega) rfl
    · rename_i hnone
      split at h
      · rename_i hpos
        cases h
        refine decides_of_based hx' ⟨hexInteger, rfl, ?_⟩ (.inl (by omega)) (fun k hk => ?_)
          fun k hk => absurd (hscaled hk).1 hnone
        · have hreaches := @hexInteger_reaches x ds hx (by omega)
          rwa [hrest, ← Nat.add_assoc] at hreaches
        · have hle := (hbound hk).2
          exact lt_or_same (by omega) rfl
      · rename_i hzero
        cases h
        exact decides_of_based hx' ⟨decimalInteger, rfl, zero_reaches hx'⟩ (.inr ⟨rfl, rfl⟩)
          (fun k hk => absurd (hbound hk).1 (by omega)) fun k hk => absurd (hscaled hk).1 hnone

theorem reaches_binaryInteger (hx : x ∈ ['b', 'B'])
    (h : hexInteger.pattern.Reaches ('0' :: x :: ds) k ∨
      binaryInteger.pattern.Reaches ('0' :: x :: ds) k) : 0 < Numeral.run Numeral.isBinary ds ∧
    k ≤ 2 + (Numeral.run Numeral.isBinary ds +
      Numeral.longSuffix (ds.drop (Numeral.run Numeral.isBinary ds))) := by
  rcases h with h | h
  · obtain ⟨_, _, j, heq, hhex, -⟩ := reaches_based.mp h
    cases heq
    exact absurd hhex (not_mem_of_apart (by decide) hx)
  · obtain ⟨_, _, j, heq, -, rfl, hj⟩ := reaches_based.mp h
    cases heq
    have hstops : Stops Numeral.isBinary longSuffix :=
      (stops_oneOf (by decide) : Stops Numeral.isBinary (.oneOf ['l', 'L']))
    obtain ⟨hpos, hle⟩ := reaches_basedInteger hstops hj
    exact ⟨hpos, Nat.add_le_add_left hle 2⟩

theorem binary_decides (hx : x ∈ ['b', 'B']) :
    Decides ('0' :: x :: ds) .integerLit (Numeral.binary ('0' :: x :: ds)) := by
  have hx' : x ∈ ['x', 'X', 'b', 'B'] := List.mem_append_right ['x', 'X'] hx
  have hdrop : ('0' :: x :: ds).drop (2 + Numeral.run Numeral.isBinary ds) =
      ds.drop (Numeral.run Numeral.isBinary ds) := by
    rw [← List.drop_drop]
    rfl
  have hfloat (k : Nat) (h : hexFloat.pattern.Reaches ('0' :: x :: ds) k) : False :=
    not_mem_of_apart (by decide) hx (reaches_hexFloat h).1
  unfold Numeral.binary
  simp only [List.drop_succ_cons, List.drop_zero, hdrop]
  split
  · rename_i hpos
    refine decides_of_based hx' ⟨binaryInteger, rfl, ?_⟩ (.inl (by omega)) (fun k hk => ?_)
      fun k hk => (hfloat k hk).elim
    · have hreaches := reaches_based.mpr ⟨x, ds, _, rfl, hx, rfl,
        @basedInteger_reaches Numeral.isBinary ds (by omega)⟩
      rwa [← Nat.add_assoc] at hreaches
    · have hle := (reaches_binaryInteger hx hk).2
      exact lt_or_same (by omega) rfl
  · exact decides_of_based hx' ⟨decimalInteger, rfl, zero_reaches hx'⟩ (.inr ⟨rfl, rfl⟩)
      (fun k hk => absurd (reaches_binaryInteger hx hk).1 (by omega))
      fun k hk => (hfloat k hk).elim

end Based

/-- A number is read to the end of the longest match, as a token of the right kind. -/
theorem read_decides {c : Char} {cs : List Char} {kind : Kind} {n : Nat} (hc : c.isDigit = true)
    (h : Numeral.read (c :: cs) = .number kind n) : Decides (c :: cs) kind n := by
  have hplain (hfree : ∀ x ds, c :: cs = '0' :: x :: ds → x ∉ ['x', 'X'] ∧ x ∉ ['b', 'B']) :
      Plain (c :: cs) := by
    refine fun k => ⟨fun hk => ?_, fun hk => ?_, fun hk => ?_⟩ <;>
      obtain ⟨x, ds, j, heq, hx, -⟩ := reaches_based.mp hk
    · exact (hfree x ds heq).1 hx
    · exact (hfree x ds heq).1 hx
    · exact (hfree x ds heq).2 hx
  cases cs with
  | nil =>
    have hread : Numeral.read [c] = .number (Numeral.decimal [c]).1 (Numeral.decimal [c]).2 := by
      unfold Numeral.read
      split
      · rename_i heq
        cases heq
      · rfl
    rw [hread] at h
    cases h
    exact decimal_decides hc (hplain nofun)
  | cons d cs =>
    rw [Numeral.read_cons] at h
    split at h
    · rename_i hhex
      obtain ⟨rfl, hx⟩ := hhex
      exact hexadecimal_decides (by simpa using hx) h
    · rename_i hhex
      split at h
      · rename_i hbinary
        obtain ⟨rfl, hx⟩ := hbinary
        cases h
        exact binary_decides (by simpa using hx)
      · rename_i hbinary
        cases h
        refine decimal_decides hc (hplain ?_)
        rintro x ds ⟨⟩
        simp at hhex hbinary
        simp [hhex, hbinary]

end JavaSyntax.Lexer.Matcher
