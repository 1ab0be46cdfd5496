import JavaSyntax.Token.Enclosed
import JavaSyntax.Token.Numeral

/-!
How far a reading of a text goes. A length is contained if it ends with the line at the latest, so
that a line end and what comes behind it change nothing. Such lengths can be put one behind the
other, and the extent of a number is put together from runs of characters in this way.
-/

namespace JavaSyntax

open Enclosed (isNewline)

/-- What is read from a text is the same if a line end and anything else follows. -/
def Stable {α : Type} (read : List Char → α) : Prop :=
  ∀ cs sep more, isNewline sep = true → read (cs ++ sep :: more) = read cs

/-- A length that is read from a text: it is no longer, and it stays if a line end follows. -/
structure Contained (length : List Char → Nat) : Prop where
  le : ∀ cs, length cs ≤ cs.length
  stable : Stable length

theorem not_newline {p : Char → Bool} (hn : p '\n' = false) (hr : p '\r' = false) {c : Char}
    (h : isNewline c = true) : p c = false := by
  simp only [isNewline, Bool.or_eq_true, beq_iff_eq] at h
  rcases h with rfl | rfl
  · exact hn
  · exact hr

namespace Stable

variable {α : Type}

theorem const (value : α) : Stable fun _ => value := fun _ _ _ _ => rfl

theorem comp {β : Type} {f : List Char → α} (hf : Stable f) (g : α → β) :
    Stable fun cs => g (f cs) := fun cs sep more hsep => congrArg g (hf cs sep more hsep)

theorem after {length : List Char → Nat} {f : List Char → α} (hl : Contained length)
    (hf : Stable f) : Stable fun cs => f (cs.drop (length cs)) := by
  intro cs sep more hsep
  dsimp only
  rw [hl.stable cs sep more hsep, List.drop_append_of_le_length (hl.le cs)]
  exact hf _ sep more hsep

theorem ite {b : List Char → Bool} {f g : List Char → α} (hb : Stable b) (hf : Stable f)
    (hg : Stable g) : Stable fun cs => if b cs = true then f cs else g cs := by
  intro cs sep more hsep
  dsimp only
  rw [hb cs sep more hsep, hf cs sep more hsep, hg cs sep more hsep]

/-- Whether the first character is of a class that has no line ends. -/
theorem head {p : Char → Bool} (hn : p '\n' = false) (hr : p '\r' = false) :
    Stable fun cs => cs.head?.any p := by
  intro cs sep more hsep
  cases cs with
  | nil => exact not_newline hn hr hsep
  | cons c cs => rfl

theorem and {f g : List Char → Bool} (hf : Stable f) (hg : Stable g) :
    Stable fun cs => f cs && g cs := by
  intro cs sep more hsep
  dsimp only
  rw [hf cs sep more hsep, hg cs sep more hsep]

end Stable

namespace Contained

variable {f g : List Char → Nat}

theorem zero : Contained fun _ => 0 := ⟨fun _ => Nat.zero_le _, .const 0⟩

/-- One length and then another one, from there on. -/
theorem seq (hf : Contained f) (hg : Contained g) :
    Contained fun cs => f cs + g (cs.drop (f cs)) := by
  refine ⟨fun cs => ?_, fun cs sep more hsep => ?_⟩
  · have hle := hf.le cs
    have hle' := hg.le (cs.drop (f cs))
    rw [List.length_drop] at hle'
    omega
  · have hrest := Stable.after hf hg.stable cs sep more hsep
    dsimp only at hrest ⊢
    rw [hrest, hf.stable cs sep more hsep]

theorem ite {b : List Char → Bool} (hb : Stable b) (hf : Contained f) (hg : Contained g) :
    Contained fun cs => if b cs = true then f cs else g cs := by
  refine ⟨fun cs => ?_, hb.ite hf.stable hg.stable⟩
  split
  · exact hf.le cs
  · exact hg.le cs

theorem congr (hf : Contained f) (h : ∀ cs, g cs = f cs) : Contained g := by
  rwa [show g = f from funext h]

end Contained

/-- A text is taken that is no longer than what it is read from, and both what was found and its
length stay if a line end follows. -/
structure Measured {α : Type} (read : List Char → Option (α × Nat)) : Prop where
  le : ∀ cs found n, read cs = some (found, n) → n ≤ cs.length
  stable : Stable read

namespace Measured

variable {α : Type} {f g : List Char → Option (α × Nat)}

theorem none : Measured fun _ => (Option.none : Option (α × Nat)) := ⟨nofun, .const _⟩

theorem some {length : List Char → Nat} (h : Contained length) (found : α) :
    Measured fun cs => Option.some (found, length cs) := by
  refine ⟨fun cs _ _ hread => ?_, h.stable.comp fun n => Option.some (found, n)⟩
  cases hread
  exact h.le cs

theorem ite {b : List Char → Bool} (hb : Stable b) (hf : Measured f) (hg : Measured g) :
    Measured fun cs => if b cs = true then f cs else g cs := by
  refine ⟨fun cs found n hread => ?_, hb.ite hf.stable hg.stable⟩
  split at hread
  · exact hf.le cs found n hread
  · exact hg.le cs found n hread

theorem congr (hf : Measured f) (h : ∀ cs, g cs = f cs) : Measured g := by
  rwa [show g = f from funext h]

/-- No line end is taken: what is read up to it is all that is read. -/
theorem inLine (h : Measured f) {cs : List Char} {found : α} {n : Nat}
    (hread : f cs = Option.some (found, n)) : ∀ c ∈ cs.take n, isNewline c = false := by
  intro c hc
  apply Classical.byContradiction
  intro hnewline
  rw [Bool.not_eq_false] at hnewline
  obtain ⟨front, back, hsplit⟩ := List.append_of_mem hc
  have hcs : cs = front ++ c :: (back ++ cs.drop n) := by
    rw [← List.cons_append, ← List.append_assoc, ← hsplit, List.take_append_drop]
  have hlength := congrArg List.length hsplit
  rw [List.length_append, List.length_cons, List.length_take, Nat.min_eq_left (h.le _ _ _ hread)]
    at hlength
  rw [hcs, h.stable front c _ hnewline] at hread
  have hle := h.le _ _ _ hread
  omega

end Measured

namespace Numeral

theorem contained_run {p : Char → Bool} (hn : p '\n' = false) (hr : p '\r' = false) :
    Contained (run p) := by
  refine ⟨fun cs => (List.takeWhile_prefix p).length_le, fun cs sep more hsep => ?_⟩
  have hstop : p sep = false := not_newline hn hr hsep
  unfold run
  rw [List.takeWhile_append]
  split
  · rename_i hall
    rw [List.takeWhile_cons_of_neg (by simp [hstop]), List.length_append, List.length_nil,
      Nat.add_zero]
    exact hall.symm
  · rfl

theorem contained_oneOf {choices : List Char} (hn : choices.contains '\n' = false)
    (hr : choices.contains '\r' = false) : Contained (oneOf choices) := by
  refine ⟨fun cs => ?_, fun cs sep more hsep => ?_⟩
  · cases cs with
    | nil => exact Nat.le_refl 0
    | cons c cs =>
      simp only [oneOf, List.length_cons]
      split <;> omega
  · cases cs with
    | nil =>
      have hstop : choices.contains sep = false := not_newline hn hr hsep
      simp only [oneOf, List.nil_append, hstop, Bool.false_eq_true, if_false]
    | cons c cs => rfl

variable {marks : List Char} (hn : marks.contains '\n' = false) (hr : marks.contains '\r' = false)

include hn hr in
theorem contained_exponent : Contained (exponent marks) := by
  have hmark : Contained (oneOf marks) := contained_oneOf hn hr
  have hsign : Contained (oneOf ['+', '-']) := contained_oneOf rfl rfl
  have hdigit : Stable fun cs : List Char => cs.head?.any Char.isDigit := .head rfl rfl
  have hfound : Stable fun cs => decide (oneOf marks cs = 1) :=
    hmark.stable.comp fun k => decide (k = 1)
  have hdigits : Contained (run isDecimal) := contained_run rfl rfl
  refine (Contained.ite (hfound.and (.after (hmark.seq hsign) hdigit))
    ((hmark.seq hsign).seq hdigits) .zero).congr fun cs => ?_
  unfold exponent
  simp

include hn hr in
theorem contained_floatTail : Contained (floatTail marks) :=
  (contained_exponent hn hr).seq (contained_oneOf rfl rfl : Contained floatSuffix)

theorem oneOf_of_head {c : Char} {cs : List Char} (h : cs.head? = some c) : oneOf [c] cs = 1 := by
  cases cs with
  | nil => cases h
  | cons d ds =>
    cases h
    simp [oneOf]

/-- What is read behind a length is read from a text that a line end may follow. -/
theorem stable_pos {length rest : List Char → Nat} (hl : Contained length) (hr : Contained rest) :
    Stable fun cs => decide (0 < rest (cs.drop (length cs))) :=
  (Stable.after hl hr.stable).comp fun n => decide (0 < n)

theorem stable_point {length : List Char → Nat} (hl : Contained length) :
    Stable fun cs => (cs.drop (length cs)).head?.any (· == '.') :=
  .after hl (.head rfl rfl)

theorem any_point (cs : List Char) : cs.head?.any (· == '.') = true ↔ cs.head? = some '.' := by
  cases cs <;> simp

theorem measured_decimal : Measured fun cs => some (decimal cs) := by
  have hdigits : Contained (run isDecimal) := contained_run rfl rfl
  have hpoint : Contained (oneOf ['.']) := contained_oneOf rfl rfl
  have htail : Contained (floatTail ['e', 'E']) := contained_floatTail rfl rfl
  have hsuffix : Contained longSuffix := contained_oneOf rfl rfl
  refine (Measured.ite (stable_point hdigits)
    (.some (hdigits.seq (hpoint.seq (hdigits.seq htail))) Kind.floatingLit)
    (.ite (stable_pos hdigits htail) (.some (hdigits.seq htail) .floatingLit)
      (.some (hdigits.seq hsuffix) .integerLit))).congr fun cs => ?_
  unfold decimal
  simp only [any_point, decide_eq_true_eq]
  split
  · rename_i hhead
    simp only [oneOf_of_head hhead, List.drop_drop, Nat.add_assoc]
  · split <;> rfl

/-- The number that was read, if it is one. -/
def Reading.number? : Reading → Option (Kind × Nat)
  | .number kind n => some (kind, n)
  | .broken _ => none

/-- Whether a number is written in another base, which has one of these marks. -/
def isBased (marks cs : List Char) : Bool :=
  cs.head?.any (· == '0') && (cs.drop (oneOf ['0'] cs)).head?.any marks.contains

/-- The zero and the mark of another base. -/
def based (marks cs : List Char) : Nat :=
  oneOf ['0'] cs + oneOf marks (cs.drop (oneOf ['0'] cs))

theorem isBased_iff {marks cs : List Char} :
    isBased marks cs = true ↔ ∃ c rest, cs = '0' :: c :: rest ∧ marks.contains c = true := by
  unfold isBased
  match cs with
  | [] => simp
  | [c] =>
    by_cases hc : c = '0'
    · subst hc
      simp [oneOf]
    · simp [hc]
  | c :: d :: ds =>
    by_cases hc : c = '0'
    · subst hc
      simp [oneOf]
    · simp [hc]

theorem based_eq {marks cs : List Char} (h : isBased marks cs = true) :
    based marks cs = 2 ∧ oneOf ['0'] cs = 1 := by
  obtain ⟨c, rest, rfl, hc⟩ := isBased_iff.mp h
  refine ⟨?_, rfl⟩
  show 1 + (if marks.contains c = true then 1 else 0) = 2
  rw [if_pos hc]

include hn hr in
theorem contained_based : Contained (based marks) :=
  (contained_oneOf rfl rfl).seq (contained_oneOf hn hr)

include hn hr in
theorem stable_isBased : Stable (isBased marks) := by
  have hzero : Contained (oneOf ['0']) := contained_oneOf rfl rfl
  exact .and (.head rfl rfl) (.after hzero (.head hn hr))

theorem measured_hexadecimal : Measured fun cs =>
    if isBased ['x', 'X'] cs = true then (hexadecimal cs).number? else none := by
  have hdigits : Contained (run isHex) := contained_run rfl rfl
  have hmarks : Stable (isBased ['x', 'X']) := stable_isBased rfl rfl
  have hbase : Contained (based ['x', 'X']) := contained_based rfl rfl
  have hzero : Contained (oneOf ['0']) := contained_oneOf rfl rfl
  have hpoint : Contained (oneOf ['.']) := contained_oneOf rfl rfl
  have hexponent : Contained (exponent ['p', 'P']) := contained_exponent rfl rfl
  have htail : Contained (floatTail ['p', 'P']) := contained_floatTail rfl rfl
  have hsuffix : Contained longSuffix := contained_oneOf rfl rfl
  have hwhole := hbase.seq hdigits
  have hpointed := hwhole.seq (hpoint.seq hdigits)
  refine (Measured.ite hmarks (.ite (stable_point hwhole)
    (.ite (stable_pos hpointed hexponent) (.some (hpointed.seq htail) Kind.floatingLit) .none)
    (.ite (stable_pos hwhole hexponent) (.some (hwhole.seq htail) .floatingLit)
      (.ite (hwhole.stable.comp fun n => decide (2 < n)) (.some (hwhole.seq hsuffix) .integerLit)
        (.some hzero .integerLit)))) .none).congr fun cs => ?_
  split
  · rename_i hbased
    obtain ⟨htwo, hone⟩ := based_eq hbased
    unfold hexadecimal pointedHex
    simp only [any_point, decide_eq_true_eq, htwo, hone]
    split
    · rename_i hhead
      simp only [oneOf_of_head hhead, List.drop_drop, Nat.add_assoc]
      split
      · rfl
      · split <;> rfl
    · split
      · rfl
      · split <;> rfl
  · rfl

theorem measured_binary : Measured fun cs =>
    if isBased ['b', 'B'] cs = true then some (Kind.integerLit, binary cs) else none := by
  have hdigits : Contained (run isBinary) := contained_run rfl rfl
  have hmarks : Stable (isBased ['b', 'B']) := stable_isBased rfl rfl
  have hbase : Contained (based ['b', 'B']) := contained_based rfl rfl
  have hzero : Contained (oneOf ['0']) := contained_oneOf rfl rfl
  have hsuffix : Contained longSuffix := contained_oneOf rfl rfl
  have hwhole := hbase.seq hdigits
  refine (Measured.ite hmarks
    (.ite (hwhole.stable.comp fun n => decide (2 < n)) (.some (hwhole.seq hsuffix) Kind.integerLit)
      (.some hzero .integerLit)) .none).congr fun cs => ?_
  split
  · rename_i hbased
    obtain ⟨htwo, hone⟩ := based_eq hbased
    unfold binary
    simp only [decide_eq_true_eq, htwo, hone]
    split <;> rfl
  · rfl

theorem measured_read : Measured fun cs => (read cs).number? := by
  have hhex : Stable (isBased ['x', 'X']) := stable_isBased rfl rfl
  have hbin : Stable (isBased ['b', 'B']) := stable_isBased rfl rfl
  refine (Measured.ite hhex measured_hexadecimal
    (.ite hbin measured_binary measured_decimal)).congr fun cs => ?_
  unfold read
  split
  · rename_i c rest
    have hmark (a b : Char) : isBased [a, b] ('0' :: c :: rest) = true ↔ c = a ∨ c = b := by
      simp [isBased, oneOf]
    simp only [hmark]
    split
    · rfl
    · split <;> rfl
  · rename_i hplain
    have hnot (marks : List Char) : ¬isBased marks cs = true := fun hbased => by
      obtain ⟨c, rest, rfl, -⟩ := isBased_iff.mp hbased
      exact hplain c rest rfl
    rw [if_neg (hnot _), if_neg (hnot _)]
    rfl

theorem measured_fraction : Measured fun cs =>
    if cs.head?.any (· == '.') = true then some (Kind.floatingLit, fraction cs) else none := by
  have hpoint : Contained (oneOf ['.']) := contained_oneOf rfl rfl
  have hdigits : Contained (run isDecimal) := contained_run rfl rfl
  have htail : Contained (floatTail ['e', 'E']) := contained_floatTail rfl rfl
  have hhead : Stable fun cs : List Char => cs.head?.any (· == '.') := .head rfl rfl
  refine (Measured.ite hhead (.some (hpoint.seq (hdigits.seq htail)) Kind.floatingLit)
    .none).congr fun cs => ?_
  split
  · rename_i hpoint
    unfold fraction
    simp only [oneOf_of_head ((any_point cs).mp hpoint), List.drop_drop, Nat.add_assoc]
  · rfl

end Numeral

end JavaSyntax
