import JavaSyntax.Proofs.Quoting
import JavaSyntax.Proofs.RoundTrip

/-!
Printed literals. What is printed for a literal is cut into one word, behind a minus if the literal
is a negative number. That word stands for the literal, and an expression made of it is read as the
literal and nothing else.
-/

namespace JavaSyntax

open Grammar Rule

/-- The literals that are printed as what they are: whole numbers in the range of their type, and
all that are no numbers. -/
def Literal.IsExact : Literal → Prop
  | .int v => -2 ^ 31 ≤ v ∧ v < 2 ^ 31
  | .long v => -2 ^ 63 ≤ v ∧ v < 2 ^ 63
  | .float _ | .double _ => False
  | .boolean _ | .char _ | .string _ | .textBlock _ | .null => True

/-- The word of a literal, behind a minus or not. -/
def signedWord (negated : Bool) (w : Word) : List Word :=
  (if negated then [fixed .minus] else []) ++ [w]

/-- The literal is printed as this word, and the word stands for it. -/
structure Literal.WrittenAs (value : Literal) (negated : Bool) (w : Word) : Prop where
  cut : Cuts value.text.toList (signedWord negated w)
  denotes : w.value? negated = some (.ok value.erase)
  number : negated = true → isNumber w.1 = true

theorem follows_end {p : Char → Bool} : Follows p [] := fun _ h => by cases h

theorem Starts.cuts {k : Kind} {text : String} (h : Starts (k, text) []) :
    Cuts text.toList [(k, text)] := by
  have hcuts := Cuts.cons h Cuts.nil
  rwa [List.append_nil] at hcuts

namespace Literal

theorem written_word (value : Literal) (k : Kind) (hstarts : Starts (k, value.text) [])
    (hdenotes : Word.value? (k, value.text) false = some (.ok value.erase)) :
    value.WrittenAs false (k, value.text) :=
  ⟨hstarts.cuts, hdenotes, fun h => by cases h⟩

/-- A number is printed as its sign and a word of digits. -/
theorem written_number {value : Literal} {digits : String} {negated : Bool}
    (htext : value.text.toList = (if negated then ['-'] else []) ++ digits.toList)
    (hopens : ∃ c ds, digits.toList = c :: ds ∧ c.isDigit = true)
    (hstarts : Starts (.integerLit, digits) [])
    (hvalue : integer digits negated = .ok value.erase) :
    value.WrittenAs negated (.integerLit, digits) := by
  refine ⟨?_, congrArg some hvalue, fun _ => rfl⟩
  rw [htext]
  cases negated with
  | false => exact hstarts.cuts
  | true =>
    obtain ⟨c, ds, hdigits, hc⟩ := hopens
    refine Cuts.char (by decide) ?_ hstarts.cuts
    rw [hdigits]
    exact starts_minus hc

theorem written_int {v : Int} (h : (int v).IsExact) : ∃ negated w, (int v).WrittenAs negated w := by
  obtain ⟨n, negated, rfl, htext⟩ := toString_signed v
  exact ⟨negated, _, written_number htext (repr_opens n) (starts_int follows_end)
    (integer_repr (le_limit h.1 h.2))⟩

theorem written_long {v : Int} (h : (long v).IsExact) :
    ∃ negated w, (long v).WrittenAs negated w := by
  obtain ⟨n, negated, rfl, htext⟩ := toString_signed v
  obtain ⟨c, ds, hdigits, hc⟩ := repr_opens n
  refine ⟨negated, _, written_number ?_ ⟨c, ds ++ ['L'], ?_, hc⟩ starts_long
    (integer_repr_long (le_limit h.1 h.2))⟩
  · show (toString (signed negated n) ++ "L").toList = _
    rw [String.toList_append, String.toList_append, htext, List.append_assoc]
  · rw [String.toList_append, hdigits]
    rfl

theorem IsExact.written {value : Literal} (h : value.IsExact) :
    ∃ negated w, value.WrittenAs negated w := by
  have hword {k : Kind} (hk : k ∈ exprWords) : Starts (k, k.spelling) [] :=
    starts_keyword hk follows_end
  have hstring (s : String) : Starts (.stringLit, quoted '"' s.toList) [] :=
    starts_string follows_end
  cases value with
  | int v => exact written_int h
  | long v => exact written_long h
  | float v | double v => cases h
  | boolean b =>
    cases b with
    | false => exact ⟨_, _, written_word (boolean false) .falseKw (hword (by decide)) rfl⟩
    | true => exact ⟨_, _, written_word (boolean true) .trueKw (hword (by decide)) rfl⟩
  | null => exact ⟨_, _, written_word null .nullKw (hword (by decide)) rfl⟩
  | char c =>
    refine ⟨_, _, written_word (char c) .charLit starts_char ?_⟩
    show some ((charValue (quoted '\'' [c])).map Literal.char) = _
    rw [charValue_quoted]
    rfl
  | string s =>
    refine ⟨_, _, written_word (string s) .stringLit (hstring s) ?_⟩
    show some ((stringValue (quoted '"' s.toList)).map Literal.string) = _
    rw [stringValue_quoted]
    rfl
  | textBlock s =>
    refine ⟨_, _, written_word (textBlock s) .stringLit (hstring s) ?_⟩
    show some ((stringValue (quoted '"' s.toList)).map Literal.string) = _
    rw [stringValue_quoted]
    rfl

end Literal

section Rules

variable {setting : Setting} {inLabels : Bool} {s t : State} {tree : Tree .expr}

/-- At the end of the words no operator goes on with an operand. -/
theorem expr_of_unary (hquiet : Quiet s.words) (hend : t.words = [])
    (h : ComesTo setting inLabels unary s (pure tree) t) :
    ComesTo setting inLabels expr s (pure tree) t := by
  have hbinds : nextBinds t.words = 0 := by rw [hend]; rfl
  have hbinary : ComesTo setting inLabels (binary 1) s (pure tree) t := by
    intro Q hQ
    unfold binary
    rw [ensures_mark_bind]
    refine ensures_rule_bind.mpr (h.bind _ Q ?_)
    rw [ensures_pure_bind]
    exact ensures_rule.mpr (binaryRest_stop (by omega) Q hQ)
  have hconditional : ComesTo setting inLabels conditional s (pure tree) t := by
    intro Q hQ
    unfold conditional
    rw [ensures_mark_bind]
    refine ensures_rule_bind.mpr (hbinary.bind _ Q ?_)
    exact ensures_accept_no (heads_of_nextBinds (Nat.le_of_eq hbinds) (by decide)) hQ
  have hnone : lookup assignOp? t.ahead = none := by
    rw [List.map_eq_nil_iff.mp hend]
    rfl
  intro Q hQ
  unfold expr
  refine ReadsUpTo.not_startsLambda hquiet ?_
  rw [if_neg Bool.false_ne_true, ensures_mark_bind]
  refine ensures_rule_bind.mpr (hconditional.bind _ Q ?_)
  rw [ensures_pure_bind, ensures_ahead_bind, hnone]
  exact hQ

/-- A literal word with nothing behind it is a whole operand. -/
theorem unary_literal {negated : Bool} {w : Word} {value : Literal}
    (hwords : s.words = signedWord negated w) (hvalue : w.value? negated = some (.ok value))
    (hnumber : negated = true → isNumber w.1 = true) (hquiet : Quiet s.words) :
    ∃ extent t, s.Past t [] ∧
      ComesTo setting inLabels unary s (pure (.literal value extent)) t := by
  cases negated with
  | false =>
    have hword : s.words = [w] := hwords
    obtain ⟨extent, hcomes⟩ := primary_literal hword hvalue
    have hpast : s.Past (s.advance 1) [] := State.past_one hword
    have hbinds : nextBinds (s.advance 1).words = 0 := by rw [hpast.words]; rfl
    refine ⟨extent, _, hpast, ?_⟩
    refine (unary_trailing hword (value?_facts hvalue).2.2.1 hquiet).trans
      ((trailing_primary hcomes).trans ?_)
    refine ((selectors_stop (by omega)).bind _).trans ?_
    exact (ComesTo.call _).trans (steps_stop (by omega))
  | true =>
    have hpair : s.words = [fixed .minus, w] := hwords
    obtain ⟨extent, hcomes⟩ := unary_negative hpair rfl (hnumber rfl) hvalue
    have hone := State.past_one hpair
    have hpast : s.Past ((s.advance 1).advance 1) [] := hone.trans (State.past_one hone.words)
    have hbinds : nextBinds ((s.advance 1).advance 1).words = 0 := by rw [hpast.words]; rfl
    exact ⟨extent, _, hpast, hcomes.trans (selectors_stop (by omega))⟩

/-- An expression that is one literal is read as it, without a report. -/
theorem whole_literal {negated : Bool} {w : Word} {value : Literal}
    (hwords : s.words = signedWord negated w) (hvalue : w.value? negated = some (.ok value))
    (hnumber : negated = true → isNumber w.1 = true) :
    ∃ extent t, t.log = s.log ∧ (whole .expr id).Ensures setting (evaluates setting) inLabels s
      fun r u => r = .ok (.literal value extent) ∧ u = t := by
  have hquiet : Quiet s.words := by
    rw [hwords]
    cases negated with
    | false => exact .single (value?_facts hvalue).1
    | true => exact (Quiet.single (value?_facts hvalue).1).cons rfl (by decide)
  obtain ⟨extent, t, hpast, hunary⟩ :=
    @unary_literal setting inLabels s negated w value hwords hvalue hnumber hquiet
  have hcall : (Grammar.call .expr).Ensures setting (evaluates setting) inLabels s
      fun r u => r = .ok (.literal value extent) ∧ u = t :=
    ensures_rule.mpr (expr_of_unary hquiet hpast.words hunary _ ⟨rfl, rfl⟩)
  obtain ⟨hpre, hpost⟩ := ensures_call.mp hcall
  refine ⟨extent, t, hpast.log, ?_⟩
  unfold whole
  rw [ensures_attempt_bind]
  refine ⟨hpre, fun r u hu => ?_⟩
  obtain ⟨rfl, rfl⟩ := hpost r u hu
  change Ensures _ _ _ (finish >>= fun _ => pure (Tree.literal value extent)) _ _
  exact finish_ends.mono fun r v hv => ⟨hv.1, hv.2.1 (List.map_eq_nil_iff.mp hpast.words)⟩

end Rules

namespace Session

variable {settings : Settings} {source : Source}

/-- A source that is one literal word is read as the literal. -/
theorem expression_of_literal {negated : Bool} {w : Word} {value : Literal}
    (hlexes : LexesTo settings.keepDocs source.text (signedWord negated w))
    (hvalue : w.value? negated = some (.ok value))
    (hnumber : negated = true → isNumber w.1 = true) :
    ∃ extent, (start settings source).expression.1 = .literal value extent ∧
      (start settings source).expression.2.diagnostics = [] := by
  obtain ⟨hwords, hlog, -⟩ := start_of_lexesTo hlexes
  obtain ⟨extent, t, ht, hwhole⟩ :=
    @whole_literal (start settings source).setting false (start settings source).state negated w
      value hwords hvalue hnumber
  have hanswer : (start settings source).expression =
      (.literal value extent, { start settings source with state := t }) :=
    enter_of_ensures rfl hwhole
  rw [hanswer]
  exact ⟨extent, rfl, ht.trans hlog⟩

/-- A literal that is printed and parsed again is the whole expression and the literal it was, a
text block as the string it stands for; nothing is reported. -/
theorem literal_reads_back (settings : Settings) (name : String) {value : Literal}
    (h : value.IsExact) (extent : Extent) :
    let parsed := (start settings (.ofText name ((Tree.literal value extent).print 0))).expression
    (∃ read, parsed.1 = .literal value.erase read) ∧ parsed.2.diagnostics = [] := by
  intro parsed
  obtain ⟨negated, w, hwritten⟩ := h.written
  have hlexes : LexesTo settings.keepDocs (Source.ofText name value.text).text
      (signedWord negated w) := hwritten.cut.lexesTo
  obtain ⟨read, htree, hlog⟩ :=
    expression_of_literal hlexes hwritten.denotes hwritten.number
  exact ⟨⟨read, htree⟩, hlog⟩

/-- The least number of its type is in range only together with its sign. -/
theorem literal_reads_back_least :
    let least := Literal.int (-2147483648)
    let text := (Tree.literal least (.point .eof)).print 0
    let parsed := (start .standard (.ofText "Least" text)).expression
    least.IsExact ∧ (∃ read, parsed.1 = .literal least read) ∧ parsed.2.diagnostics = [] := by
  intro least text parsed
  have hexact : least.IsExact := by
    show (-2 ^ 31 : Int) ≤ -2147483648 ∧ (-2147483648 : Int) < 2 ^ 31
    decide
  exact ⟨hexact, literal_reads_back .standard "Least" hexact (.point .eof)⟩

end Session

end JavaSyntax
