import JavaSyntax.Proofs.Quoting
import JavaSyntax.Proofs.WholeNumbers

/-!
What the errors about one character of a literal point at. The escapes of string and character
literals are given as a grammar, which tells the first backslash that starts none. The lexer and the
unescaper go through such a literal in steps of their own, but agree which backslashes start an
escape, so the one that ends the escapes is never the last character between the quotes.
-/

namespace JavaSyntax

namespace Literal

open Enclosed (Paired)

/-- What can stand behind the backslash of an escape. Three octal digits are at most `377`. -/
inductive Escape : List Char → Prop where
  | simple {c : Char} (known : c ∈ ['b', 't', 'n', 'f', 'r', 's', '"', '\'', '\\']) : Escape [c]
  | octal {first : Char} {others : List Char} (digits : ∀ c ∈ first :: others, isOctal c = true)
      (short : others.length ≤ if first ≤ '3' then 2 else 1) : Escape (first :: others)
  | unicode {marks digits : List Char} (marked : ∀ c ∈ marks, c = 'u')
      (hex : ∀ c ∈ digits, Numeral.isHexDigit c = true) (four : digits.length = 4) :
      Escape ('u' :: (marks ++ digits))

/-- Characters that stand for themselves, and escapes. -/
inductive Resolved : List Char → Prop where
  | nil : Resolved []
  | plain {c : Char} {cs : List Char} (h : c ≠ '\\') (others : Resolved cs) : Resolved (c :: cs)
  | escape {esc cs : List Char} (h : Escape esc) (others : Resolved cs) :
      Resolved ('\\' :: (esc ++ cs))

/-- The first backslash between two quotes that starts no escape stands behind `front`. -/
structure EndsEscapes (quote : Char) (text front rest : List Char) : Prop where
  text : text = quote :: (front ++ '\\' :: rest ++ [quote])
  before : Resolved front
  none : ∀ esc, Escape esc → ¬esc <+: rest
  /-- The backslash is not the last character between the quotes. -/
  more : rest ≠ []

/-! Digits. -/

theorem isOctal_facts {c : Char} (h : isOctal c = true) :
    Numeral.isHexDigit c = true ∧ Numeral.worth c < 8 ∧ c ≠ '\\' := by
  have hall : ∀ n : Fin 128, isOctal (Char.ofNat n) = true →
      Numeral.isHexDigit (Char.ofNat n) = true ∧ Numeral.worth (Char.ofNat n) < 8 ∧
        Char.ofNat n ≠ '\\' := by
    decide
  have hascii : c.toNat < 128 := by
    simp [isOctal, Char.le_def, UInt32.le_iff_toNat_le] at h
    omega
  exact Numeral.of_ascii (q := fun c => isOctal c = true → Numeral.isHexDigit c = true ∧
    Numeral.worth c < 8 ∧ c ≠ '\\') hall hascii h

theorem isHexDigit_facts {c : Char} (h : Numeral.isHexDigit c = true) :
    Numeral.worth c < 16 ∧ c ≠ '\\' ∧ c ≠ 'u' := by
  have hall : ∀ n : Fin 128, Numeral.isHexDigit (Char.ofNat n) = true →
      Numeral.worth (Char.ofNat n) < 16 ∧ Char.ofNat n ≠ '\\' ∧ Char.ofNat n ≠ 'u' := by
    decide
  exact Numeral.of_ascii (q := fun c => Numeral.isHexDigit c = true →
    Numeral.worth c < 16 ∧ c ≠ '\\' ∧ c ≠ 'u') hall (Numeral.ascii_of_isHexDigit h) h

theorem isHexDigit_of_value {c : Char} {d : Nat} (h : digitValue? 16 c = some d) :
    Numeral.isHexDigit c = true := by
  have hall : ∀ n : Fin 128, (digitValue? 16 (Char.ofNat n)).isSome = true →
      Numeral.isHexDigit (Char.ofNat n) = true := by
    decide
  have hascii : c.toNat < 128 := by
    unfold digitValue? at h
    delta Char.isDigit Char.isLower Char.isUpper at h
    simp [UInt32.le_iff_toNat_le] at h
    grind
  exact Numeral.of_ascii (q := fun c => (digitValue? 16 c).isSome = true →
    Numeral.isHexDigit c = true) hall hascii (Option.isSome_of_eq_some h)

theorem ofDigits?_octal {cs : List Char} (h : ∀ c ∈ cs, isOctal c = true) :
    ∃ code, ofDigits? 8 cs = some code :=
  ⟨_, (Numeral.ofDigits?_eq_some_iff fun c hc => (isOctal_facts (h c hc)).1).mpr
    ⟨fun c hc => (isOctal_facts (h c hc)).2.1, rfl⟩⟩

theorem ofDigits?_hex {cs : List Char} :
    (∃ code, ofDigits? 16 cs = some code) ↔ ∀ c ∈ cs, Numeral.isHexDigit c = true := by
  refine ⟨?_, fun h => ⟨_, (Numeral.ofDigits?_eq_some_iff h).mpr
    ⟨fun c hc => (isHexDigit_facts (h c hc)).1, rfl⟩⟩⟩
  rintro ⟨code, hcode⟩
  unfold ofDigits? at hcode
  generalize 0 = n at hcode
  induction cs generalizing n with
  | nil => exact List.forall_mem_nil _
  | cons c cs ih =>
    rw [List.foldlM_cons, Option.bind_eq_bind, Option.bind_eq_some_iff] at hcode
    obtain ⟨m, hm, hrest⟩ := hcode
    obtain ⟨d, hd, -⟩ := Option.map_eq_some_iff.mp hm
    exact List.forall_mem_cons.mpr ⟨isHexDigit_of_value hd, ih m hrest⟩

/-! One escape. -/

theorem octalLength_facts {first : Char} (cs : List Char) (h : isOctal first = true) :
    octalLength (first :: cs) ≤ (first :: cs).length ∧
      (∀ c ∈ (first :: cs).take (octalLength (first :: cs)), isOctal c = true) ∧
      Escape ((first :: cs).take (octalLength (first :: cs))) := by
  obtain ⟨m, hm, hlength⟩ : ∃ m, m = (if first ≤ '3' then 2 else 1) ∧
      octalLength (first :: cs) = (((first :: cs).take (m + 1)).takeWhile isOctal).length := by
    by_cases hfirst : first ≤ '3'
    · exact ⟨2, (if_pos hfirst).symm, by simp [octalLength, hfirst]⟩
    · exact ⟨1, (if_neg hfirst).symm, by simp [octalLength, hfirst]⟩
  have hstarts : ((first :: cs).take (m + 1)).takeWhile isOctal <+: first :: cs :=
    (List.takeWhile_prefix _).trans (List.take_prefix _ _)
  have hall : ∀ c ∈ ((first :: cs).take (m + 1)).takeWhile isOctal, isOctal c = true :=
    List.all_eq_true.mp List.all_takeWhile
  rw [hlength, ← List.prefix_iff_eq_take.mp hstarts]
  refine ⟨hstarts.length_le, hall, ?_⟩
  rw [List.take_succ_cons, List.takeWhile_cons_of_pos h] at hall ⊢
  refine .octal hall ?_
  rw [← hm]
  exact Nat.le_trans (List.takeWhile_prefix _).length_le (List.length_take_le _ _)

/-- The marks of a code point are cut off, and what is behind them is left. -/
theorem marks_eq {marks tail : List Char} (hmarks : ∀ c ∈ marks, c = 'u')
    (htail : tail.head? ≠ some 'u') :
    ('u' :: (marks ++ tail)).drop (1 + Numeral.run (· == 'u') (marks ++ tail)) = tail ∧
      ∀ k, ('u' :: (marks ++ tail)).take (1 + Numeral.run (· == 'u') (marks ++ tail) + k) =
        'u' :: (marks ++ tail.take k) := by
  have hrun : Numeral.run (· == 'u') (marks ++ tail) = marks.length := by
    have hstop : tail.takeWhile (· == 'u') = [] := by
      cases tail with
      | nil => rfl
      | cons c tail => exact List.takeWhile_cons_of_neg (by simpa using htail)
    unfold Numeral.run
    rw [List.takeWhile_append_of_pos (by simpa using hmarks), hstop, List.append_nil]
  rw [hrun, Nat.add_comm 1]
  refine ⟨by rw [List.drop_succ_cons, List.drop_left], fun k => ?_⟩
  rw [Nat.add_right_comm, List.take_succ_cons, List.take_length_add_append]

theorem exists_marks (cs : List Char) : ∃ marks tail, cs = marks ++ tail ∧ (∀ c ∈ marks, c = 'u') ∧
    tail.head? ≠ some 'u' := by
  refine ⟨cs.takeWhile (· == 'u'), cs.dropWhile (· == 'u'), List.takeWhile_append_dropWhile.symm,
    fun c hc => by simpa using List.all_eq_true.mp List.all_takeWhile c hc, fun hhead => ?_⟩
  have hnot := List.head?_dropWhile_not (· == 'u') cs
  simp [hhead] at hnot

/-- What the unescaper takes for an escape is one. -/
theorem escape?_eq_some {cs out : List Char} {n : Nat} (h : escape? false cs = some (out, n)) :
    n ≤ cs.length ∧ Escape (cs.take n) := by
  unfold escape? at h
  split at h
  · cases h
  · rename_i e rest
    split at h
    · rename_i c hsimple
      cases h
      refine ⟨Nat.le_add_left _ _, .simple ?_⟩
      unfold simpleEscape? at hsimple
      split at hsimple <;> first | decide | cases hsimple
    · split at h
      · cases h
      · split at h
        · rename_i hoctal
          obtain ⟨code, -, hcode⟩ := Option.map_eq_some_iff.mp h
          cases hcode
          obtain ⟨hle, -, hesc⟩ := octalLength_facts rest hoctal
          exact ⟨hle, hesc⟩
        · split at h
          · rename_i hu
            obtain ⟨marks, tail, rfl, hmarks, htail⟩ := exists_marks rest
            obtain ⟨hdrop, htake⟩ := marks_eq hmarks htail
            rw [hu] at h ⊢
            dsimp only at h
            rw [hdrop] at h
            split at h
            · cases h
            · rename_i hfour
              obtain ⟨code, hdigits, hcode⟩ := Option.map_eq_some_iff.mp h
              cases hcode
              rw [htake]
              refine ⟨?_, .unicode hmarks (ofDigits?_hex.mp ⟨code, hdigits⟩)
                (Nat.le_antisymm (List.length_take_le _ _) (Nat.le_of_not_lt hfour))⟩
              have hlength := congrArg List.length hdrop
              rw [List.length_drop] at hlength
              rw [List.length_take] at hfour
              omega
          · cases h

/-- Where the unescaper takes nothing there is no escape. -/
theorem escape?_eq_none {cs : List Char} (h : escape? false cs = none) :
    ∀ esc, Escape esc → ¬esc <+: cs := by
  rintro esc hesc ⟨more, rfl⟩
  cases hesc with
  | @simple c known =>
    simp only [List.mem_cons, List.not_mem_nil, or_false] at known
    rcases known with rfl | rfl | rfl | rfl | rfl | rfl | rfl | rfl | rfl <;> cases h
  | @octal first others digits short =>
    have hfirst := digits first List.mem_cons_self
    obtain ⟨code, hcode⟩ := ofDigits?_octal (octalLength_facts (others ++ more) hfirst).2.1
    simp only [List.cons_append, escape?] at h
    split at h
    · cases h
    · split at h
      · rename_i hnewline
        subst hnewline
        cases hfirst
      · rw [hcode] at h
        cases h
  | @unicode marks digits marked hex four =>
    have htail : (digits ++ more).head? ≠ some 'u' := by
      cases digits with
      | nil => cases four
      | cons d digits =>
        have hd := (isHexDigit_facts (hex d List.mem_cons_self)).2.2
        simpa using hd
    obtain ⟨hdrop, htake⟩ := marks_eq marked htail
    obtain ⟨code, hcode⟩ := ofDigits?_hex.mpr hex
    have hdigits : (digits ++ more).take 4 = digits := four ▸ List.take_left
    have hu : simpleEscape? 'u' = none := rfl
    have hoctal : isOctal 'u' = false := by decide
    simp [escape?, hu, hoctal, hdrop, hdigits, hcode, four] at h

/-! All escapes of a literal. -/

/-- The unescaper fails at the first backslash that starts no escape. The characters it skips are
the rest of an escape. -/
theorem unescapeFrom_culprit {skip offset o : Nat} {cs : List Char} (hskip : skip ≤ cs.length)
    (h : unescapeFrom false skip offset cs = .error o) : ∃ front rest,
      cs = cs.take skip ++ front ++ '\\' :: rest ∧ Resolved front ∧
        (∀ esc, Escape esc → ¬esc <+: rest) ∧ o = offset + byteLength (cs.take skip ++ front) := by
  have hmap {f : List Char → List Char} {r : Except Nat (List Char)} (h : r.map f = .error o) :
      r = .error o := by
    cases r with
    | error e => exact h
    | ok out => cases h
  fun_induction unescapeFrom false skip offset cs with
  | case1 => cases h
  | case2 skip offset c cs ih =>
    obtain ⟨front, rest, hcs, hfront, hnone, ho⟩ := ih (Nat.le_of_succ_le_succ hskip) h
    refine ⟨front, rest, ?_, hfront, hnone, ?_⟩
    · rw [List.take_succ_cons, List.cons_append, List.cons_append, ← hcs]
    · rw [ho, List.take_succ_cons, List.cons_append, byteLength, Nat.add_assoc]
  | case3 offset cs hnone =>
    cases h
    exact ⟨[], cs, rfl, .nil, escape?_eq_none hnone, rfl⟩
  | case4 offset cs out n hescape ih =>
    obtain ⟨hle, hesc⟩ := escape?_eq_some hescape
    obtain ⟨front, rest, hcs, hfront, hnone, ho⟩ := ih hle (hmap h)
    refine ⟨'\\' :: (cs.take n ++ front), rest, ?_, .escape hesc hfront, hnone, ?_⟩
    · rw [List.take_zero, List.nil_append, List.cons_append, ← hcs]
    · rw [ho, List.take_zero, List.nil_append, byteLength, Nat.add_assoc]
      rfl
  | case5 offset c cs hplain ih =>
    obtain ⟨front, rest, hcs, hfront, hnone, ho⟩ := ih (Nat.zero_le _) (hmap h)
    rw [List.take_zero, List.nil_append] at hcs ho
    refine ⟨c :: front, rest, ?_, .plain hplain hfront, hnone, ?_⟩
    · rw [List.take_zero, List.nil_append, List.cons_append, ← hcs]
    · rw [ho, List.take_zero, List.nil_append, byteLength, Nat.add_assoc]

/-! Pairs of a backslash and a character. -/

theorem paired_tail {c : Char} {cs : List Char} (h : Paired (c :: cs)) (hplain : c ≠ '\\') :
    Paired cs := by
  cases h with
  | pair => exact absurd rfl hplain
  | plain _ others => exact others

theorem paired_behind {cs rest : List Char} (h : Paired (cs ++ rest)) (hplain : '\\' ∉ cs) :
    Paired rest := by
  induction cs with
  | nil => exact h
  | cons c cs ih =>
    rw [List.mem_cons, not_or] at hplain
    exact ih (paired_tail h (Ne.symm hplain.1)) hplain.2

/-- Of an escape only the first character could be a backslash. -/
theorem Escape.shape {esc : List Char} (h : Escape esc) : ∃ c others, esc = c :: others ∧
    '\\' ∉ others := by
  cases h with
  | simple known => exact ⟨_, [], rfl, nofun⟩
  | octal digits _ =>
    exact ⟨_, _, rfl, fun hmem => (isOctal_facts (digits _ (List.mem_cons_of_mem _ hmem))).2.2 rfl⟩
  | unicode marked hex _ =>
    refine ⟨_, _, rfl, fun hmem => ?_⟩
    rcases List.mem_append.mp hmem with hmem | hmem
    · exact absurd (marked _ hmem) (by decide)
    · exact (isHexDigit_facts (hex _ hmem)).2.1 rfl

/-- The unescaper and the lexer agree on which backslashes stand for a character before them. -/
theorem Resolved.paired {front rest : List Char} (h : Resolved front)
    (hpaired : Paired (front ++ rest)) : Paired rest := by
  induction h with
  | nil => exact hpaired
  | plain hplain _ ih => exact ih (paired_tail hpaired hplain)
  | escape hesc _ ih =>
    obtain ⟨c, others, rfl, hplain⟩ := hesc.shape
    rw [List.cons_append, List.append_assoc, List.cons_append] at hpaired
    cases hpaired with
    | pair more => exact ih (paired_behind more hplain)
    | plain hslash => exact absurd rfl hslash

theorem body_culprit {quote : Char} {text : String} {inner : List Char} {error : LiteralError}
    (hquote : quote.utf8Size = 1) (htext : text.toList = quote :: (inner ++ [quote]))
    (hpaired : Paired inner) (h : body quote text = .error error) : ∃ front rest,
      EndsEscapes quote text.toList front rest ∧
        error = .illegalEscape (byteLength (quote :: front)) := by
  unfold body at h
  simp only [htext, between?_quoted, Option.getD_some] at h
  split at h
  · cases h
  · rename_i offset hoffset
    cases h
    obtain ⟨front, rest, hinner, hfront, hnone, rfl⟩ :=
      unescapeFrom_culprit (Nat.zero_le _) hoffset
    rw [List.take_zero, List.nil_append] at hinner ⊢
    refine ⟨front, rest, ⟨by rw [htext, hinner], hfront, hnone, ?_⟩, ?_⟩
    · rintro rfl
      rw [hinner] at hpaired
      cases hfront.paired hpaired with
      | plain hslash => exact absurd rfl hslash
    · rw [byteLength, hquote, Nat.zero_add, Nat.add_comm]

/-! The values of tokens. -/

section Values

variable {x : Symbol} {negated : Bool} {error : LiteralError}

theorem integer_code {text : String} (h : integer text negated = .error error) :
    error.code ≠ .illegalEscChar := by
  rcases integer_error h with h | rfl
  · obtain ⟨_, _, -, rfl⟩ := checkUnderscores_error h
    exact nofun
  · exact nofun

theorem floating_code {text : String} (h : floating text negated = .error error) :
    error.code ≠ .illegalEscChar := by
  rcases floating_error h with h | rfl | rfl | rfl
  · obtain ⟨_, _, -, rfl⟩ := checkUnderscores_error h
    exact nofun
  all_goals exact nofun

/-- Only what the unescaper refuses has an illegal escape. -/
theorem literalValue_escape (h : Grammar.literalValue x negated = some (.error error))
    (hcode : error.code = .illegalEscChar) :
    x.kind = .textBlockLit ∧ error = .illegalEscape 0 ∨
      ∃ quote, Lexer.quote? x.kind = some quote ∧ body quote x.text = .error error := by
  unfold Grammar.literalValue at h
  split at h
  · exact absurd hcode (integer_code (Option.some.inj h))
  · exact absurd hcode (floating_code (Option.some.inj h))
  · rename_i hkind
    exact .inr ⟨'"', by rw [hkind]; rfl, map_error (map_error (Option.some.inj h))⟩
  · rename_i hkind
    exact .inl ⟨hkind, textBlockValue_error (map_error (Option.some.inj h))⟩
  · rename_i hkind
    rcases charValue_error (map_error (Option.some.inj h)) with hbody | rfl
    · exact .inr ⟨'\'', by rw [hkind]; rfl, hbody⟩
    · cases hcode
  all_goals cases h

/-- Only a number has an illegal underscore. -/
theorem literalValue_underscore (h : Grammar.literalValue x negated = some (.error error))
    (hcode : error.code = .illegalUnderscore) : x.kind ∈ [.integerLit, .floatingLit] ∧
      ∃ front back, x.text.toList = front ++ '_' :: back ∧
        error = .illegalUnderscore (byteLength front) := by
  obtain ⟨o, rfl⟩ : ∃ o, error = .illegalUnderscore o := by
    cases error with
    | illegalUnderscore o => exact ⟨o, rfl⟩
    | _ => cases hcode
  unfold Grammar.literalValue at h
  split at h
  · rename_i hkind
    exact ⟨by simp [hkind],
      checkUnderscores_error (integer_underscore_iff.mp (Option.some.inj h))⟩
  · rename_i hkind
    exact ⟨by simp [hkind],
      checkUnderscores_error (floating_underscore_iff.mp (Option.some.inj h))⟩
  · obtain ⟨o, ho⟩ := body_error (map_error (map_error (Option.some.inj h)))
    cases ho
  · cases textBlockValue_error (map_error (Option.some.inj h))
  · rcases charValue_error (map_error (Option.some.inj h)) with hbody | hunclosed
    · obtain ⟨o, ho⟩ := body_error hbody
      cases ho
    · cases hunclosed
  all_goals cases h

end Values

end Literal

/-- A character of the text starts at this byte. -/
def Source.Holds (source : Source) (offset : Nat) (c : Char) : Prop :=
  ∃ before after, source.text.toList = before ++ c :: after ∧ offset = byteLength before

theorem Layout.Tiled.holds {layout : Layout} (h : layout.Tiled) {token : Token}
    (ht : token ∈ layout.tokens.toList) {front back : List Char} {c : Char}
    (htext : token.text.toList = front ++ c :: back) :
    layout.source.Holds (token.start + byteLength front) c := by
  obtain ⟨before, after, hcut, hstart, -⟩ := h.cut token ht
  refine ⟨before ++ front, back ++ after, ?_, ?_⟩
  · rw [hcut, htext]
    simp
  · rw [hstart, byteLength_append]

namespace Session

open Literal

/-- Whatever a text, its settings and the entry points called are: an illegal escape of a string or
character literal is told at the first backslash that starts no escape, one of a text block at its
start, and an illegal underscore at an underscore of its number. No literal that the lexer finds
ends with a backslash that the unescaper has nothing to read behind. -/
theorem literals_blamed (settings : Settings) (source : Source) (entries : List Entry) :
    let session := (start settings source).afterAll entries
    let tokens := (lex settings.keepDocs source.text).filterMap Item.token?
    (∀ d ∈ session.diagnostics, d.code = .illegalEscChar → ∃ token ∈ tokens,
      token.kind = .textBlockLit ∧ d.span.start.offset = token.start ∨
        ∃ quote front rest, Lexer.quote? token.kind = some quote ∧
          EndsEscapes quote token.text.toList front rest ∧
          d.span.start.offset = token.start + byteLength (quote :: front) ∧
          source.Holds d.span.start.offset '\\') ∧
    (∀ d ∈ session.diagnostics, d.code = .illegalUnderscore → ∃ token ∈ tokens,
      token.kind ∈ [.integerLit, .floatingLit] ∧ ∃ front back,
        token.text.toList = front ++ '_' :: back ∧
          d.span.start.offset = token.start + byteLength front ∧
          source.Holds d.span.start.offset '_') ∧
    ∀ token ∈ tokens, ∀ quote, Lexer.quote? token.kind = some quote → ∀ error,
      body quote token.text = .error error → ∃ front rest,
        EndsEscapes quote token.text.toList front rest ∧
          error = .illegalEscape (byteLength (quote :: front)) := by
  intro session tokens
  obtain ⟨-, hfine⟩ := afterAll_fine (start_fine settings source) entries
  have htokens : (start settings source).layout.tokens.toList = tokens := List.toList_toArray
  have hbody : ∀ token ∈ tokens, ∀ quote, Lexer.quote? token.kind = some quote → ∀ error,
      body quote token.text = .error error → ∃ front rest,
        EndsEscapes quote token.text.toList front rest ∧
          error = .illegalEscape (byteLength (quote :: front)) := by
    intro token htoken quote hquote error herror
    obtain ⟨item, hitem, hfound⟩ := List.mem_filterMap.mp htoken
    have hlexed : .token token ∈ lex settings.keepDocs source.text := by
      cases item with
      | token t =>
        cases hfound
        exact hitem
      | flawed t => cases hfound
    obtain ⟨inner, htext, hpaired⟩ := lex_quoted hlexed hquote
    have hsize : quote.utf8Size = 1 := by
      cases hkind : token.kind <;> rw [hkind] at hquote <;> cases hquote <;> rfl
    exact body_culprit hsize htext hpaired herror
  have hblames (d : Diagnostic) (hd : d ∈ session.diagnostics)
      (hcode : d.code = .illegalEscChar ∨ d.code = .illegalUnderscore) : ∃ token ∈ tokens,
      ∃ joined negated error, error.code = d.code ∧
        Grammar.literalValue ⟨token.kind, token.text, joined⟩ negated = some (.error error) ∧
        d.span.start.offset = token.start + error.offset?.getD 0 := by
    obtain ⟨error, offset, hsame, hstart, hvisible, token, htoken, joined, negated, hvalue,
      hoffset⟩ := (hfine.logged d hd).blames hcode
    refine ⟨token, htokens ▸ htoken, joined, negated, error, hsame, hvalue, ?_⟩
    rw [hstart, hvisible.boundary.offset_eq]
    exact hoffset
  refine ⟨fun d hd hcode => ?_, fun d hd hcode => ?_, hbody⟩
  · obtain ⟨token, htoken, joined, negated, error, hsame, hvalue, hoffset⟩ :=
      hblames d hd (.inl hcode)
    refine ⟨token, htoken, ?_⟩
    rcases literalValue_escape hvalue (hsame.trans hcode) with
      ⟨hkind, rfl⟩ | ⟨quote, hquote, herror⟩
    · exact .inl ⟨hkind, hoffset⟩
    · obtain ⟨front, rest, hends, rfl⟩ := hbody token htoken quote hquote _ herror
      refine .inr ⟨quote, front, rest, hquote, hends, hoffset, ?_⟩
      rw [hoffset]
      have htext : token.text.toList = (quote :: front) ++ '\\' :: (rest ++ [quote]) := by
        rw [hends.text]
        simp
      exact hfine.tiled.holds (htokens ▸ htoken) htext
  · obtain ⟨token, htoken, joined, negated, error, hsame, hvalue, hoffset⟩ :=
      hblames d hd (.inr hcode)
    obtain ⟨hkind, front, back, htext, rfl⟩ :=
      literalValue_underscore hvalue (hsame.trans hcode)
    refine ⟨token, htoken, hkind, front, back, htext, hoffset, ?_⟩
    rw [hoffset]
    exact hfine.tiled.holds (htokens ▸ htoken) htext

/-- The offsets count bytes, and a folded minus sign does not shift them. -/
example :
    let source := Source.ofText "A.java" "class A \x7b int a = -1_; String s = \"é\\12\\9\"; \x7d"
    ((start .standard source).afterAll [.unit]).diagnostics.map
      (fun d => (d.code, d.span.start.offset)) =
        [(.illegalUnderscore, 20), (.illegalEscChar, 40)] := by
  decide

end Session

end JavaSyntax
