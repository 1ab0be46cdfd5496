import JavaSyntax.Proofs.NumberPatterns

/-!
The lexer takes the longest match, apart from two departures: a reserved word can be read as a name,
and a number in base sixteen can be broken. A text without either is lexed as by any scanner that
takes the longest match.
-/

namespace JavaSyntax

/-- A name is not spelled like a reserved word, and no number is broken. -/
def Item.IsRegular : Item → Prop
  | .token t => t.kind = .identifier → isReserved t.text = false
  | .flawed t => t.flaw = .illegalChar → ∀ c ∈ t.text.toList.head?, c.isDigit = false

namespace Lexer

open Pattern Matcher

/-! What a match starts with. -/

/-- The matchers for a text that starts with a character. -/
inductive Begins (c : Char) : Matcher → Prop where
  | word (start : Unicode.isIdentifierStart c = true) {k : Kind} (mem : k ∈ Kind.keywords) :
      Begins c (.spelled k)
  | name (start : Unicode.isIdentifierStart c = true) : Begins c .identifier
  | number (digit : c.isDigit = true) {m : Matcher} (number : m.number?.isSome = true) : Begins c m
  | operator {k : Kind} (mem : k ∈ Kind.operators) (head : k.spelling.toList.head? = some c) :
      Begins c (.spelled k)
  | string (quote : c = '"') : Begins c .string
  | textBlock (quote : c = '"') : Begins c .textBlock
  | character (quote : c = '\'') : Begins c .character
  | fraction (point : c = '.') : Begins c .fraction
  | lineComment (slash : c = '/') : Begins c .lineComment
  | blockComment (slash : c = '/') : Begins c .blockComment
  | docComment (slash : c = '/') : Begins c .docComment
  | blanks (skipped : isSkipped c = true) : Begins c .blanks

theorem starts_text {c d : Char} {chars : List Char}
    (h : (Pattern.text (d :: chars)).starts c = true) : c = d :=
  (Option.some.inj (beq_iff_eq.mp h)).symm

theorem starts_seq {c : Char} {q r : Pattern} (hq : q.nullable = false)
    (h : (Pattern.seq q r).starts c = true) : q.starts c = true := by
  simpa [starts, hq] using h

theorem spelled_mem {k : Kind} : spelled k ∈ matchers ↔ k ∈ Kind.keywords ∨ k ∈ Kind.operators := by
  simp [matchers]

theorem begins_of_starts {m : Matcher} (hm : m ∈ matchers) {c : Char}
    (hstarts : m.pattern.starts c = true) : Begins c m := by
  cases m with
  | spelled k =>
    have hhead : k.spelling.toList.head? = some c := beq_iff_eq.mp hstarts
    rcases spelled_mem.mp hm with hk | hk
    · obtain ⟨d, ds, hspell, hd, -⟩ := isWordText_spelling hk
      rw [hspell] at hhead
      cases hhead
      exact .word hd hk
    · exact .operator hk hhead
  | string => exact .string (starts_text hstarts)
  | textBlock => exact .textBlock (starts_text hstarts)
  | character => exact .character (starts_text hstarts)
  | fraction => exact .fraction (starts_text (starts_seq rfl hstarts))
  | lineComment => exact .lineComment (starts_text (starts_seq rfl hstarts))
  | blockComment => exact .blockComment (starts_text hstarts)
  | docComment => exact .docComment (starts_text hstarts)
  | identifier => exact .name (starts_seq rfl hstarts)
  | blanks => exact .blanks (starts_seq rfl hstarts)
  | hexInteger | hexFloat | binaryInteger =>
    obtain rfl : c = '0' := starts_text (starts_seq rfl hstarts)
    exact .number rfl rfl
  | decimalInteger | pointed | scaled | suffixed =>
    exact .number (starts_seq rfl (starts_seq rfl hstarts)) rfl

theorem head_of_operator {k : Kind} (hk : k ∈ Kind.operators) {c : Char}
    (hc : k.spelling.toList.head? = some c) : OperatorHead k c := by
  obtain ⟨d, ds, hspell, hhead⟩ := operator_opens hk
  rw [hspell] at hc
  exact Option.some.inj hc ▸ hhead

namespace Begins

variable {c : Char} {m : Matcher}

theorem word? (h : Begins c m) (hstart : Unicode.isIdentifierStart c = true) :
    m = .identifier ∨ ∃ k ∈ Kind.keywords, m = .spelled k := by
  cases h with
  | word _ mem => exact .inr ⟨_, mem, rfl⟩
  | name => exact .inl rfl
  | number digit => exact absurd hstart (by simp [(isDigit_facts digit).2])
  | operator mem head => exact absurd hstart (by simp [(head_of_operator mem head).start])
  | blanks skipped => exact absurd skipped (by simp [not_isSkipped_of_start hstart])
  | string h | textBlock h | character h | fraction h | lineComment h | blockComment h
  | docComment h =>
    subst h
    exact absurd hstart (by decide)

theorem number? (h : Begins c m) (hdigit : c.isDigit = true) : m.number?.isSome = true := by
  obtain ⟨hskip, hstart⟩ := isDigit_facts hdigit
  cases h with
  | number _ number => exact number
  | word start | name start => exact absurd start (by simp [hstart])
  | operator mem head => exact absurd hdigit (by simp [(head_of_operator mem head).digit])
  | blanks skipped => exact absurd skipped (by simp [hskip])
  | string h | textBlock h | character h | fraction h | lineComment h | blockComment h
  | docComment h =>
    subst h
    exact absurd hdigit (by decide)

theorem quote? (h : Begins '"' m) : m = .string ∨ m = .textBlock := by
  cases h with
  | string => exact .inl rfl
  | textBlock => exact .inr rfl
  | word h | name h | number h | blanks h => exact absurd h (by decide)
  | operator mem head => exact absurd rfl (head_of_operator mem head).quote.1
  | character h | fraction h | lineComment h | blockComment h | docComment h =>
    exact absurd h (by decide)

theorem apostrophe? (h : Begins '\'' m) : m = .character := by
  cases h with
  | character => rfl
  | word h | name h | number h | blanks h => exact absurd h (by decide)
  | operator mem head => exact absurd rfl (head_of_operator mem head).quote.2
  | string h | textBlock h | fraction h | lineComment h | blockComment h | docComment h =>
    exact absurd h (by decide)

/-- With any other character an operator begins, a fraction or a comment. -/
theorem operator? (h : Begins c m) (hskip : ¬isSkipped c = true)
    (hstart : ¬Unicode.isIdentifierStart c = true) (hdigit : ¬c.isDigit = true)
    (hquote : c ≠ '"' ∧ c ≠ '\'') : (∃ k ∈ Kind.operators, m = .spelled k) ∨
      c = '.' ∧ m = .fraction ∨ c = '/' ∧ m ∈ [.lineComment, .blockComment, .docComment] := by
  cases h with
  | operator mem => exact .inl ⟨_, mem, rfl⟩
  | fraction point => exact .inr (.inl ⟨point, rfl⟩)
  | lineComment slash | blockComment slash | docComment slash =>
    exact .inr (.inr ⟨slash, by decide⟩)
  | word h | name h => exact absurd h hstart
  | number h => exact absurd h hdigit
  | blanks h => exact absurd h hskip
  | string h | textBlock h => exact absurd h hquote.1
  | character h => exact absurd h hquote.2

end Begins

/-- No operator starts a later one, so the first that is there is the longest. -/
theorem longest_operator {k l : Kind} {cs : List Char}
    (hfind : Kind.operators.find? (fun k => k.spelling.toList.isPrefixOf cs) = some k)
    (hl : l ∈ Kind.operators) (hin : l.spelling.toList <+: cs)
    (hle : k.spelling.toList.length ≤ l.spelling.toList.length) : l = k := by
  have happart := operators_apart
  obtain ⟨hk, before, behind, hsplit, hbefore⟩ := List.find?_eq_some_iff_append.mp hfind
  rw [hsplit, List.pairwise_append, List.pairwise_cons] at happart
  rw [hsplit, List.mem_append, List.mem_cons] at hl
  rcases hl with hl | rfl | hl
  · have hnot := hbefore l hl
    simp [List.isPrefixOf_iff_prefix.mpr hin] at hnot
  · rfl
  · exact absurd (List.prefix_of_prefix_length_le (List.isPrefixOf_iff_prefix.mp hk) hin hle)
      (happart.2.1.1 l hl)

theorem pos_of_reaches {m : Matcher} (hm : m ∈ matchers) {cs : List Char} {n : Nat}
    (h : m.pattern.Reaches cs n) : 0 < n := by
  refine Nat.pos_of_ne_zero ?_
  rintro rfl
  exact absurd ((matches_nil _).mp h.2) (Bool.eq_false_iff.mp (facts hm).needed)

namespace Best

variable {c : Char} {cs : List Char} {m : Matcher} {n : Nat}

theorem starts (h : Best (c :: cs) m n) : m.pattern.starts c = true := by
  obtain ⟨n, rfl⟩ := Nat.exists_eq_succ_of_ne_zero (Nat.pos_iff_ne_zero.mp h.pos)
  exact starts_of_matches h.matched

theorem begins (h : Best (c :: cs) m n) : Begins c m :=
  begins_of_starts h.mem h.starts

theorem reaches (h : Best cs m n) : m.pattern.Reaches cs n :=
  ⟨h.le, h.matched⟩

/-- A fixed text comes first. -/
theorem not_spelled (h : Best cs m n) (hm : ∀ k, m ≠ .spelled k) {k : Kind}
    (hk : spelled k ∈ matchers) : cs.take n ≠ k.spelling.toList := by
  intro heq
  have hmem : spelled k ∈ (Kind.keywords ++ Kind.operators).map spelled := by
    simpa using spelled_mem.mp hk
  have hfind := h.find
  rw [matchers, List.find?_append] at hfind
  cases hspelled : ((Kind.keywords ++ Kind.operators).map spelled).find?
      (fun m => m.pattern.Matches (cs.take n)) with
  | none => exact List.find?_eq_none.mp hspelled _ hmem (decide_eq_true heq)
  | some l =>
    obtain ⟨k, -, rfl⟩ := List.mem_map.mp (List.mem_of_find?_eq_some hspelled)
    rw [hspelled] at hfind
    exact hm k (Option.some.inj hfind).symm

end Best

/-! Words. -/

theorem reaches_identifier {cs : List Char} {k : Nat} : identifier.pattern.Reaches cs k ↔
    cs.head?.any Unicode.isIdentifierStart = true ∧ 0 < k ∧
      k ≤ Numeral.run Unicode.isIdentifierPart cs :=
  reaches_plus fun _ => isIdentifierPart_of_start

theorem identifier_matches {text : String} (h : IsWordText text) :
    identifier.pattern.Matches text.toList := by
  obtain ⟨c, cs, htext, hc, hcs⟩ := h
  rw [htext]
  exact ⟨[c], cs, rfl, ⟨c, rfl, hc⟩, hcs⟩

theorem wordKind_of_reserved {k : Kind} (hk : k ∈ Kind.keywords) {rest : List Char}
    (h : wordKind k.spelling.toList rest ≠ .identifier) : wordKind k.spelling.toList rest = k := by
  rw [wordKind_spelling hk] at h ⊢
  split at h
  · exact absurd rfl h
  · rename_i hfree
    rw [if_neg hfree]

/-! Each piece is what the longest match leads to. -/

namespace Scanner.TakesLongest

variable {scan : Scanner} (hscan : scan.TakesLongest) {c : Char} {cs : List Char}
  {found : Piece} {result : Piece × Nat} {n : Nat}

include hscan

/-- A match settles the piece, if the best matches that are as long at least are read alike. -/
theorem cut_settled (hreached : ∃ m ∈ matchers, m.pattern.Reaches (c :: cs) n)
    (hbest : ∀ m k, Best (c :: cs) m k → n ≤ k → m.read (c :: cs) k = result) :
    scan.cut c cs = result := by
  obtain ⟨m, hm, hreaches⟩ := hreached
  cases hfound : longest (c :: cs) with
  | none =>
    have hpos := pos_of_reaches hm hreaches
    have hzero := longestUpTo_none hfound m hm n hreaches.1 hreaches.2
    omega
  | some found =>
    have hfound' := best_of_longest hfound
    rw [hscan.cut_eq hfound']
    exact hbest _ _ hfound' (hfound'.longest m hm n hreaches.1 hreaches.2)

theorem cut_word (hstart : Unicode.isIdentifierStart c = true) (h : word (c :: cs) = (found, n))
    (hname : found = .token .identifier →
      isReserved (String.ofList ((c :: cs).take n)) = false) : scan.cut c cs = (found, n) := by
  obtain ⟨rfl, rfl⟩ := Prod.mk.inj h
  generalize hrun : Numeral.run Unicode.isIdentifierPart (c :: cs) = n at hname ⊢
  have hreaches : identifier.pattern.Reaches (c :: cs) n :=
    reaches_identifier.mpr ⟨hstart, hrun ▸ run_pos cs (isIdentifierPart_of_start hstart),
      Nat.le_of_eq hrun.symm⟩
  refine hscan.cut_settled ⟨identifier, by decide, hreaches⟩ fun m k hbest hle => ?_
  -- A name reaches as far as any reserved word.
  have hk (hmatches : identifier.pattern.Matches ((c :: cs).take k)) : k = n :=
    Nat.le_antisymm (hrun ▸ (reaches_identifier.mp ⟨hbest.le, hmatches⟩).2.2) hle
  rcases hbest.begins.word? hstart with rfl | ⟨l, hl, rfl⟩
  · obtain rfl := hk hbest.matched
    have hfree : isReserved (String.ofList ((c :: cs).take k)) = false := by
      refine List.any_eq_false.mpr fun l hl hspell => ?_
      refine hbest.not_spelled nofun (spelled_mem.mpr (.inl hl)) ?_
      rw [beq_iff_eq.mp hspell, String.toList_ofList]
    have hkind := wordKind_free hfree ((c :: cs).drop k)
    rw [String.toList_ofList] at hkind
    rw [hkind]
    rfl
  · have hspell : (c :: cs).take k = l.spelling.toList := hbest.matched
    obtain rfl := hk (hspell ▸ identifier_matches (isWordText_spelling hl))
    have hreserved : wordKind ((c :: cs).take k) ((c :: cs).drop k) ≠ .identifier := by
      intro hkind
      have hfree := hname (congrArg Piece.token hkind)
      rw [hspell, String.ofList_toList] at hfree
      exact List.any_eq_false.mp hfree l hl (beq_self_eq_true l.spelling)
    rw [hspell] at hreserved ⊢
    rw [wordKind_of_reserved hl hreserved]
    rfl

theorem cut_number (hdigit : c.isDigit = true) (h : number (c :: cs) = (found, n))
    (hwhole : found ≠ .flaw .illegalChar) : scan.cut c cs = (found, n) := by
  unfold number at h
  split at h <;> cases h
  · rename_i kind hread
    obtain ⟨⟨m, hkind, hreaches⟩, hlongest⟩ := read_decides hdigit hread
    have hm : m ∈ matchers := by
      cases m <;> first | decide | cases hkind
    refine hscan.cut_settled ⟨m, hm, hreaches⟩ fun l k hbest hle => ?_
    rcases hlongest l k (hbest.begins.number? hdigit) hbest.reaches with hlt | ⟨rfl, hl⟩
    · omega
    · cases l <;> cases hl <;> rfl
  · exact absurd rfl hwhole

theorem cut_textBlock (rest : List Char) :
    scan.cut '"' ('"' :: '"' :: rest) = textBlock rest := by
  refine hscan.cut_settled ⟨.textBlock, by decide, reaches_text.mpr ⟨rfl, rest, rfl⟩⟩
    fun m k hbest hle => ?_
  rcases hbest.begins.quote? with rfl | rfl <;> obtain ⟨rfl, -⟩ := hbest.fixed rfl
  · exact absurd hle (by decide)
  · rfl

theorem cut_string (hblock : ∀ rest, cs ≠ '"' :: '"' :: rest) : scan.cut '"' cs = string cs := by
  refine hscan.cut_settled ⟨.string, by decide, reaches_text.mpr ⟨rfl, cs, rfl⟩⟩
    fun m k hbest hle => ?_
  rcases hbest.begins.quote? with rfl | rfl <;> obtain ⟨rfl, rest, heq⟩ := hbest.fixed rfl
  · rfl
  · cases heq
    exact absurd rfl (hblock rest)

theorem cut_character : scan.cut '\'' cs = character cs := by
  refine hscan.cut_settled ⟨.character, by decide, reaches_text.mpr ⟨rfl, cs, rfl⟩⟩
    fun m k hbest hle => ?_
  obtain rfl := hbest.begins.apostrophe?
  obtain ⟨rfl, -⟩ := hbest.fixed rfl
  rfl

theorem cut_line (rest : List Char) :
    scan.cut '/' ('/' :: rest) = (.comment, 2 + Enclosed.line rest) := by
  refine hscan.cut_settled ⟨.lineComment, by decide, reaches_seq.mpr ⟨2, _, rfl,
    reaches_text.mpr ⟨rfl, rest, rfl⟩, reaches_many.mpr (Nat.le_refl _)⟩⟩ fun m k hbest hle => ?_
  obtain ⟨k, rfl⟩ := Nat.exists_eq_add_of_le' (Nat.le_of_add_right_le hle)
  obtain rfl := matcher_of_slashes hbest.mem hbest.matched
  obtain ⟨_, j, hsum, hslashes, hline⟩ := reaches_seq.mp hbest.reaches
  obtain ⟨rfl, -⟩ := reaches_text.mp hslashes
  have hj : j ≤ Enclosed.line rest := reaches_many.mp hline
  have hle' : 2 + Enclosed.line rest ≤ k + 2 := hle
  obtain rfl : k = Enclosed.line rest := by
    rw [List.length_cons, List.length_singleton] at hsum
    omega
  rw [Nat.add_comm]
  rfl

theorem cut_comment (rest : List Char) : scan.cut '/' ('*' :: rest) = comment rest := by
  refine hscan.cut_settled ⟨.blockComment, by decide, reaches_text.mpr ⟨rfl, rest, rfl⟩⟩
    fun m k hbest hle => ?_
  obtain ⟨k, rfl⟩ := Nat.exists_eq_add_of_le' hle
  rcases matcher_of_star hbest.mem hbest.matched with rfl | rfl <;> rfl

theorem cut_fraction {d : Char} (hd : d.isDigit = true) (rest : List Char) :
    scan.cut '.' (d :: rest) = (.token .floatingLit, Numeral.fraction ('.' :: d :: rest)) := by
  have hreaches := fraction_reaches hd rest
  refine hscan.cut_settled ⟨.fraction, by decide, hreaches⟩ fun m k hbest hle => ?_
  have htwo : 2 ≤ Numeral.fraction ('.' :: d :: rest) := by
    have hpos := @run_pos Numeral.isDecimal d rest (by simp [Numeral.isDecimal, hd])
    rw [fraction_cons]
    omega
  rcases hbest.begins.operator? (by decide) (by decide) (by decide) (by decide) with
    ⟨l, hl, rfl⟩ | ⟨-, rfl⟩ | ⟨hslash, -⟩
  · -- Of the operators one dot is too short, and with three no digit comes next.
    have hl' := (head_of_operator hl (beq_iff_eq.mp hbest.starts)).point rfl
    obtain ⟨rfl, more, heq⟩ := hbest.fixed rfl
    rcases hl' with rfl | rfl
    · exact absurd (Nat.le_trans htwo hle) (by decide)
    · cases heq
      cases hd
  · obtain rfl := Nat.le_antisymm (reaches_fraction hbest.reaches) hle
    rfl
  · exact absurd hslash (by decide)

theorem cut_operator (hskip : ¬isSkipped c = true) (hstart : ¬Unicode.isIdentifierStart c = true)
    (hdigit : ¬c.isDigit = true) (hquote : c ≠ '"' ∧ c ≠ '\'')
    (hcomment : c = '/' → ∀ d ∈ cs.head?, d ≠ '/' ∧ d ≠ '*')
    (hpoint : c = '.' → ∀ d ∈ cs.head?, d.isDigit = false) :
    scan.cut c cs = operator (c :: cs) := by
  have hspelled {m : Matcher} {k : Nat} (hbest : Best (c :: cs) m k) :
      ∃ l ∈ Kind.operators, m = .spelled l := by
    rcases hbest.begins.operator? hskip hstart hdigit hquote with
      hl | ⟨rfl, rfl⟩ | ⟨rfl, hm⟩
    · exact hl
    · obtain ⟨_, _, heq, -, hmore⟩ := reaches_point.mp hbest.reaches
      cases heq
      obtain ⟨_, _, -, hdigits, -⟩ := reaches_seq.mp hmore
      obtain ⟨d, hd, hdigit⟩ := (Option.any_eq_true _ _).mp (reaches_digits.mp hdigits).1
      exact absurd hdigit (by simp [hpoint rfl d hd])
    · simp only [List.mem_cons, List.not_mem_nil, or_false] at hm
      rcases hm with rfl | rfl | rfl
      · obtain ⟨_, _, -, hslashes, -⟩ := reaches_seq.mp hbest.reaches
        obtain ⟨-, more, heq⟩ := reaches_text.mp hslashes
        cases heq
        exact absurd rfl (hcomment rfl '/' rfl).1
      all_goals
        obtain ⟨-, more, heq⟩ := hbest.fixed rfl
        cases heq
        exact absurd rfl (hcomment rfl '*' rfl).2
  unfold operator
  cases hfind : Kind.operators.find? fun k => k.spelling.toList.isPrefixOf (c :: cs) with
  | some k =>
    have hin := List.find?_some hfind
    have hk := List.mem_of_find?_eq_some hfind
    refine hscan.cut_settled ⟨.spelled k, spelled_mem.mpr (.inr hk),
      reaches_text.mpr ⟨rfl, List.isPrefixOf_iff_prefix.mp hin⟩⟩ fun m n hbest hle => ?_
    obtain ⟨l, hl, rfl⟩ := hspelled hbest
    obtain ⟨rfl, more, heq⟩ := hbest.fixed rfl
    obtain rfl := longest_operator hfind hl ⟨more, heq.symm⟩ hle
    rfl
  | none =>
    rcases hscan.cut_cases c cs with ⟨m, n, hbest, -⟩ | ⟨-, hcut⟩
    · obtain ⟨l, hl, rfl⟩ := hspelled hbest
      obtain ⟨-, more, heq⟩ := hbest.fixed rfl
      exact absurd (List.isPrefixOf_iff_prefix.mpr ⟨more, heq.symm⟩)
        (List.find?_eq_none.mp hfind l hl)
    · exact hcut

/-- What is found at the start of a text is what the longest match leads to, unless a reserved word
is read as a name or a number is broken. -/
theorem cut_piece (h : piece c cs = (found, n)) (hskip : ¬isSkipped c = true)
    (hname : found = .token .identifier → isReserved (String.ofList ((c :: cs).take n)) = false)
    (hnumber : c.isDigit = true → found ≠ .flaw .illegalChar) : scan.cut c cs = (found, n) := by
  by_cases hstart : Unicode.isIdentifierStart c = true
  · rw [piece_wordStart hskip hstart] at h
    exact hscan.cut_word hstart h hname
  by_cases hdigit : c.isDigit = true
  · rw [piece_digit hskip hstart hdigit] at h
    exact hscan.cut_number hdigit h (hnumber hdigit)
  unfold piece at h
  rw [if_neg hskip, if_neg hstart, if_neg hdigit] at h
  rw [← h]
  split
  · exact hscan.cut_textBlock _
  · rename_i hblock
    exact hscan.cut_string fun rest heq => hblock rest heq
  · exact hscan.cut_character
  · exact hscan.cut_line _
  · exact hscan.cut_comment _
  · split
    · exact hscan.cut_fraction ‹_› _
    · rename_i hd
      refine hscan.cut_operator hskip hstart hdigit (by decide) nofun ?_
      rintro - e ⟨⟩
      exact Bool.eq_false_iff.mpr hd
  · rename_i hquote hapostrophe _ hline hcomment hpoint
    refine hscan.cut_operator hskip hstart hdigit ⟨hquote, hapostrophe⟩ (fun hc d hd => ?_)
      fun hc d hd => ?_
    · obtain ⟨rest, rfl⟩ := List.head?_eq_some_iff.mp hd
      exact ⟨fun hd => hline rest hc (hd ▸ rfl), fun hd => hcomment rest hc (hd ▸ rfl)⟩
    · obtain ⟨rest, rfl⟩ := List.head?_eq_some_iff.mp hd
      exact (hpoint d rest hc rfl).elim

theorem items_piece {keepDocs : Bool} {fuel start : Nat} {waiting : Option String}
    (hfuel : cs.length ≤ fuel)
    (h : ∀ item ∈ items piece keepDocs fuel start waiting cs, item.IsRegular) :
    items scan.cut keepDocs fuel start waiting cs = items piece keepDocs fuel start waiting cs := by
  induction fuel generalizing start waiting cs with
  | zero => rfl
  | succ fuel ih =>
    cases cs with
    | nil => rfl
    | cons c cs =>
      by_cases hskip : isSkipped c = true
      · have hblank : ∀ b ∈ [c], isSkipped b = true := List.forall_mem_singleton.mpr hskip
        have hitems : items piece keepDocs (fuel + 1) start waiting (c :: cs) =
            items piece keepDocs fuel (start + byteLength [c]) waiting cs := by
          simp only [items, piece_blank hskip]
          rfl
        rw [hitems] at h ⊢
        have hle := Nat.le_of_succ_le_succ hfuel
        exact (hscan.items_blanks hblank hfuel hle start).trans (ih hle h)
      · rcases hpiece : piece c cs with ⟨found, n⟩
        have hpos := piece_pos hpiece
        have hle : ((c :: cs).drop n).length ≤ fuel := by
          rw [List.length_drop]
          omega
        have hname (hfound : found = .token .identifier) :
            isReserved (String.ofList ((c :: cs).take n)) = false := by
          subst hfound
          simp only [items, hpiece] at h
          exact h _ List.mem_cons_self rfl
        have hnumber (hdigit : c.isDigit = true) : found ≠ .flaw .illegalChar := by
          rintro rfl
          simp only [items, hpiece] at h
          obtain ⟨n, rfl⟩ := Nat.exists_eq_succ_of_ne_zero (Nat.pos_iff_ne_zero.mp hpos)
          have hfirst := h _ List.mem_cons_self rfl c (by rw [String.toList_ofList]; rfl)
          exact absurd hdigit (by simp [hfirst])
        simp only [items, hpiece, hscan.cut_piece hpiece hskip hname hnumber] at h ⊢
        cases found with
        | blank | comment | doc body => exact ih hle h
        | token kind | flaw flaw => exact congrArg _ (ih hle (List.forall_mem_cons.mp h).2)

end Scanner.TakesLongest

end Lexer

/-- A text is lexed by longest match, if no reserved word in it is read as a name and no number is
broken. -/
theorem lexBy_of_regular {scan : Lexer.Scanner} (hscan : scan.TakesLongest) {keepDocs : Bool}
    {text : String} (h : ∀ item ∈ lex keepDocs text, item.IsRegular) :
    lexBy scan.cut keepDocs text = lex keepDocs text :=
  hscan.items_piece (Nat.le_refl _) h

end JavaSyntax
