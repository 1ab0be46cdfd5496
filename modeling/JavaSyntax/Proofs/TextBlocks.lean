import JavaSyntax.Literal.Quoted
import JavaSyntax.Proofs.Lexemes

/-!
Text blocks in other places and files. The value of a text block is made of its lines without the
blanks they share, so it stays the same when all lines are moved in, and when they end another way.
-/

namespace JavaSyntax.Literal

/-- Blanks behind every line end. A carriage return and the line feed behind it are one line end. -/
def indentLines (k : Nat) : List Char → List Char
  | [] => []
  | '\r' :: '\n' :: cs => '\r' :: '\n' :: (List.replicate k ' ' ++ indentLines k cs)
  | c :: cs =>
    if Enclosed.isNewline c then c :: (List.replicate k ' ' ++ indentLines k cs)
    else c :: indentLines k cs

/-- Every line feed written another way. -/
def withLineEnds (lineEnd cs : List Char) : List Char :=
  cs.flatMap fun c => if c = '\n' then lineEnd else [c]

section Lines

variable {k : Nat} {cs ds line : List Char} {lines : List (List Char)}

/-! Blanks in front of a line only count for what the lines share. -/

theorem isBlankLine_indented : isBlankLine (List.replicate k ' ' ++ line) = isBlankLine line := by
  have hblank : Unicode.isBlank ' ' = true := by decide
  simp [isBlankLine, hblank]

theorem indentation_indented :
    indentation (List.replicate k ' ' ++ line) = k + indentation line := by
  have hblank : ∀ c ∈ List.replicate k ' ', Unicode.isBlank c = true := by
    intro c hc
    rw [List.eq_of_mem_replicate hc]
    decide
  unfold indentation Numeral.run
  rw [List.takeWhile_append_of_pos hblank, List.length_append, List.length_replicate]

theorem sharedIndentation_indented (hne : lines ≠ []) :
    sharedIndentation (lines.map (List.replicate k ' ' ++ ·)) = k + sharedIndentation lines := by
  induction lines using sharedIndentation.induct with
  | case1 => exact absurd rfl hne
  | case2 last => exact indentation_indented
  | case3 line next rest hblank ih =>
    have hrest := ih (List.cons_ne_nil _ _)
    simp only [List.map_cons] at hrest ⊢
    simp only [sharedIndentation, isBlankLine_indented, hblank, if_true, hrest]
  | case4 line next rest hblank ih =>
    have hrest := ih (List.cons_ne_nil _ _)
    simp only [List.map_cons] at hrest ⊢
    simp only [sharedIndentation, isBlankLine_indented, hblank, if_neg Bool.false_ne_true, hrest,
      indentation_indented]
    omega

theorem stripLine_indented {n : Nat} :
    stripLine (k + n) (List.replicate k ' ' ++ line) = stripLine n line := by
  unfold stripLine
  rw [isBlankLine_indented, ← List.drop_drop, List.drop_left' List.length_replicate]

/-- All lines moved in by as many blanks are the same lines without the blanks they share. -/
theorem stripped_indented (hne : lines ≠ []) :
    (lines.map (List.replicate k ' ' ++ ·)).map
        (stripLine (sharedIndentation (lines.map (List.replicate k ' ' ++ ·)))) =
      lines.map (stripLine (sharedIndentation lines)) := by
  rw [sharedIndentation_indented hne, List.map_map]
  exact List.map_congr_left fun line _ => stripLine_indented

end Lines

section LineEnds

variable {k : Nat} {c : Char} {cs ds lineEnd : List Char}

/-! Line ends written as line feeds. -/

theorem normalizeNewlines_cons (hc : c ≠ '\r') :
    normalizeNewlines (c :: cs) = c :: normalizeNewlines cs := by
  rw [normalizeNewlines]
  · exact fun _ h _ => absurd h hc
  · exact hc

theorem normalizeNewlines_return (h : cs.head? ≠ some '\n') :
    normalizeNewlines ('\r' :: cs) = '\n' :: normalizeNewlines cs := by
  rw [normalizeNewlines]
  rintro ds rfl
  exact h rfl

theorem normalizeNewlines_append (h : '\r' ∉ cs) :
    normalizeNewlines (cs ++ ds) = cs ++ normalizeNewlines ds := by
  induction cs with
  | nil => rfl
  | cons c cs ih =>
    rw [List.mem_cons, not_or] at h
    rw [List.cons_append, normalizeNewlines_cons (Ne.symm h.1), ih h.2, List.cons_append]

theorem normalizeNewlines_blanks :
    normalizeNewlines (List.replicate k ' ' ++ cs) =
      List.replicate k ' ' ++ normalizeNewlines cs :=
  normalizeNewlines_append fun h => absurd (List.eq_of_mem_replicate h) (by decide)

theorem withLineEnds_feed :
    withLineEnds lineEnd ('\n' :: cs) = lineEnd ++ withLineEnds lineEnd cs :=
  rfl

theorem withLineEnds_cons (hc : c ≠ '\n') :
    withLineEnds lineEnd (c :: cs) = c :: withLineEnds lineEnd cs := by
  unfold withLineEnds
  rw [List.flatMap_cons, if_neg hc]
  rfl

theorem withLineEnds_eq_self (h : '\n' ∉ cs) : withLineEnds lineEnd cs = cs := by
  induction cs with
  | nil => rfl
  | cons c cs ih =>
    rw [List.mem_cons, not_or] at h
    rw [withLineEnds_cons (Ne.symm h.1), ih h.2]

theorem head?_indentLines : (indentLines k cs).head? = cs.head? := by
  unfold indentLines
  split
  · rfl
  · rfl
  · split <;> rfl

/-- A carriage return that is no part of a pair. -/
theorem head?_of_not_pair (h : ∀ rest, c = '\r' → cs = '\n' :: rest → False) :
    c = '\r' → cs.head? ≠ some '\n' := by
  intro hc hhead
  obtain ⟨rest, hrest⟩ := List.head?_eq_some_iff.mp hhead
  exact h rest hc hrest

theorem indentLines_cons (h : c = '\r' → cs.head? ≠ some '\n') :
    indentLines k (c :: cs) = c :: ((if Enclosed.isNewline c then List.replicate k ' ' else []) ++
      indentLines k cs) := by
  rw [indentLines]
  · split <;> rfl
  · rintro rest hc rfl
    exact h hc rfl

theorem indentLines_eq_self (h : ∀ c ∈ cs, Enclosed.isNewline c = false) :
    indentLines k cs = cs := by
  induction cs with
  | nil => rfl
  | cons c cs ih =>
    rw [List.forall_mem_cons] at h
    have hreturn : c ≠ '\r' := by
      rintro rfl
      cases h.1
    rw [indentLines_cons fun hc => absurd hc hreturn, h.1, ih h.2]
    rfl

theorem indentLines_append (h : ∀ c ∈ ds, Enclosed.isNewline c = false) :
    indentLines k (cs ++ ds) = indentLines k cs ++ ds := by
  induction cs using indentLines.induct with
  | case1 => exact indentLines_eq_self h
  | case2 cs ih =>
    show '\r' :: '\n' :: (List.replicate k ' ' ++ indentLines k (cs ++ ds)) = _
    rw [ih, ← List.append_assoc]
    rfl
  | case3 c cs hpair hc ih | case4 c cs hpair hc ih =>
    have hhead := head?_of_not_pair hpair
    have hhead' : c = '\r' → (cs ++ ds).head? ≠ some '\n' := by
      intro hreturn
      cases cs with
      | nil =>
        intro hnil
        exact absurd (h '\n' (List.mem_of_head? hnil)) (by decide)
      | cons d cs => exact hhead hreturn
    rw [List.cons_append, indentLines_cons hhead', indentLines_cons hhead, ih, List.cons_append,
      List.append_assoc]

/-- Where line ends are line feeds, the blanks stand behind those. -/
theorem normalizeNewlines_indentLines :
    normalizeNewlines (indentLines k cs) =
      withLineEnds ('\n' :: List.replicate k ' ') (normalizeNewlines cs) := by
  induction cs using indentLines.induct with
  | case1 => rfl
  | case2 cs ih =>
    show '\n' :: normalizeNewlines (List.replicate k ' ' ++ indentLines k cs) =
      withLineEnds _ ('\n' :: normalizeNewlines cs)
    rw [normalizeNewlines_blanks, ih, withLineEnds_feed]
    rfl
  | case3 c cs hpair hc ih =>
    have hhead := head?_of_not_pair hpair
    rw [indentLines_cons hhead, if_pos hc]
    simp only [Enclosed.isNewline, Bool.or_eq_true, beq_iff_eq] at hc
    rcases hc with rfl | rfl
    · rw [normalizeNewlines_cons (by decide), normalizeNewlines_cons (by decide),
        normalizeNewlines_blanks, ih, withLineEnds_feed]
      rfl
    · -- No line feed comes to stand behind the carriage return, not even without blanks.
      have hblank : (List.replicate k ' ' ++ indentLines k cs).head? ≠ some '\n' := by
        cases k with
        | zero => simpa [head?_indentLines] using hhead rfl
        | succ k => simp [List.replicate_succ]
      rw [normalizeNewlines_return (hhead rfl), normalizeNewlines_return hblank,
        normalizeNewlines_blanks, ih, withLineEnds_feed]
      rfl
  | case4 c cs hpair hc ih =>
    have hplain : c ≠ '\n' ∧ c ≠ '\r' := by simpa [Enclosed.isNewline] using hc
    rw [indentLines_cons (head?_of_not_pair hpair), if_neg hc, List.nil_append,
      normalizeNewlines_cons hplain.2, normalizeNewlines_cons hplain.2, ih,
      withLineEnds_cons hplain.1]

/-- Line feeds that are all written another way are read as line feeds again. -/
theorem normalizeNewlines_withLineEnds (h : '\r' ∉ cs)
    (hend : lineEnd ∈ [['\r', '\n'], ['\r']]) :
    normalizeNewlines (withLineEnds lineEnd cs) = cs := by
  induction cs with
  | nil => rfl
  | cons c cs ih =>
    rw [List.mem_cons, not_or] at h
    have hrest := ih h.2
    by_cases hc : c = '\n'
    · subst hc
      rw [withLineEnds_feed]
      simp only [List.mem_cons, List.not_mem_nil, or_false] at hend
      rcases hend with rfl | rfl
      · exact congrArg ('\n' :: ·) hrest
      · have hhead : (withLineEnds ['\r'] cs).head? ≠ some '\n' := by
          cases cs with
          | nil => nofun
          | cons d ds =>
            by_cases hd : d = '\n'
            · subst hd
              nofun
            · rw [withLineEnds_cons hd]
              simpa using hd
        rw [List.singleton_append, normalizeNewlines_return hhead, hrest]
    · rw [withLineEnds_cons hc, normalizeNewlines_cons (Ne.symm h.1), hrest]

/-! The lines between line feeds. -/

theorem splitOn_append {pre : List Char} (h : '\n' ∉ pre) :
    (pre ++ cs).splitOn '\n' = (cs.splitOn '\n').modifyHead (pre ++ ·) := by
  induction pre with
  | nil => exact (congrFun List.modifyHead_id _).symm
  | cons c pre ih =>
    rw [List.mem_cons, not_or] at h
    have hc : ¬(c == '\n') = true := by simpa using Ne.symm h.1
    rw [List.cons_append, List.splitOn_cons_eq_if_modifyHead, if_neg hc, ih h.2,
      List.modifyHead_modifyHead]
    rfl

/-- What stands behind every line feed stands in front of every line but the first. -/
theorem splitOn_withLineEnds {pre : List Char} (h : '\n' ∉ pre) :
    ∃ first others, cs.splitOn '\n' = first :: others ∧
      (withLineEnds ('\n' :: pre) cs).splitOn '\n' = first :: others.map (pre ++ ·) := by
  induction cs with
  | nil => exact ⟨[], [], rfl, rfl⟩
  | cons c cs ih =>
    obtain ⟨first, others, hlines, hindented⟩ := ih
    by_cases hc : c = '\n'
    · subst hc
      refine ⟨[], first :: others, ?_, ?_⟩
      · rw [List.splitOn_cons_eq_if_modifyHead, if_pos BEq.rfl, hlines]
      · rw [withLineEnds_feed, List.cons_append, List.splitOn_cons_eq_if_modifyHead, if_pos BEq.rfl,
          splitOn_append h, hindented]
        rfl
    · have hc' : ¬(c == '\n') = true := by simpa using hc
      refine ⟨c :: first, others, ?_, ?_⟩
      · rw [List.splitOn_cons_eq_if_modifyHead, if_neg hc', hlines]
        rfl
      · rw [withLineEnds_cons hc, List.splitOn_cons_eq_if_modifyHead, if_neg hc', hindented]
        rfl

end LineEnds

section Blocks

variable (b : BlockText) {k : Nat} {inner : List Char}

/-- The value of a text block is made of the lines between its delimiters. -/
theorem blockLines_delimited :
    blockLines (String.ofList (blockDelimiter ++ inner ++ blockDelimiter)) =
      (((normalizeNewlines inner).dropWhile (· != '\n')).drop 1).splitOn '\n' := by
  have hbetween : between? ['"', '"', '"'] (blockDelimiter ++ inner ++ blockDelimiter) =
      some inner := by
    simp [between?, blockDelimiter, List.isPrefixOf]
  unfold blockLines
  rw [String.toList_ofList, hbetween]
  rfl

/-- The lines below the one of the opening delimiter. -/
theorem dropWhile_below {front rest : List Char} (h : '\n' ∉ front) :
    ((front ++ '\n' :: rest).dropWhile (· != '\n')).drop 1 = rest := by
  have hfront : ∀ c ∈ front, (c != '\n') = true := by
    intro c hc
    simp only [bne_iff_ne]
    rintro rfl
    exact h hc
  rw [List.dropWhile_append_of_pos hfront]
  rfl

theorem normalizeNewlines_inner :
    ∃ rest, normalizeNewlines b.inner = b.blanks ++ '\n' :: rest ∧ '\n' ∉ b.blanks := by
  have hplain : '\n' ∉ b.blanks ∧ '\r' ∉ b.blanks :=
    ⟨fun h => absurd (b.blanks_all _ h) (by decide), fun h => absurd (b.blanks_all _ h) (by decide)⟩
  have hend := b.isLineEnd
  simp only [Enclosed.isNewline, Bool.or_eq_true, beq_iff_eq] at hend
  obtain ⟨rest, hrest⟩ : ∃ rest, normalizeNewlines (b.lineEnd :: b.content) = '\n' :: rest := by
    rcases hend with hend | hend
    · rw [hend, normalizeNewlines_cons (by decide)]
      exact ⟨_, rfl⟩
    · rw [hend]
      by_cases hhead : b.content.head? = some '\n'
      · obtain ⟨cs, hcs⟩ := List.head?_eq_some_iff.mp hhead
        rw [hcs]
        exact ⟨_, rfl⟩
      · exact ⟨_, normalizeNewlines_return hhead⟩
  exact ⟨rest, by rw [BlockText.inner, normalizeNewlines_append hplain.2, hrest], hplain.1⟩

theorem blockLines_indented :
    blockLines (String.ofList (blockDelimiter ++ indentLines k b.inner ++ blockDelimiter)) =
      (blockLines (String.ofList b.chars)).map (List.replicate k ' ' ++ ·) := by
  have hblanks : '\n' ∉ List.replicate k ' ' := fun h =>
    absurd (List.eq_of_mem_replicate h) (by decide)
  obtain ⟨rest, hinner, hfront⟩ := normalizeNewlines_inner b
  obtain ⟨first, others, hlines, hindented⟩ := @splitOn_withLineEnds rest _ hblanks
  have hmoved : withLineEnds ('\n' :: List.replicate k ' ') (b.blanks ++ '\n' :: rest) =
      b.blanks ++ '\n' :: (List.replicate k ' ' ++
        withLineEnds ('\n' :: List.replicate k ' ') rest) := by
    rw [withLineEnds, List.flatMap_append, ← withLineEnds, withLineEnds_eq_self hfront]
    rfl
  rw [BlockText.chars, blockLines_delimited, blockLines_delimited, normalizeNewlines_indentLines,
    hinner, hmoved, dropWhile_below hfront, dropWhile_below hfront, splitOn_append hblanks,
    hlines, hindented]
  rfl

theorem textBlockValue_indented :
    textBlockValue (String.ofList (indentLines k b.chars)) =
      textBlockValue (String.ofList b.chars) := by
  have hdelimiter : ∀ c ∈ blockDelimiter, Enclosed.isNewline c = false := by
    simp [blockDelimiter, Enclosed.isNewline]
  have hopen : indentLines k b.chars =
      blockDelimiter ++ indentLines k b.inner ++ blockDelimiter := by
    rw [BlockText.chars, indentLines_append hdelimiter]
    rfl
  have hne : blockLines (String.ofList b.chars) ≠ [] := List.splitOn_ne_nil _ _
  -- Escapes are read last, off the stripped lines, so they never see the blanks.
  unfold textBlockValue
  rw [hopen, blockLines_indented]
  simp only [stripped_indented hne]

theorem textBlockValue_withLineEnds {lineEnd : List Char} (h : '\r' ∉ b.chars)
    (hend : lineEnd ∈ [['\r', '\n'], ['\r']]) :
    textBlockValue (String.ofList (withLineEnds lineEnd b.chars)) =
      textBlockValue (String.ofList b.chars) := by
  have hdelimiter : withLineEnds lineEnd blockDelimiter = blockDelimiter :=
    withLineEnds_eq_self (by decide)
  have hopen : withLineEnds lineEnd b.chars =
      blockDelimiter ++ withLineEnds lineEnd b.inner ++ blockDelimiter := by
    unfold withLineEnds at hdelimiter ⊢
    rw [BlockText.chars, List.flatMap_append, List.flatMap_append, hdelimiter]
  have hinner : '\r' ∉ b.inner := fun hmem => h (by simp [BlockText.chars, hmem])
  have hsame : normalizeNewlines b.inner = b.inner := by
    have happend := @normalizeNewlines_append b.inner [] hinner
    rwa [List.append_nil, normalizeNewlines, List.append_nil] at happend
  have hlines : blockLines (String.ofList (withLineEnds lineEnd b.chars)) =
      blockLines (String.ofList b.chars) := by
    rw [hopen, BlockText.chars, blockLines_delimited, blockLines_delimited,
      normalizeNewlines_withLineEnds hinner hend, hsame]
  unfold textBlockValue
  rw [hlines]

end Blocks

/-- A text block has the same value, or the same error, wherever it stands and however its lines
end. -/
theorem textBlock_portable {keepDocs : Bool} {source : String} {t : Token}
    (ht : .token t ∈ lex keepDocs source) (hk : t.kind = .textBlockLit) :
    (∀ k, textBlockValue (String.ofList (indentLines k t.text.toList)) = textBlockValue t.text) ∧
      ('\r' ∉ t.text.toList → ∀ lineEnd ∈ [['\r', '\n'], ['\r']],
        textBlockValue (String.ofList (withLineEnds lineEnd t.text.toList)) =
          textBlockValue t.text) := by
  obtain ⟨b, hb⟩ := lex_block ht hk
  have htext : t.text = String.ofList b.chars := by rw [hb, String.ofList_toList]
  rw [← hb, htext]
  exact ⟨fun k => textBlockValue_indented b,
    fun h lineEnd hend => textBlockValue_withLineEnds b h hend⟩

/-- A block of one line, moved in by two blanks and written with carriage returns. -/
theorem textBlock_portable_line :
    .token ⟨.textBlockLit, "\"\"\"\n  a\n \"\"\"", 0, 12, none⟩ ∈ lex true "\"\"\"\n  a\n \"\"\"" ∧
      textBlockValue "\"\"\"\n    a\n   \"\"\"" = textBlockValue "\"\"\"\n  a\n \"\"\"" ∧
      textBlockValue "\"\"\"\r\n  a\r\n \"\"\"" = textBlockValue "\"\"\"\n  a\n \"\"\"" := by
  have ht : .token ⟨.textBlockLit, "\"\"\"\n  a\n \"\"\"", 0, 12, none⟩ ∈
      lex true "\"\"\"\n  a\n \"\"\"" := by
    decide
  obtain ⟨hmoved, hends⟩ := textBlock_portable ht rfl
  exact ⟨ht, hmoved 2, hends (by decide) ['\r', '\n'] (by decide)⟩

end JavaSyntax.Literal
