import JavaSyntax.Literal.Quoted
import JavaSyntax.Proofs.Cutting

/-!
Strings and characters between quotes. What is printed for a character is scanned whole and stands
for that character again, so a quoted text is cut off as one word and read back as what was quoted.
-/

namespace JavaSyntax.Literal

/-- Text that the scanner goes past, one by one, inside quotes. -/
def isBare (quote c : Char) : Bool :=
  c != '\\' && c != quote && !Enclosed.isNewline c

theorem quoted_bare {quote : Char} {cs : List Char} (h : ∀ c ∈ cs, isBare quote c = true) (n : Nat)
    (rest : List Char) :
    Enclosed.quoted quote n (cs ++ rest) = Enclosed.quoted quote (n + cs.length) rest := by
  induction cs generalizing n with
  | nil => rfl
  | cons c cs ih =>
    have hc := h c List.mem_cons_self
    simp only [isBare, Bool.and_eq_true, bne_iff_ne, Bool.not_eq_eq_eq_not, Bool.not_true] at hc
    obtain ⟨⟨hslash, hquote⟩, hnewline⟩ := hc
    rw [List.cons_append, Enclosed.quoted.eq_4 _ _ _ _ (by simp [hslash]) (by simp [hslash]),
      if_neg hquote, if_neg (by simp [hnewline]), ih fun x hx => h x (List.mem_cons_of_mem c hx)]
    congr 1
    simp only [List.length_cons]
    omega

theorem between?_quoted (quote : Char) (inner : List Char) :
    between? [quote] (quote :: (inner ++ [quote])) = some inner := by
  simp [between?, List.isPrefixOf]

/-- The characters stand for one inside quotes. -/
structure StandsFor (quote c : Char) (cs : List Char) : Prop where
  opens : ∃ d ds, cs = d :: ds ∧ d ≠ quote
  scanned : ∀ n rest,
    Enclosed.quoted quote n (cs ++ rest) = Enclosed.quoted quote (n + cs.length) rest
  resolved : ∀ offset rest, ∃ further, unescapeFrom false 0 offset (cs ++ rest) =
    (unescapeFrom false 0 further rest).map (c :: ·)

section Characters

variable {quote c : Char}

theorem standsFor_bare (h : isBare quote c = true) : StandsFor quote c [c] := by
  refine ⟨⟨c, [], rfl, ?_⟩, fun n rest => quoted_bare (by simpa using h) n rest,
    fun offset rest => ⟨offset + c.utf8Size, ?_⟩⟩
  · simp only [isBare, Bool.and_eq_true, bne_iff_ne] at h
    exact h.1.2
  · simp only [isBare, Bool.and_eq_true, bne_iff_ne] at h
    simp only [List.singleton_append, unescapeFrom, if_neg h.1.1]

theorem standsFor_escape {e : Char} (hquote : quote ≠ '\\') (he : simpleEscape? e = some c) :
    StandsFor quote c ['\\', e] := by
  have hnewline : Enclosed.isNewline e = false := by
    unfold simpleEscape? at he
    split at he <;> first | rfl | cases he
  refine ⟨⟨'\\', [e], rfl, hquote.symm⟩, fun n rest => ?_, fun offset rest => ?_⟩
  · show (if Enclosed.isNewline e then (n + 1, false) else Enclosed.quoted quote (n + 2) rest) = _
    rw [if_neg (by simp [hnewline])]
    rfl
  · refine ⟨offset + 1 + e.utf8Size, ?_⟩
    have hescape : escape? false (e :: rest) = some ([c], 1) := by
      simp only [escape?, he]
    simp only [List.cons_append, List.nil_append, unescapeFrom, if_true, hescape]

/-- Control characters are written with four digits. -/
theorem hexadecimal_control {n : Nat} (h : n < 160) :
    (Flaw.hexadecimal n).toList.length = 4 ∧ ofDigits? 16 (Flaw.hexadecimal n).toList = some n ∧
      ∀ d ∈ (Flaw.hexadecimal n).toList, d ≠ 'u' ∧ isBare '"' d = true ∧ isBare '\'' d = true := by
  have hall : ∀ n : Fin 160, (Flaw.hexadecimal n).toList.length = 4 ∧
      ofDigits? 16 (Flaw.hexadecimal n).toList = some n.val ∧
        (Flaw.hexadecimal n).toList.all (fun d => d != 'u' && isBare '"' d && isBare '\'' d) =
          true := by
    decide +kernel
  obtain ⟨hlength, hdigits, hbare⟩ := hall ⟨n, h⟩
  refine ⟨hlength, hdigits, fun d hd => ?_⟩
  have hd := List.all_eq_true.mp hbare d hd
  simp only [Bool.and_eq_true, bne_iff_ne] at hd
  exact ⟨hd.1.1, hd.1.2, hd.2⟩

theorem unescapeFrom_skip (offset : Nat) (cs rest : List Char) : ∃ further,
    unescapeFrom false cs.length offset (cs ++ rest) = unescapeFrom false 0 further rest := by
  induction cs generalizing offset with
  | nil => exact ⟨offset, rfl⟩
  | cons c cs ih => exact ih (offset + c.utf8Size)

theorem ofCodePoint_toNat (c : Char) : ofCodePoint c.toNat = c := by
  have hvalid : c.toNat.isValidChar := c.valid
  unfold ofCodePoint
  rw [if_pos hvalid, Char.ofNat_toNat]

theorem standsFor_code (hquote : quote = '"' ∨ quote = '\'') (hc : Unicode.isControl c = true) :
    StandsFor quote c ('\\' :: 'u' :: (Flaw.hexadecimal c.toNat).toList) := by
  have hlt : c.toNat < 160 := by
    simp only [Unicode.isControl, Unicode.inRanges, List.any_cons, List.any_nil, Bool.or_false,
      Bool.or_eq_true, Bool.and_eq_true, decide_eq_true_eq] at hc
    omega
  obtain ⟨hlength, hdigits, hall⟩ := hexadecimal_control hlt
  generalize (Flaw.hexadecimal c.toNat).toList = ds at hlength hdigits hall
  have hbare : ∀ d ∈ ds, isBare quote d = true := by
    intro d hd
    rcases hquote with rfl | rfl
    · exact (hall d hd).2.1
    · exact (hall d hd).2.2
  refine ⟨⟨_, _, rfl, by rcases hquote with rfl | rfl <;> decide⟩, fun n rest => ?_,
    fun offset rest => ?_⟩
  · show Enclosed.quoted quote (n + 2) (ds ++ rest) = _
    rw [quoted_bare hbare]
    congr 1
    simp only [List.length_cons]
    omega
  · have hrun : Numeral.run (· == 'u') (ds ++ rest) = 0 := by
      obtain ⟨d, es, rfl⟩ := List.exists_cons_of_length_pos (by omega : 0 < ds.length)
      have hd : (d == 'u') = false := by simpa using (hall d List.mem_cons_self).1
      simp [Numeral.run, hd]
    have htake : (ds ++ rest).take 4 = ds := by rw [← hlength, List.take_left]
    have hescape : escape? false ('u' :: (ds ++ rest)) = some ([c], ('u' :: ds).length) := by
      have hsimple : simpleEscape? 'u' = none := rfl
      have hoctal : isOctal 'u' = false := rfl
      simp only [escape?, hsimple, hoctal, hrun, Nat.add_zero, List.drop_succ_cons, List.drop_zero,
        htake, hlength, hdigits, Option.map_some, ofCodePoint_toNat, List.length_cons]
      rfl
    obtain ⟨further, hfurther⟩ := unescapeFrom_skip (offset + 1) ('u' :: ds) rest
    refine ⟨further, ?_⟩
    simp only [List.cons_append, unescapeFrom, if_true, hescape] at hfurther ⊢
    rw [hfurther]
    rfl

/-- Whatever the character, what is printed for it stands for it. -/
theorem standsFor_escaped (hquote : quote = '"' ∨ quote = '\'') (c : Char) :
    StandsFor quote c (escaped quote c) := by
  have hslash : quote ≠ '\\' := by rcases hquote with rfl | rfl <;> decide
  have hescape {d e : Char} (hc : c = d) (he : simpleEscape? e = some d) :
      StandsFor quote c ['\\', e] := hc ▸ standsFor_escape hslash he
  unfold escaped
  split
  · exact hescape ‹_› rfl
  split
  · exact hescape ‹_› rfl
  split
  · exact hescape ‹_› rfl
  split
  · exact hescape ‹_› rfl
  split
  · exact hescape ‹_› rfl
  split
  · exact hescape ‹_› rfl
  split
  · rename_i h
    rw [h]
    rcases hquote with rfl | rfl <;> exact standsFor_escape hslash rfl
  split
  · rename_i h
    exact standsFor_code hquote h
  · rename_i hn _ hr _ _ hb hq _
    refine standsFor_bare ?_
    simp [isBare, Enclosed.isNewline, hn, hr, hb, hq]

end Characters

section Texts

variable {quote : Char} (hquote : quote = '"' ∨ quote = '\'')

include hquote

theorem quoted_escaped (cs rest : List Char) (n : Nat) :
    Enclosed.quoted quote n (cs.flatMap (escaped quote) ++ quote :: rest) =
      (n + (cs.flatMap (escaped quote)).length + 1, true) := by
  induction cs generalizing n with
  | nil =>
    have hslash : quote ≠ '\\' := by rcases hquote with rfl | rfl <;> decide
    rw [List.flatMap_nil, List.nil_append,
      Enclosed.quoted.eq_4 _ _ _ _ (by simp [hslash]) (by simp [hslash]), if_pos rfl]
    rfl
  | cons c cs ih =>
    rw [List.flatMap_cons, List.append_assoc, (standsFor_escaped hquote c).scanned, ih,
      List.length_append, Nat.add_assoc n]

theorem unescapeFrom_escaped (cs : List Char) (offset : Nat) :
    unescapeFrom false 0 offset (cs.flatMap (escaped quote)) = .ok cs := by
  induction cs generalizing offset with
  | nil => rfl
  | cons c cs ih =>
    obtain ⟨further, h⟩ :=
      (standsFor_escaped hquote c).resolved offset (cs.flatMap (escaped quote))
    rw [List.flatMap_cons, h, ih]
    rfl

theorem body_quoted (cs : List Char) : body quote (quoted quote cs) = .ok cs := by
  unfold body quoted
  dsimp only
  rw [String.toList_ofList, List.cons_append, between?_quoted, Option.getD_some,
    unescapeFrom_escaped hquote]

end Texts

/-- A quoted string is read back. -/
theorem stringValue_quoted (s : String) : stringValue (quoted '"' s.toList) = .ok s := by
  unfold stringValue
  rw [body_quoted (.inl rfl)]
  exact congrArg Except.ok String.ofList_toList

theorem charValue_quoted (c : Char) : charValue (quoted '\'' [c]) = .ok c := by
  unfold charValue
  rw [body_quoted (.inr rfl)]
  rfl

theorem toList_quoted (quote : Char) (cs : List Char) :
    (quoted quote cs).toList = quote :: (cs.flatMap (escaped quote) ++ [quote]) := by
  unfold quoted
  rw [String.toList_ofList, List.cons_append]

/-- Behind a string there must be no quote: an empty one would open a text block with it. -/
theorem starts_string {s : String} {rest : List Char} (hr : Follows (· != '"') rest) :
    Starts (.stringLit, quoted '"' s.toList) rest := by
  refine ⟨_, _, toList_quoted .., ?_⟩
  have hscan := quoted_escaped (.inl rfl) s.toList rest 1
  rw [List.append_assoc, List.singleton_append]
  unfold Lexer.piece
  rw [if_neg (by decide), if_neg (by decide), if_neg (by decide)]
  split
  · rename_i more heq
    exfalso
    cases hs : s.toList with
    | nil =>
      rw [hs] at heq
      have hquote := hr '"' (by rw [(List.cons.inj heq).2]; rfl)
      cases hquote
    | cons c cs =>
      obtain ⟨d, ds, hd, hne⟩ := (standsFor_escaped (.inl rfl) c).opens
      rw [hs, List.flatMap_cons, hd] at heq
      exact hne (List.cons.inj heq).1
  · unfold Lexer.string
    rw [hscan, toList_quoted]
    simp only [List.length_cons, List.length_append, List.length_nil]
    congr 1
    omega
  all_goals contradiction

/-- Nothing behind a character matters: it ends at its own quote. -/
theorem starts_char {c : Char} {rest : List Char} : Starts (.charLit, quoted '\'' [c]) rest := by
  refine ⟨_, _, toList_quoted .., ?_⟩
  have hscan := quoted_escaped (.inr rfl) [c] rest 1
  obtain ⟨d, ds, hd, hne⟩ := (standsFor_escaped (.inr rfl) c).opens
  rw [List.flatMap_cons, List.flatMap_nil, List.append_nil] at hscan
  rw [List.append_assoc, List.singleton_append, List.flatMap_cons, List.flatMap_nil,
    List.append_nil]
  show Lexer.character (escaped '\'' c ++ '\'' :: rest) = _
  unfold Lexer.character
  rw [if_neg (by rw [hd]; simpa using hne), hscan, toList_quoted]
  simp only [List.flatMap_cons, List.flatMap_nil, List.append_nil, List.length_cons,
    List.length_append, List.length_nil]
  congr 1
  omega

end JavaSyntax.Literal
