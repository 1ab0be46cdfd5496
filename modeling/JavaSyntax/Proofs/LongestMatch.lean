import JavaSyntax.Proofs.LineBreaks
import JavaSyntax.Proofs.Matching
import JavaSyntax.Proofs.Respacing

/-!
Lexing by longest match, whatever the scanner. No pattern but that of line comments matches beyond a
blank, and none beyond a line end, except the blanks themselves. So a word is found again with a
blank behind it, and the lines of a text are lexed one after the other.
-/

namespace JavaSyntax.Lexer

open Enclosed (isNewline)

/-! What the patterns begin with, and what they go over. -/

/-- What a pattern of the lexer shows by itself. -/
structure Matcher.Facts (m : Matcher) : Prop where
  needed : m.pattern.nullable = false
  blanks : ∀ c, isSkipped c = true → m.pattern.starts c = true → m = .blanks
  slashes : ∀ q ∈ m.pattern.after '/', q.starts '/' = true → m = .lineComment
  star : ∀ q ∈ m.pattern.after '/', q.starts '*' = true → m = .blockComment ∨ m = .docComment
  overBlank : m.pattern.mentions ' ' = true → m = .blanks ∨ m = .lineComment
  overNewline : m.pattern.mentions '\n' = true → m = .blanks

theorem mem_of_isSkipped {c : Char} (h : isSkipped c = true) :
    c ∈ [' ', '\t', '\r', '\n', '\x0c', '\uFEFF', '\x1A'] := by
  simpa [isSkipped, or_assoc] using h

theorem Matcher.facts {m : Matcher} (hm : m ∈ matchers) : m.Facts := by
  have hall : matchers.all (fun m => !m.pattern.nullable &&
      [' ', '\t', '\r', '\n', '\x0c', '\uFEFF', '\x1A'].all (fun c =>
        !m.pattern.starts c || m == .blanks) &&
      (m.pattern.after '/').all (fun q => !q.starts '/' || m == .lineComment) &&
      (m.pattern.after '/').all (fun q =>
        !q.starts '*' || (m == .blockComment || m == .docComment)) &&
      (!m.pattern.mentions ' ' || (m == .blanks || m == .lineComment)) &&
      (!m.pattern.mentions '\n' || m == .blanks)) = true := by
    decide +kernel
  have hm' := List.all_eq_true.mp hall m hm
  simp only [Bool.and_eq_true, List.all_eq_true, Bool.or_eq_true, Bool.not_eq_true', beq_iff_eq,
    ← Bool.not_eq_true, ← imp_iff_not_or] at hm'
  obtain ⟨⟨⟨⟨⟨hneeded, hblanks⟩, hslashes⟩, hstar⟩, hblank⟩, hnewline⟩ := hm'
  exact ⟨Bool.eq_false_iff.mpr hneeded, fun c hc => hblanks c (mem_of_isSkipped hc), hslashes,
    hstar, hblank, hnewline⟩

section Matchers

variable {m : Matcher} {cs : List Char}

theorem matcher_of_isSkipped (hm : m ∈ matchers) {c : Char} (hc : isSkipped c = true)
    (h : m.pattern.Matches (c :: cs)) : m = .blanks :=
  (Matcher.facts hm).blanks c hc (Pattern.starts_of_matches h)

theorem matcher_of_slashes (hm : m ∈ matchers) (h : m.pattern.Matches ('/' :: '/' :: cs)) :
    m = .lineComment := by
  obtain ⟨q, hq, hmore⟩ := (Pattern.matches_cons _ '/' ('/' :: cs)).mp h
  exact (Matcher.facts hm).slashes q hq (Pattern.starts_of_matches hmore)

theorem matcher_of_star (hm : m ∈ matchers) (h : m.pattern.Matches ('/' :: '*' :: cs)) :
    m = .blockComment ∨ m = .docComment := by
  obtain ⟨q, hq, hmore⟩ := (Pattern.matches_cons _ '/' ('*' :: cs)).mp h
  exact (Matcher.facts hm).star q hq (Pattern.starts_of_matches hmore)

theorem matcher_of_mem_blank (hm : m ∈ matchers) (h : m.pattern.Matches cs) (hc : ' ' ∈ cs) :
    m = .blanks ∨ m = .lineComment :=
  (Matcher.facts hm).overBlank (Pattern.mentions_of_mem h hc)

theorem matcher_of_mem_newline (hm : m ∈ matchers) (h : m.pattern.Matches cs) (hc : '\n' ∈ cs) :
    m = .blanks :=
  (Matcher.facts hm).overNewline (Pattern.mentions_of_mem h hc)

end Matchers

theorem mem_take_append {cs : List Char} {k : Nat} (h : cs.length < k) (c : Char)
    (more : List Char) : c ∈ (cs ++ c :: more).take k := by
  rw [List.take_append, List.mem_append, ← Nat.succ_pred (Nat.sub_ne_zero_of_lt h)]
  exact .inr List.mem_cons_self

theorem drop_run (p : Char → Bool) (cs : List Char) :
    cs.drop (Numeral.run p cs) = cs.dropWhile p := by
  have hdrop := @List.drop_left _ (cs.takeWhile p) (cs.dropWhile p)
  rwa [List.takeWhile_append_dropWhile] at hdrop

theorem all_of_blanks {cs : List Char} (h : Matcher.blanks.pattern.Matches cs) :
    ∀ c ∈ cs, isSkipped c = true := by
  obtain ⟨front, back, rfl, ⟨c, rfl, hc⟩, hback⟩ := h
  exact List.forall_mem_cons.mpr ⟨hc, hback⟩

namespace Best

variable {cs front back rest : List Char} {m : Matcher} {n : Nat}

theorem length_take (h : Best cs m n) : (cs.take n).length = n :=
  List.length_take_of_le h.le

/-- The same match is the best of another text that starts alike, if nothing else matches more. -/
theorem transfer {ds : List Char} (h : Best cs m n) (hsame : ds.take n = cs.take n)
    (hlongest : ∀ l ∈ matchers, ∀ k ≤ ds.length, l.pattern.Matches (ds.take k) → k ≤ n) :
    Best ds m n := by
  refine ⟨h.pos, ?_, hsame ▸ h.matched, hlongest, hsame ▸ h.first⟩
  have hlength := congrArg List.length hsame
  rw [h.length_take, List.length_take] at hlength
  omega

theorem blanks_of_head (h : Best cs m n) {c : Char} (hc : cs.head? = some c)
    (hskip : isSkipped c = true) : m = .blanks := by
  obtain ⟨rest, rfl⟩ := List.head?_eq_some_iff.mp hc
  obtain ⟨k, rfl⟩ := Nat.exists_eq_succ_of_ne_zero (Nat.pos_iff_ne_zero.mp h.pos)
  exact matcher_of_isSkipped h.mem hskip h.matched

theorem of_blanks {c : Char} (hc : isSkipped c = true) (cs : List Char) :
    Best (c :: cs) .blanks (Numeral.run isSkipped (c :: cs)) := by
  have hmatched : Matcher.blanks.pattern.Matches ((c :: cs).takeWhile isSkipped) := by
    rw [List.takeWhile_cons_of_pos hc]
    exact ⟨[c], _, rfl, ⟨c, rfl, hc⟩, List.all_eq_true.mp List.all_takeWhile⟩
  have honly {l : Matcher} (hl : l ∈ matchers) {k : Nat} (hk : 0 < k)
      (h : l.pattern.Matches ((c :: cs).take k)) : l = .blanks := by
    obtain ⟨k, rfl⟩ := Nat.exists_eq_succ_of_ne_zero (Nat.pos_iff_ne_zero.mp hk)
    exact matcher_of_isSkipped hl hc h
  have hpos := run_pos cs hc
  refine ⟨hpos, (List.takeWhile_prefix _).length_le, ?_, fun l hl k hk h => ?_, ?_⟩
  · rwa [take_run]
  · rcases Nat.eq_zero_or_pos k with rfl | hk'
    · exact Nat.zero_le _
    · obtain rfl := honly hl hk' h
      have hall : ((c :: cs).take k ++ (c :: cs).drop k).takeWhile isSkipped =
          (c :: cs).take k ++ ((c :: cs).drop k).takeWhile isSkipped :=
        List.takeWhile_append_of_pos (all_of_blanks h)
      rw [List.take_append_drop] at hall
      rw [Numeral.run, hall, List.length_append, List.length_take_of_le hk]
      exact Nat.le_add_right ..
  · obtain ⟨before, later, hlist, hnone⟩ := List.eq_append_cons_of_mem
      (show Matcher.blanks ∈ matchers by decide)
    refine ⟨before, later, hlist, fun l hl h => hnone ?_⟩
    rwa [← honly (hlist ▸ List.mem_append_left _ hl) hpos h]

/-- Blanks reach beyond a text that does not start with one only where they match nothing of it. -/
theorem not_blanks {c : Char} {ds : List Char} {k : Nat} (h : Best (c :: cs) m n)
    (hm : m ≠ .blanks) (hk : 0 < k) : ¬Matcher.blanks.pattern.Matches ((c :: ds).take k) := by
  intro hmatched
  obtain ⟨k, rfl⟩ := Nat.exists_eq_succ_of_ne_zero (Nat.pos_iff_ne_zero.mp hk)
  exact hm (h.blanks_of_head rfl (all_of_blanks hmatched c List.mem_cons_self))

theorem exists_cons (h : Best cs m n) : ∃ c ds, cs = c :: ds := by
  cases cs with
  | nil => exact absurd h.le (Nat.not_le.mpr h.pos)
  | cons c ds => exact ⟨c, ds, rfl⟩

/-- The best match in front of a line end is the best one whatever comes behind that. -/
theorem newline (h : Best cs m n) (hm : m ≠ .blanks) (more : List Char) :
    Best (cs ++ '\n' :: more) m n := by
  refine h.transfer (List.take_append_of_le_length h.le) fun l hl k hk hmatched => ?_
  rcases Nat.lt_or_ge cs.length k with hlong | hshort
  · obtain rfl := matcher_of_mem_newline hl hmatched (mem_take_append hlong '\n' more)
    obtain ⟨c, ds, rfl⟩ := h.exists_cons
    exact absurd hmatched (h.not_blanks hm (Nat.zero_lt_of_lt hlong))
  · rw [List.take_append_of_le_length hshort] at hmatched
    exact h.longest l hl k hshort hmatched

theorem of_newline {more : List Char} (h : Best (cs ++ '\n' :: more) m n) (hm : m ≠ .blanks) :
    Best cs m n := by
  have hn : n ≤ cs.length := by
    refine Nat.le_of_not_lt fun hlong => hm ?_
    exact matcher_of_mem_newline h.mem h.matched (mem_take_append hlong '\n' more)
  refine h.transfer (List.take_append_of_le_length hn).symm fun l hl k hk hmatched => ?_
  refine h.longest l hl k (Nat.le_trans hk (List.prefix_append ..).length_le) ?_
  rwa [List.take_append_of_le_length hk]

/-- The best match in front of anything is the best one in front of a blank. -/
theorem clipped (h : Best (front ++ back) m n) (hn : n ≤ front.length)
    (hm : m ≠ .blanks ∧ m ≠ .lineComment) (hrest : JavaSyntax.Follows (· == ' ') rest) :
    Best (front ++ rest) m n := by
  have htake {k : Nat} (hk : k ≤ front.length) (us vs : List Char) :
      (front ++ us).take k = (front ++ vs).take k := by
    rw [List.take_append_of_le_length hk, List.take_append_of_le_length hk]
  have hback {k : Nat} (hk : k ≤ front.length) : k ≤ (front ++ back).length :=
    Nat.le_trans hk (List.prefix_append ..).length_le
  refine h.transfer (htake hn _ _) fun l hl k hk hmatched => ?_
  rcases Nat.lt_or_ge front.length k with hlong | hshort
  · cases rest with
    | nil =>
      rw [List.append_nil] at hk
      exact absurd hk (Nat.not_le.mpr hlong)
    | cons d rest =>
      obtain rfl : d = ' ' := beq_iff_eq.mp (hrest d rfl)
      rcases matcher_of_mem_blank hl hmatched (mem_take_append hlong ' ' rest) with rfl | rfl
      · cases front with
        | nil => exact absurd hn (Nat.not_le.mpr h.pos)
        | cons c front => exact absurd hmatched (h.not_blanks hm.1 (Nat.zero_lt_of_lt hlong))
      · -- The slashes of a comment stand in front of the blank, where they match already.
        obtain ⟨_, body, hsplit, rfl, -⟩ := hmatched
        have hslashes : ['/', '/'] <+: front ++ ' ' :: rest :=
          List.IsPrefix.trans ⟨body, hsplit.symm⟩ (List.take_prefix ..)
        obtain ⟨more, rfl⟩ := prefix_spaced rfl hslashes fun d hd => by cases hd; rfl
        have htwo : 2 ≤ n :=
          h.longest _ hl 2 (hback (by simp)) ⟨_, [], rfl, rfl, nofun⟩
        obtain ⟨n, rfl⟩ := Nat.exists_eq_add_of_le' htwo
        exact absurd (matcher_of_slashes h.mem h.matched) hm.2
  · rw [htake hshort _ back] at hmatched
    exact h.longest l hl k (hback hshort) hmatched

/-- The characters that a fixed text takes. -/
theorem fixed {text : List Char} (h : Best cs m n) (hm : m.pattern = .text text) :
    n = text.length ∧ ∃ rest, cs = text ++ rest := by
  have hmatched : m.pattern.Matches (cs.take n) := h.matched
  rw [hm] at hmatched
  have htake : cs.take n = text := hmatched
  refine ⟨by rw [← htake, h.length_take], cs.drop n, ?_⟩
  rw [← htake, List.take_append_drop]

end Best

/-! What is read from the match on. -/

theorem isFlaw_of_textBlock {cs : List Char} {found : Piece} {n : Nat}
    (h : textBlock cs = (found, n)) (hclosed : ∀ flaw, found = .flaw flaw → flaw.isOpen = false) :
    found.isFlaw = false := by
  unfold textBlock at h
  repeat' split at h
  all_goals
    cases h
    first
    | rfl
    | cases hclosed _ rfl

theorem isFlaw_of_comment {cs : List Char} {found : Piece} {n : Nat}
    (h : comment cs = (found, n)) (hclosed : ∀ flaw, found = .flaw flaw → flaw.isOpen = false) :
    found.isFlaw = false := by
  unfold comment at h
  repeat' split at h
  all_goals
    cases h
    first
    | rfl
    | cases hclosed _ rfl

namespace Best

variable {c : Char} {cs front back rest : List Char} {m : Matcher} {n k : Nat}

/-- What starts in front of a line end is read as far as before, whatever comes behind that. -/
theorem read_separated (h : Best (c :: cs) m n) {found : Piece}
    (hread : m.read (c :: cs) n = (found, k))
    (hclosed : ∀ flaw, found = .flaw flaw → flaw.isOpen = false) :
    k ≤ (c :: cs).length ∧ ∀ more, m.read (c :: (cs ++ '\n' :: more)) n = (found, k) := by
  cases m with
  | string =>
    obtain ⟨rfl, rest, heq⟩ := h.fixed rfl
    cases heq
    exact ⟨string_le hread, fun more => (stable_string rest '\n' more rfl).trans hread⟩
  | character =>
    obtain ⟨rfl, rest, heq⟩ := h.fixed rfl
    cases heq
    exact ⟨character_le hread, fun more => (stable_character rest '\n' more rfl).trans hread⟩
  | textBlock =>
    obtain ⟨rfl, rest, heq⟩ := h.fixed rfl
    cases heq
    have hseparated := separated_textBlock hread (isFlaw_of_textBlock hread hclosed)
    exact ⟨hseparated.le, fun more => hseparated.stable '\n' more rfl⟩
  | blockComment | docComment =>
    obtain ⟨rfl, rest, heq⟩ := h.fixed rfl
    cases heq
    have hsound := isFlaw_of_comment hread hclosed
    exact ⟨comment_le hread hsound, fun more => comment_append hread hsound _⟩
  | _ =>
    cases hread
    exact ⟨h.le, fun _ => rfl⟩

theorem read_pos (h : Best (c :: cs) m n) {found : Piece}
    (hread : m.read (c :: cs) n = (found, k)) : 0 < k := by
  cases m with
  | string =>
    change string _ = _ at hread
    unfold string at hread
    split at hread <;>
    · cases hread
      exact le_of_quoted ‹_›
  | character =>
    change character _ = _ at hread
    unfold character at hread
    split at hread
    · cases hread
      exact Nat.two_pos
    · split at hread <;>
      · cases hread
        exact le_of_quoted ‹_›
  | textBlock =>
    change textBlock _ = _ at hread
    unfold textBlock at hread
    split at hread
    · split at hread <;>
      · cases hread
        exact Nat.lt_of_lt_of_le (Nat.succ_pos 2) (le_of_block ‹_›)
    · cases hread
      exact Nat.add_pos_left (Nat.succ_pos 2) _
  | blockComment | docComment =>
    change comment _ = _ at hread
    unfold comment at hread
    repeat' split at hread
    all_goals
      cases hread
      first
      | exact Nat.succ_pos _
      | exact Nat.add_pos_left Nat.two_pos _
      | obtain ⟨_, _, -, rfl, -⟩ := comment_takes ‹_›
        exact Nat.succ_pos _
  | _ =>
    cases hread
    exact h.pos

/-- A token is read again if a blank comes behind it, or nothing. -/
theorem read_clipped (h : Best (c :: (front ++ back)) m n) {kind : Kind}
    (hread : m.read (c :: (front ++ back)) n = (.token kind, front.length + 1))
    (hrest : JavaSyntax.Follows (· == ' ') rest) : Best (c :: (front ++ rest)) m n ∧
      m.read (c :: (front ++ rest)) n = (.token kind, front.length + 1) := by
  have hclipped (hn : n ≤ front.length + 1) (hm : m ≠ .blanks ∧ m ≠ .lineComment) :
      Best (c :: (front ++ rest)) m n :=
    @Best.clipped (c :: front) back rest m n h hn hm hrest
  have hspaced : Spaced rest := hrest.mono fun c hc => by rw [beq_iff_eq.mp hc]; rfl
  cases m with
  | string =>
    obtain ⟨rfl, more, heq⟩ := h.fixed rfl
    cases heq
    exact ⟨hclipped (Nat.le_add_left ..) (by decide), string_clipped hread (Nat.le_refl _)⟩
  | character =>
    obtain ⟨rfl, more, heq⟩ := h.fixed rfl
    cases heq
    exact ⟨hclipped (Nat.le_add_left ..) (by decide),
      character_clipped hread (Nat.le_refl _) hspaced⟩
  | textBlock =>
    obtain ⟨rfl, more, heq⟩ := h.fixed rfl
    have hlong := textBlock_long hread
    obtain ⟨d, e, front, rfl⟩ : ∃ d e ds, front = d :: e :: ds := by
      rcases front with _ | ⟨d, _ | ⟨e, front⟩⟩
      · simp at hlong
      · simp at hlong
      · exact ⟨d, e, front, rfl⟩
    exact ⟨hclipped (by simp) (by decide), textBlock_clipped hread (by simp)⟩
  | blockComment | docComment => exact absurd rfl (comment_not_token hread kind)
  | blanks | lineComment => cases hread
  | _ =>
    cases hread
    exact ⟨hclipped (Nat.le_refl _) ⟨nofun, nofun⟩, rfl⟩

end Best

namespace Scanner.TakesLongest

variable {scan : Scanner} (hscan : scan.TakesLongest) {c : Char} {cs : List Char}

include hscan

theorem cut_eq {m : Matcher} {n : Nat} (h : Best (c :: cs) m n) :
    scan.cut c cs = m.read (c :: cs) n := by
  unfold cut
  rw [(hscan _ _ _).mpr h]

/-- A piece starts with the best match, if there is a match. -/
theorem cut_cases (c : Char) (cs : List Char) :
    (∃ m n, Best (c :: cs) m n ∧ scan.cut c cs = m.read (c :: cs) n) ∨
      (∀ m n, ¬Best (c :: cs) m n) ∧ scan.cut c cs = (.flaw .illegalChar, 1) := by
  unfold cut
  cases hfound : scan (c :: cs) with
  | none =>
    refine .inr ⟨fun m n h => ?_, rfl⟩
    rw [(hscan _ _ _).mpr h] at hfound
    cases hfound
  | some found => exact .inl ⟨found.1, found.2, (hscan _ _ _).mp hfound, rfl⟩

/-- Blanks are skipped as far as they go. -/
theorem cut_blank (hc : isSkipped c = true) :
    scan.cut c cs = (.blank, Numeral.run isSkipped (c :: cs)) :=
  hscan.cut_eq (.of_blanks hc cs)

/-- A token does not start with a blank. -/
theorem not_isSkipped {kind : Kind} {n : Nat} (h : scan.cut c cs = (.token kind, n)) :
    isSkipped c = false := by
  refine Bool.eq_false_iff.mpr fun hc => ?_
  rw [hscan.cut_blank hc] at h
  cases h

theorem advances : scan.cut.Advances := by
  intro c cs found n h
  rcases hscan.cut_cases c cs with ⟨m, k, hbest, hcut⟩ | ⟨-, hcut⟩
  · exact hbest.read_pos (hcut.symm.trans h)
  · rw [hcut] at h
    cases h
    exact Nat.one_pos

/-- A piece that starts in front of a line end is found again, whatever comes behind that. -/
theorem cut_separated {found : Piece} {n : Nat} (hc : isSkipped c = false)
    (h : scan.cut c cs = (found, n))
    (hclosed : ∀ flaw, found = .flaw flaw → flaw.isOpen = false) :
    n ≤ (c :: cs).length ∧ ∀ more, scan.cut c (cs ++ '\n' :: more) = (found, n) := by
  have hblanks {more : List Char} {m : Matcher} {k : Nat} (hbest : Best (c :: more) m k) :
      m ≠ .blanks := by
    rintro rfl
    obtain ⟨k, rfl⟩ := Nat.exists_eq_succ_of_ne_zero (Nat.pos_iff_ne_zero.mp hbest.pos)
    exact absurd (all_of_blanks hbest.matched c List.mem_cons_self) (Bool.eq_false_iff.mp hc)
  rcases hscan.cut_cases c cs with ⟨m, k, hbest, hcut⟩ | ⟨hnone, hcut⟩
  · obtain ⟨hle, hmore⟩ := hbest.read_separated (hcut.symm.trans h) hclosed
    refine ⟨hle, fun more => ?_⟩
    exact (hscan.cut_eq (hbest.newline (hblanks hbest) more)).trans (hmore more)
  · obtain ⟨rfl, rfl⟩ := Prod.mk.inj (hcut.symm.trans h)
    refine ⟨Nat.le_add_left .., fun more => ?_⟩
    rcases hscan.cut_cases c (cs ++ '\n' :: more) with ⟨m, k, hbest, -⟩ | ⟨-, hcut⟩
    · exact absurd (Best.of_newline hbest (hblanks hbest)) (hnone m k)
    · exact hcut

/-- A word is found again if a blank comes behind it, or nothing. -/
theorem takes {kind : Kind} {n : Nat} (h : scan.cut c cs = (.token kind, n)) {rest : List Char}
    (hrest : JavaSyntax.Follows (· == ' ') rest) :
    scan.cut.Takes (kind, String.ofList ((c :: cs).take n)) rest := by
  obtain ⟨hle, -⟩ := hscan.cut_separated (hscan.not_isSkipped h) h nofun
  obtain ⟨n, rfl⟩ := Nat.exists_eq_succ_of_ne_zero (Nat.pos_iff_ne_zero.mp (hscan.advances h))
  obtain ⟨front, back, rfl, rfl⟩ : ∃ front back, cs = front ++ back ∧ front.length = n :=
    ⟨cs.take n, cs.drop n, (List.take_append_drop n cs).symm,
      List.length_take_of_le (Nat.le_of_succ_le_succ hle)⟩
  rw [List.take_succ_cons, List.take_left]
  refine ⟨c, front, String.toList_ofList, ?_⟩
  rw [String.toList_ofList, List.length_cons]
  rcases hscan.cut_cases c (front ++ back) with ⟨m, k, hbest, hcut⟩ | ⟨-, hcut⟩
  · obtain ⟨hbest', hread⟩ := hbest.read_clipped (hcut.symm.trans h) hrest
    exact (hscan.cut_eq hbest').trans hread
  · cases hcut.symm.trans h

/-- Blanks in front of a text make no items. -/
theorem items_dropWhile {keepDocs : Bool} {fuel fuel' : Nat} {waiting : Option String}
    (hfuel : cs.length ≤ fuel) (hfuel' : (cs.dropWhile isSkipped).length ≤ fuel') (start : Nat) :
    items scan.cut keepDocs fuel start waiting cs =
      items scan.cut keepDocs fuel' (start + byteLength (cs.takeWhile isSkipped)) waiting
        (cs.dropWhile isSkipped) := by
  cases cs with
  | nil => exact items_fuel hscan.advances hfuel hfuel'
  | cons c cs =>
    cases hc : isSkipped c with
    | false =>
      rw [List.dropWhile_cons_of_neg (by simp [hc])] at hfuel' ⊢
      rw [List.takeWhile_cons_of_neg (by simp [hc])]
      exact items_fuel hscan.advances hfuel hfuel'
    | true =>
      obtain ⟨fuel, rfl⟩ := Nat.exists_eq_succ_of_ne_zero (Nat.pos_iff_ne_zero.mp
        (Nat.lt_of_lt_of_le (Nat.succ_pos _) hfuel))
      have hle : ((c :: cs).dropWhile isSkipped).length ≤ fuel := by
        rw [List.dropWhile_cons_of_pos hc]
        exact Nat.le_trans (List.dropWhile_suffix _).length_le (Nat.le_of_succ_le_succ hfuel)
      simp only [items, hscan.cut_blank hc, take_run, drop_run]
      exact items_fuel hscan.advances hle hfuel'

theorem items_blanks {bs : List Char} (hbs : ∀ b ∈ bs, isSkipped b = true) {keepDocs : Bool}
    {fuel fuel' : Nat} {waiting : Option String} (hfuel : (bs ++ cs).length ≤ fuel)
    (hfuel' : cs.length ≤ fuel') (start : Nat) :
    items scan.cut keepDocs fuel start waiting (bs ++ cs) =
      items scan.cut keepDocs fuel' (start + byteLength bs) waiting cs := by
  have hdrop : (bs ++ cs).dropWhile isSkipped = cs.dropWhile isSkipped :=
    List.dropWhile_append_of_pos hbs
  rw [hscan.items_dropWhile hfuel (Nat.le_of_eq (congrArg List.length hdrop)), hdrop,
    List.takeWhile_append_of_pos hbs, byteLength_append, ← Nat.add_assoc]
  exact (hscan.items_dropWhile hfuel' (Nat.le_refl _) _).symm

theorem holds_blanks {bs : List Char} (hbs : ∀ b ∈ bs, isSkipped b = true) {start : Nat}
    {held : List Item} (h : Holds scan.cut (start + byteLength bs) cs held) :
    Holds scan.cut start (bs ++ cs) held := by
  intro more fuel hfuel
  have hlength : (bs ++ (cs ++ '\n' :: more)).length ≤ fuel := by
    rw [← List.append_assoc, List.length_append, List.length_cons]
    exact hfuel
  have hrest := h more (cs ++ '\n' :: more).length (by rw [List.length_append, List.length_cons])
  rw [List.append_assoc, hscan.items_blanks hbs hlength (Nat.le_refl _), hrest, byteLength_append,
    Nat.add_assoc start]

theorem holds_nil (start : Nat) : Holds scan.cut start [] [] := fun _ _ hfuel =>
  hscan.items_blanks (List.forall_mem_singleton.mpr rfl)
    (Nat.le_trans (Nat.le_add_left ..) hfuel) (Nat.le_refl _) start

/-- What stands in front of a line end is lexed on its own. -/
theorem items_hold {fuel start : Nat} (hfuel : cs.length ≤ fuel)
    (hclosed : ∀ t, .flawed t ∈ items scan.cut false fuel start none cs → t.flaw.isOpen = false) :
    Holds scan.cut start cs (items scan.cut false fuel start none cs) := by
  induction fuel generalizing start cs with
  | zero =>
    obtain rfl := List.length_eq_zero_iff.mp (Nat.le_zero.mp hfuel)
    exact hscan.holds_nil start
  | succ fuel ih =>
    cases cs with
    | nil => exact hscan.holds_nil start
    | cons c cs =>
      rcases hcut : scan.cut c cs with ⟨found, n⟩
      have hpos := hscan.advances hcut
      have hlength : ((c :: cs).drop n).length = (c :: cs).length - n := List.length_drop
      rw [items_cons hcut] at hclosed ⊢
      have hrest := @ih ((c :: cs).drop n) (start + byteLength ((c :: cs).take n)) (by omega)
        fun t ht => hclosed t (List.mem_append_right _ ht)
      cases hc : isSkipped c with
      | true =>
        -- With blanks at the end of the line the line end is one more of them.
        obtain ⟨rfl, rfl⟩ := Prod.mk.inj (hcut.symm.trans (hscan.cut_blank hc))
        have hblanks : ∀ b ∈ (c :: cs).take (Numeral.run isSkipped (c :: cs)),
            isSkipped b = true := by
          rw [take_run]
          exact List.all_eq_true.mp List.all_takeWhile
        have hholds := hscan.holds_blanks hblanks hrest
        rwa [List.take_append_drop] at hholds
      | false =>
        have hflaw (flaw : Flaw) (h : found = .flaw flaw) : flaw.isOpen = false := by
          subst h
          exact hclosed _ (List.mem_append_left _ (.head _))
        obtain ⟨hle, hmore⟩ := hscan.cut_separated hc hcut hflaw
        exact hrest.cons hpos hle hmore

/-- A literal whose closing quote is missing keeps to its line. -/
theorem cut_unclosed {flaw : Flaw} {n : Nat} (h : scan.cut c cs = (.flaw flaw, n))
    (hflaw : flaw = .unclosedString ∨ flaw = .unclosedChar) :
    ∀ d ∈ (c :: cs).take n, isNewline d = false := by
  have hclosed (f : Flaw) (heq : Piece.flaw flaw = .flaw f) : f.isOpen = false := by
    cases heq
    rcases hflaw with rfl | rfl <;> rfl
  rcases hscan.cut_cases c cs with ⟨m, k, hbest, hcut⟩ | ⟨-, hcut⟩
  · have hread := hcut.symm.trans h
    cases m with
    | string =>
      obtain ⟨rfl, rest, heq⟩ := hbest.fixed rfl
      cases heq
      change string rest = _ at hread
      unfold string at hread
      split at hread <;> cases hread
      exact quoted_take_inLine rfl ‹_›
    | character =>
      obtain ⟨rfl, rest, heq⟩ := hbest.fixed rfl
      cases heq
      change character rest = _ at hread
      unfold character at hread
      split at hread
      · cases hread
        simp at hflaw
      · split at hread <;> cases hread
        exact quoted_take_inLine rfl ‹_›
    | textBlock => cases isFlaw_of_textBlock hread hclosed
    | blockComment | docComment => cases isFlaw_of_comment hread hclosed
    | _ => cases hread
  · obtain ⟨hillegal, -⟩ := Prod.mk.inj (hcut.symm.trans h)
    cases hillegal
    simp at hflaw

end Scanner.TakesLongest

end Lexer

theorem takes_of_mem {scan : Lexer.Scanner} (hscan : scan.TakesLongest) {keepDocs : Bool}
    {text : String} {w : Word} (h : some w ∈ (lexBy scan.cut keepDocs text).map Item.word?)
    {rest : List Char} (hrest : Follows (· == ' ') rest) : scan.cut.Takes w rest := by
  obtain ⟨item, hitem, hword⟩ := List.mem_map.mp h
  cases item with
  | flawed t => cases hword
  | token t =>
    cases hword
    obtain ⟨c, cs, n, hcut, htext⟩ := Lexer.piece_of_mem hitem
    rw [htext]
    exact hscan.takes hcut hrest

/-- The words of a text without flaws are found again if one blank stands between any two. -/
theorem words_with_blanks {scan : Lexer.Scanner} (hscan : scan.TakesLongest) {keepDocs : Bool}
    {text : String} {words : List Word}
    (h : (lexBy scan.cut keepDocs text).map Item.word? = words.map some) :
    (lexBy scan.cut keepDocs (" ".intercalate (words.map Prod.snd))).map Item.word? =
      words.map some := by
  have htakes {w : Word} (hw : w ∈ words) {rest : List Char}
      (hrest : Follows (· == ' ') rest) : scan.cut.Takes w rest :=
    takes_of_mem hscan (h ▸ List.mem_map_of_mem hw) hrest
  refine Lexer.Cutter.Cuts.intercalate (fun w hw rest => ?_) (fun w hw rest => htakes hw)
    keepDocs _ 0 none (Nat.le_refl _)
  obtain ⟨c, cs, hchars, htoken⟩ := @htakes w hw [] nofun
  have hc := hscan.not_isSkipped htoken
  rw [hscan.cut_blank rfl, hchars]
  simp [Numeral.run, hc, show Lexer.isSkipped ' ' = true from rfl]

theorem words_with_blanks_comment :
    lexBy Lexer.longest.cut false "x+=.5f//'\n;" = lex false "x+=.5f//'\n;" ∧
      (lexBy Lexer.longest.cut false (" ".intercalate ["x", "+=", ".5f", ";"])).map Item.word? =
        [(.identifier, "x"), (.addAssign, "+="), (.floatingLit, ".5f"), (.semicolon, ";")].map
          some :=
  ⟨by decide +kernel, @words_with_blanks _ Lexer.longest_takesLongest false "x+=.5f//'\n;"
    [(.identifier, "x"), (.addAssign, "+="), (.floatingLit, ".5f"), (.semicolon, ";")]
    (by decide +kernel)⟩

/-- The lines of a text are lexed one after the other, unless a comment or a text block is left
open, and a literal whose closing quote is missing keeps to its line. -/
theorem lines_one_by_one {scan : Lexer.Scanner} (hscan : scan.TakesLongest) (keepDocs : Bool) :
    (∀ first, (∀ t, .flawed t ∈ lexBy scan.cut keepDocs first → t.flaw.isOpen = false) →
      ∀ second, (lexBy scan.cut keepDocs (first ++ "\n" ++ second)).map Item.bare =
        (lexBy scan.cut keepDocs first).map Item.bare ++
          ((lexBy scan.cut keepDocs second).map Item.bare).map
            (Item.shift (first.utf8ByteSize + 1))) ∧
    ∀ text t, .flawed t ∈ lexBy scan.cut keepDocs text →
      t.flaw = .unclosedString ∨ t.flaw = .unclosedChar →
        ∀ c ∈ t.text.toList, Enclosed.isNewline c = false := by
  have hbare (text : String) :
      (lexBy scan.cut keepDocs text).map Item.bare = lexBy scan.cut false text :=
    Lexer.items_bare ..
  constructor
  · intro first hclosed second
    have hclosed' (t : FlawedText) (ht : .flawed t ∈ lexBy scan.cut false first) :
        t.flaw.isOpen = false := by
      rw [← hbare] at ht
      obtain ⟨item, hitem, heq⟩ := List.mem_map.mp ht
      cases item with
      | token t => cases heq
      | flawed t =>
        cases heq
        exact hclosed t hitem
    have hholds := hscan.items_hold (Nat.le_refl first.toList.length) hclosed'
    have hsize : (first ++ "\n").utf8ByteSize = first.utf8ByteSize + 1 :=
      String.utf8ByteSize_append
    rw [hbare, hbare, hbare, ← hsize]
    exact hholds.lines second
  · intro text t ht hflaw
    obtain ⟨c, cs, n, hcut, htext⟩ := Lexer.flaw_of_mem ht
    rw [htext, String.toList_ofList]
    exact hscan.cut_unclosed hcut hflaw

theorem lines_one_by_one_unclosed : lex false "a\"b\\" =
      [.token ⟨.identifier, "a", 0, 1, none⟩, .flawed ⟨.unclosedString, "\"b\\", 1, 4⟩] ∧
    (lexBy Lexer.longest.cut false ("a\"b\\" ++ "\n" ++ "'c")).map Item.bare =
      (lexBy Lexer.longest.cut false "a\"b\\").map Item.bare ++
        ((lexBy Lexer.longest.cut false "'c").map Item.bare).map (Item.shift 5) := by
  have hlongest : lexBy Lexer.longest.cut false "a\"b\\" = lex false "a\"b\\" := by
    decide +kernel
  have hlex : lex false "a\"b\\" =
      [.token ⟨.identifier, "a", 0, 1, none⟩, .flawed ⟨.unclosedString, "\"b\\", 1, 4⟩] := by
    decide +kernel
  refine ⟨hlex, (lines_one_by_one Lexer.longest_takesLongest false).1 _ (fun t ht => ?_) _⟩
  rw [hlongest, hlex] at ht
  simp at ht
  subst ht
  rfl

end JavaSyntax
