import JavaSyntax.Proofs.Measuring
import JavaSyntax.Token.Lexer
import Mathlib.Data.List.Find

/-!
A line end separates. What the lexer finds at the start of a text that is followed by a line end is
the same whatever comes behind that, unless it is flawed. So a text without flaws is lexed on its
own, however it goes on in the next line.
-/

namespace JavaSyntax

open Enclosed (isNewline)

namespace Enclosed

theorem quoted_cons {quote c : Char} (hc : c ≠ '\\') (n : Nat) (rest : List Char) :
    quoted quote n (c :: rest) = if c = quote then (n + 1, true)
      else if isNewline c = true then (n, false) else quoted quote (n + 1) rest :=
  quoted.eq_4 _ _ _ _ (fun heq => absurd heq hc) (fun _ _ heq => absurd heq hc)

theorem ne_backslash {c : Char} {rest : List Char} (hlast : c = '\\' → rest = [] → False)
    (hmore : ∀ d more, c = '\\' → rest = d :: more → False) : c ≠ '\\' := by
  intro hc
  cases rest with
  | nil => exact hlast hc rfl
  | cons d more => exact hmore d more hc rfl

/-- A literal is not read past the end of its line. -/
theorem stable_quoted {quote : Char} (hquote : isNewline quote = false) (n : Nat) :
    Stable (quoted quote n) := by
  intro cs sep more hsep
  have hother {c : Char} (hc : isNewline c = false) : sep ≠ c := fun heq => by
    rw [heq, hc] at hsep
    cases hsep
  fun_induction quoted quote n cs with
  | case1 n => simp [quoted, hother hquote, hother (c := '\\') rfl, hsep]
  | case2 n => simp [quoted, hsep]
  | case3 n c rest hc => simp [quoted, hc]
  | case4 n c rest hc ih => simpa [quoted, hc] using ih
  | case5 n rest hlast hmore =>
    rw [List.cons_append, quoted_cons (ne_backslash hlast hmore), if_pos rfl]
  | case6 n c rest hlast hmore hc hline =>
    rw [List.cons_append, quoted_cons (ne_backslash hlast hmore), if_neg hc, if_pos hline]
  | case7 n c rest hlast hmore hc hline ih =>
    rw [List.cons_append, quoted_cons (ne_backslash hlast hmore), if_neg hc, if_neg hline]
    exact ih

/-- Every backslash has the character behind it to itself. -/
inductive Paired : List Char → Prop where
  | nil : Paired []
  | pair {c : Char} {cs : List Char} (others : Paired cs) : Paired ('\\' :: c :: cs)
  | plain {c : Char} {cs : List Char} (h : c ≠ '\\') (others : Paired cs) : Paired (c :: cs)

/-- A closed literal goes up to its quote, which no backslash takes away. -/
theorem quoted_closed {quote : Char} {n m : Nat} {cs : List Char}
    (h : quoted quote n cs = (m, true)) :
    ∃ front rest, cs = front ++ quote :: rest ∧ m = n + front.length + 1 ∧ Paired front := by
  fun_induction quoted quote n cs with
  | case1 n => cases h
  | case2 n => cases h
  | case3 n c rest hc => cases h
  | case4 n c rest hc ih =>
    obtain ⟨front, back, rfl, rfl, hpaired⟩ := ih h
    exact ⟨'\\' :: c :: front, back, rfl, by simp only [List.length_cons]; omega, .pair hpaired⟩
  | case5 n rest =>
    cases h
    exact ⟨[], rest, rfl, rfl, .nil⟩
  | case6 n c rest => cases h
  | case7 n c rest hlast hmore hc hline ih =>
    obtain ⟨front, back, rfl, rfl, hpaired⟩ := ih h
    exact ⟨c :: front, back, rfl, by simp only [List.length_cons]; omega,
      .plain (ne_backslash hlast hmore) hpaired⟩

theorem block_append {n m : Nat} {cs : List Char} (h : block n cs = (m, true)) (more : List Char) :
    block n (cs ++ more) = (m, true) := by
  fun_induction block n cs with
  | case1 n => cases h
  | case2 n c rest ih => exact ih h
  | case3 n rest => exact h
  | case4 n c rest hescape hquotes ih =>
    rw [List.cons_append, block, ih h]
    · rintro d ds rfl heq
      cases rest with
      | nil => cases h
      | cons e es => exact hescape e es rfl rfl
    · rintro ds rfl heq
      match rest with
      | [] => cases h
      | [_] =>
        cases heq
        cases h
      | _ :: _ :: es =>
        cases heq
        exact hquotes es rfl rfl

/-- A closed text block goes up to its quotes. -/
theorem block_closed {n m : Nat} {cs : List Char} (h : block n cs = (m, true)) :
    ∃ front rest, cs = front ++ '"' :: '"' :: '"' :: rest ∧ m = n + front.length + 3 := by
  fun_induction block n cs with
  | case1 n => cases h
  | case2 n c rest ih =>
    obtain ⟨front, back, rfl, rfl⟩ := ih h
    exact ⟨'\\' :: c :: front, back, rfl, by simp only [List.length_cons]; omega⟩
  | case3 n rest =>
    cases h
    exact ⟨[], rest, rfl, rfl⟩
  | case4 n c rest _ _ ih =>
    obtain ⟨front, back, rfl, rfl⟩ := ih h
    exact ⟨c :: front, back, rfl, by simp only [List.length_cons]; omega⟩

theorem opensBlock_append {cs : List Char} (h : opensBlock cs = true) (more : List Char) :
    opensBlock (cs ++ more) = true := by
  unfold opensBlock at h ⊢
  rw [List.dropWhile_append]
  cases hrest : cs.dropWhile fun c => c == ' ' || c == '\t' || c == '\x0c' with
  | nil =>
    rw [hrest] at h
    cases h
  | cons c rest =>
    rw [hrest] at h
    exact h

theorem comment_append {n m : Nat} {cs : List Char} (h : comment n cs = some m)
    (more : List Char) : comment n (cs ++ more) = some m := by
  fun_induction comment n cs with
  | case1 n => cases h
  | case2 n rest => exact h
  | case3 n c rest hopen ih =>
    rw [List.cons_append, comment, ih h]
    rintro more' rfl heq
    cases rest with
    | nil => cases h
    | cons d ds =>
      cases heq
      exact hopen ds rfl rfl

end Enclosed

namespace Lexer

def Piece.isFlaw : Piece → Bool
  | .flaw _ => true
  | _ => false

/-- A piece that is not flawed. -/
def sound? (read : Piece × Nat) : Option (Piece × Nat) :=
  if read.1.isFlaw = true then none else some read

theorem sound?_eq_some {read : Piece × Nat} {found : Piece} {n : Nat} :
    sound? read = some (found, n) ↔ read = (found, n) ∧ found.isFlaw = false := by
  unfold sound?
  split
  · rename_i hflaw
    refine ⟨nofun, fun ⟨heq, hsound⟩ => ?_⟩
    rw [heq, hsound] at hflaw
    cases hflaw
  · rename_i hflaw
    refine ⟨fun heq => ?_, fun ⟨heq, _⟩ => congrArg some heq⟩
    cases heq
    exact ⟨rfl, Bool.eq_false_iff.mpr hflaw⟩

theorem measured_word : Measured fun cs => sound? (word cs) := by
  have hrun : Contained (Numeral.run Unicode.isIdentifierPart) :=
    Numeral.contained_run (by decide) (by decide)
  refine ⟨fun cs found n hread => ?_, fun cs sep more hsep => ?_⟩
  · cases (sound?_eq_some.mp hread).1
    exact hrun.le cs
  · have hle := hrun.le cs
    have hfollows : Stable fun rest : List Char => rest.head?.any unreserves :=
      .head (by decide) (by decide)
    unfold word
    simp only [hrun.stable cs sep more hsep, List.take_append_of_le_length hle,
      List.drop_append_of_le_length hle, wordKind, hfollows _ sep more hsep]

theorem measured_number : Measured fun cs => sound? (number cs) := by
  have hsame (cs : List Char) : sound? (number cs) =
      (Numeral.read cs).number?.map fun read => (.token read.1, read.2) := by
    unfold number
    split <;> rename_i hread <;> rw [hread] <;> rfl
  refine ⟨fun cs found n hread => ?_, fun cs sep more hsep => ?_⟩
  · rw [hsame] at hread
    obtain ⟨⟨kind, m⟩, hnumber, heq⟩ := Option.map_eq_some_iff.mp hread
    cases heq
    exact Numeral.measured_read.le cs kind _ hnumber
  · have hread := Numeral.measured_read.stable cs sep more hsep
    rw [hsame, hsame]
    exact congrArg _ hread

theorem isPrefixOf_separated {text cs more : List Char} {sep : Char} (hsep : sep ∉ text) :
    text.isPrefixOf (cs ++ sep :: more) = text.isPrefixOf cs := by
  induction text generalizing cs with
  | nil => simp
  | cons c text ih =>
    cases cs with
    | nil =>
      have hc : ¬c = sep := fun heq => hsep (heq ▸ List.mem_cons_self)
      simp [List.isPrefixOf, hc]
    | cons d cs =>
      simp [List.isPrefixOf, ih fun hmem => hsep (List.mem_cons_of_mem c hmem)]

theorem stable_operator : Stable operator := by
  have hinLine : ∀ k ∈ Kind.operators, (k.spelling.toList.all fun c => !isNewline c) = true := by
    decide
  intro cs sep more hsep
  have hsame : Kind.operators.find? (fun k => k.spelling.toList.isPrefixOf (cs ++ sep :: more)) =
      Kind.operators.find? fun k => k.spelling.toList.isPrefixOf cs := by
    refine List.find?_congr fun k hk => isPrefixOf_separated fun hmem => ?_
    have hplain := List.all_eq_true.mp (hinLine k hk) sep hmem
    rw [hsep] at hplain
    cases hplain
  unfold operator
  rw [hsame]

theorem measured_operator : Measured fun cs => sound? (operator cs) := by
  refine ⟨fun cs found n hread => ?_, stable_operator.comp sound?⟩
  obtain ⟨hoperator, hsound⟩ := sound?_eq_some.mp hread
  unfold operator at hoperator
  split at hoperator
  · rename_i k hfind
    cases hoperator
    have hfound := List.find?_some hfind
    rw [← String.length_toList]
    exact (List.isPrefixOf_iff_prefix.mp hfound).length_le
  · cases hoperator
    cases hsound

/-- What a line end behind a piece leaves as it was: the piece is found again, whatever comes next.
A token does not end with a line end itself. -/
structure Separated (c : Char) (cs : List Char) (found : Piece) (n : Nat) : Prop where
  le : n ≤ (c :: cs).length
  stable : ∀ sep more, isNewline sep = true → piece c (cs ++ sep :: more) = (found, n)
  last : ∀ kind, found = .token kind → ∀ d ∈ ((c :: cs).take n).getLast?, isNewline d = false

namespace Separated

variable {c : Char} {cs : List Char} {found : Piece} {n : Nat}

theorem of_measured {f : List Char → Piece × Nat} (hf : Measured fun cs => sound? (f cs))
    (h : f (c :: cs) = (found, n)) (hsound : found.isFlaw = false)
    (hpiece : ∀ sep more, isNewline sep = true →
      piece c (cs ++ sep :: more) = f (c :: (cs ++ sep :: more))) : Separated c cs found n := by
  have hread : sound? (f (c :: cs)) = some (found, n) := sound?_eq_some.mpr ⟨h, hsound⟩
  refine ⟨hf.le _ _ _ hread, fun sep more hsep => ?_, fun _ _ d hd => ?_⟩
  · rw [hpiece sep more hsep]
    exact (sound?_eq_some.mp ((hf.stable (c :: cs) sep more hsep).trans hread)).1
  · exact hf.inLine hread d (List.mem_of_getLast? hd)

/-- A piece that goes up to a closing character. -/
theorem of_closed {front rest : List Char} {close : Char} (hclose : isNewline close = false)
    (hwhole : c :: cs = front ++ close :: rest) (hn : n = front.length + 1)
    (hstable : ∀ sep more, isNewline sep = true → piece c (cs ++ sep :: more) = (found, n)) :
    Separated c cs found n := by
  have htext : c :: cs = (front ++ [close]) ++ rest := by simp [hwhole]
  have hlength : n = (front ++ [close]).length := by simp [hn]
  refine ⟨?_, hstable, fun _ _ d hd => ?_⟩
  · rw [htext, hlength]
    exact (List.prefix_append _ rest).length_le
  · rw [htext, hlength, List.take_left, List.getLast?_concat] at hd
    cases hd
    exact hclose

end Separated

/-! Which piece is looked for. -/

theorem piece_blank {c : Char} (hc : isSkipped c = true) (cs : List Char) :
    piece c cs = (.blank, 1) := by
  unfold piece
  rw [if_pos hc]

section Unskipped

variable {c : Char} (hskip : ¬isSkipped c = true)

include hskip

theorem piece_wordStart (hc : Unicode.isIdentifierStart c = true) (cs : List Char) :
    piece c cs = word (c :: cs) := by
  unfold piece
  rw [if_neg hskip, if_pos hc]

variable (hstart : ¬Unicode.isIdentifierStart c = true)

include hstart

theorem piece_digit (hc : c.isDigit = true) (cs : List Char) : piece c cs = number (c :: cs) := by
  unfold piece
  rw [if_neg hskip, if_neg hstart, if_pos hc]

end Unskipped

theorem piece_string {cs : List Char} (h : ∀ rest, cs ≠ '"' :: '"' :: rest) :
    piece '"' cs = string cs := by
  unfold piece
  rw [if_neg (by decide), if_neg (by decide), if_neg (by decide)]
  split
  · exact (h _ rfl).elim
  · rfl
  -- The other openings are other characters.
  all_goals simp_all

theorem piece_fraction {d : Char} (hd : d.isDigit = true) (rest : List Char) :
    piece '.' (d :: rest) = (.token .floatingLit, Numeral.fraction ('.' :: d :: rest)) := by
  show (if d.isDigit = true then _ else _) = _
  rw [if_pos hd]

theorem piece_operator {c : Char} {cs : List Char} (hskip : ¬isSkipped c = true)
    (hstart : ¬Unicode.isIdentifierStart c = true) (hdigit : ¬c.isDigit = true)
    (hquote : c ≠ '"' ∧ c ≠ '\'')
    (hcomment : c = '/' → ∀ d ∈ cs.head?, d ≠ '/' ∧ d ≠ '*')
    (hpoint : c = '.' → ∀ d ∈ cs.head?, d.isDigit = false) : piece c cs = operator (c :: cs) := by
  unfold piece
  rw [if_neg hskip, if_neg hstart, if_neg hdigit]
  split
  · exact absurd rfl hquote.1
  · exact absurd rfl hquote.1
  · exact absurd rfl hquote.2
  · exact absurd rfl (hcomment rfl '/' rfl).1
  · exact absurd rfl (hcomment rfl '*' rfl).2
  · rename_i d rest
    rw [if_neg (by simp [hpoint rfl d rfl])]
  · rfl

/-- A line end behind it opens no comment and no fraction. -/
theorem piece_operator_append {c : Char} {cs : List Char} (hskip : ¬isSkipped c = true)
    (hstart : ¬Unicode.isIdentifierStart c = true) (hdigit : ¬c.isDigit = true)
    (hquote : c ≠ '"' ∧ c ≠ '\'')
    (hcomment : c = '/' → ∀ d ∈ cs.head?, d ≠ '/' ∧ d ≠ '*')
    (hpoint : c = '.' → ∀ d ∈ cs.head?, d.isDigit = false) (sep : Char) (more : List Char)
    (hsep : isNewline sep = true) :
    piece c (cs ++ sep :: more) = operator (c :: (cs ++ sep :: more)) := by
  refine piece_operator hskip hstart hdigit hquote (fun hc => ?_) fun hc => ?_
  · cases cs with
    | nil =>
      rintro d ⟨⟩
      constructor <;> rintro rfl <;> cases hsep
    | cons d rest => exact hcomment hc
  · cases cs with
    | nil =>
      rintro d ⟨⟩
      exact not_newline rfl rfl hsep
    | cons d rest => exact hpoint hc

theorem stable_string : Stable string := by
  intro cs sep more hsep
  unfold string
  rw [Enclosed.stable_quoted rfl 1 cs sep more hsep]

theorem stable_character : Stable character := by
  intro cs sep more hsep
  have hempty : (cs ++ sep :: more).head? = some '\'' ↔ cs.head? = some '\'' := by
    cases cs with
    | nil =>
      refine ⟨?_, nofun⟩
      rintro ⟨⟩
      cases hsep
    | cons c rest => rfl
  unfold character
  rw [Enclosed.stable_quoted rfl 1 cs sep more hsep]
  simp only [hempty]

/-- A line end behind it opens no text block. -/
theorem piece_string_append {cs : List Char} (hblock : ∀ rest, cs ≠ '"' :: '"' :: rest)
    (sep : Char) (more : List Char) (hsep : isNewline sep = true) :
    piece '"' (cs ++ sep :: more) = string cs := by
  have hopen (rest : List Char) : cs ++ sep :: more ≠ '"' :: '"' :: rest := by
    intro heq
    match cs with
    | [] | [_] =>
      cases heq
      cases hsep
    | _ :: _ :: _ =>
      cases heq
      exact hblock _ rfl
  rw [piece_string hopen, stable_string cs sep more hsep]

section Closed

variable {cs : List Char} {found : Piece} {n : Nat}

theorem separated_textBlock (h : textBlock cs = (found, n)) (hsound : found.isFlaw = false) :
    Separated '"' ('"' :: '"' :: cs) found n := by
  unfold textBlock at h
  split at h
  · rename_i hopens
    split at h
    · rename_i m hblock
      cases h
      have hstable (sep : Char) (more : List Char) :
          piece '"' ('"' :: '"' :: cs ++ sep :: more) = (.token .textBlockLit, n) := by
        show textBlock (cs ++ sep :: more) = _
        unfold textBlock
        rw [if_pos (Enclosed.opensBlock_append hopens _), Enclosed.block_append hblock]
      obtain ⟨front, rest, rfl, rfl⟩ := Enclosed.block_closed hblock
      refine @Separated.of_closed _ _ _ _ (['"', '"', '"'] ++ front ++ ['"', '"']) rest '"' rfl
        (by simp) ?_ fun sep more _ => hstable sep more
      simp only [List.length_append, List.length_cons, List.length_nil]
    · cases h
      cases hsound
  · cases h
    cases hsound

theorem separated_string (h : string cs = (found, n)) (hsound : found.isFlaw = false)
    (hblock : ∀ rest, cs ≠ '"' :: '"' :: rest) : Separated '"' cs found n := by
  have hstable (sep : Char) (more : List Char) (hsep : isNewline sep = true) :
      piece '"' (cs ++ sep :: more) = (found, n) :=
    (piece_string_append hblock sep more hsep).trans h
  unfold string at h
  split at h
  · rename_i m hquoted
    cases h
    obtain ⟨front, rest, rfl, rfl, -⟩ := Enclosed.quoted_closed hquoted
    refine @Separated.of_closed _ _ _ _ ('"' :: front) rest '"' rfl rfl ?_ hstable
    simp only [List.length_cons]
    omega
  · cases h
    cases hsound

theorem separated_character (h : character cs = (found, n)) (hsound : found.isFlaw = false) :
    Separated '\'' cs found n := by
  have hstable (sep : Char) (more : List Char) (hsep : isNewline sep = true) :
      piece '\'' (cs ++ sep :: more) = (found, n) :=
    (stable_character cs sep more hsep).trans h
  unfold character at h
  split at h
  · cases h
    cases hsound
  · split at h
    · rename_i m hquoted
      cases h
      obtain ⟨front, rest, rfl, rfl, -⟩ := Enclosed.quoted_closed hquoted
      refine @Separated.of_closed _ _ _ _ ('\'' :: front) rest '\'' rfl rfl ?_ hstable
      simp only [List.length_cons]
      omega
    · cases h
      cases hsound

theorem separated_line : Separated '/' ('/' :: cs) .comment (2 + Enclosed.line cs) := by
  have hline : Contained Enclosed.line :=
    @Numeral.contained_run (fun c => !isNewline c) rfl rfl
  refine ⟨?_, fun sep more hsep => ?_, nofun⟩
  · have hle := hline.le cs
    simp only [List.length_cons]
    omega
  · show (Piece.comment, 2 + Enclosed.line (cs ++ sep :: more)) = _
    rw [hline.stable cs sep more hsep]

theorem comment_takes {n m : Nat} {cs : List Char} (h : Enclosed.comment n cs = some m) :
    ∃ body rest, cs = body ++ '*' :: '/' :: rest ∧ m = n + body.length + 2 ∧
      ¬['*', '/'] <:+: body ++ ['*'] := by
  fun_induction Enclosed.comment n cs with
  | case1 => cases h
  | case2 n rest =>
    cases h
    exact ⟨[], rest, rfl, rfl, by decide⟩
  | case3 n c cs hopen ih =>
    obtain ⟨body, rest, rfl, rfl, hfirst⟩ := ih h
    refine ⟨c :: body, rest, rfl, ?_, fun hinfix => ?_⟩
    · simp only [List.length_cons]
      omega
    · -- A star here would meet a slash, which the scan has seen already.
      rcases List.infix_cons_iff.mp hinfix with hprefix | hinfix
      · obtain ⟨rfl, hslash⟩ := List.cons_prefix_cons.mp hprefix
        cases body with
        | nil => simp at hslash
        | cons d body =>
          obtain ⟨rfl, -⟩ := List.cons_prefix_cons.mp hslash
          exact hopen _ rfl rfl
      · exact hfirst hinfix

/-- A comment that is closed stays closed. -/
theorem comment_append (h : comment cs = (found, n)) (hsound : found.isFlaw = false)
    (more : List Char) : comment (cs ++ more) = (found, n) := by
  unfold comment at h
  split at h
  · cases h
    rfl
  · rename_i body hopen
    split at h
    · rename_i m hcomment
      cases h
      have hmore := Enclosed.comment_append hcomment more
      obtain ⟨inside, rest, rfl, rfl, -⟩ := comment_takes hcomment
      unfold comment
      split
      · rename_i heq
        cases inside with
        | nil => cases heq
        | cons d inside =>
          cases heq
          exact (hopen _ rfl).elim
      · rename_i heq
        rw [List.cons_append, List.cons.injEq] at heq
        obtain ⟨-, rfl⟩ := heq
        have hinside : 3 + inside.length + 2 - 5 = inside.length := by omega
        rw [hmore, hinside]
        simp
      · rename_i hstar
        exact (hstar _ rfl).elim
    · cases h
      cases hsound
  · rename_i hstar
    split at h
    · rename_i m hcomment
      cases h
      have hmore := Enclosed.comment_append hcomment more
      cases cs with
      | nil => cases hcomment
      | cons d rest =>
        unfold comment
        split
        · rename_i heq
          exact (hstar rest ((List.cons.inj heq).1 ▸ rfl)).elim
        · rename_i heq
          exact (hstar rest ((List.cons.inj heq).1 ▸ rfl)).elim
        · rw [hmore]
    · cases h
      cases hsound

theorem comment_le (h : comment cs = (found, n)) (hsound : found.isFlaw = false) :
    n ≤ cs.length + 2 := by
  unfold comment at h
  split at h
  · cases h
    simp
  · split at h
    · rename_i m hcomment
      cases h
      obtain ⟨inside, rest, rfl, rfl, -⟩ := comment_takes hcomment
      simp
      omega
    · cases h
      cases hsound
  · split at h
    · rename_i m hcomment
      cases h
      obtain ⟨inside, rest, rfl, rfl, -⟩ := comment_takes hcomment
      simp
      omega
    · cases h
      cases hsound

theorem comment_not_token (h : comment cs = (found, n)) (kind : Kind) : found ≠ .token kind := by
  unfold comment at h
  repeat' split at h
  all_goals
    cases h
    nofun

theorem separated_comment (h : comment cs = (found, n)) (hsound : found.isFlaw = false) :
    Separated '/' ('*' :: cs) found n :=
  ⟨comment_le h hsound, fun _ _ _ => comment_append h hsound _,
    fun kind hkind => absurd hkind (comment_not_token h kind)⟩

end Closed

/-- A line end separates: what is found in front of one, without a flaw, is found whatever comes
behind it. -/
theorem piece_separated {c : Char} {cs : List Char} {found : Piece} {n : Nat}
    (h : piece c cs = (found, n)) (hsound : found.isFlaw = false) : Separated c cs found n := by
  by_cases hskip : isSkipped c = true
  · rw [piece_blank hskip] at h
    cases h
    exact ⟨by simp, fun _ _ _ => piece_blank hskip _, nofun⟩
  by_cases hstart : Unicode.isIdentifierStart c = true
  · have hword := piece_wordStart hskip hstart
    exact .of_measured measured_word (hword cs ▸ h) hsound fun _ _ _ => hword _
  by_cases hdigit : c.isDigit = true
  · have hnumber := piece_digit hskip hstart hdigit
    exact .of_measured measured_number (hnumber cs ▸ h) hsound fun _ _ _ => hnumber _
  unfold piece at h
  rw [if_neg hskip, if_neg hstart, if_neg hdigit] at h
  split at h
  · exact separated_textBlock h hsound
  · rename_i hblock
    exact separated_string h hsound fun rest heq => hblock rest heq
  · exact separated_character h hsound
  · cases h
    exact separated_line
  · exact separated_comment h hsound
  · rename_i d rest
    split at h
    · rename_i hd
      cases h
      have hread : (fun cs : List Char => if cs.head?.any (· == '.') = true then
          some (Kind.floatingLit, Numeral.fraction cs) else none) ('.' :: d :: rest) =
          some (.floatingLit, Numeral.fraction ('.' :: d :: rest)) := rfl
      refine ⟨Numeral.measured_fraction.le _ _ _ hread, fun sep more hsep => ?_,
        fun _ _ e he => Numeral.measured_fraction.inLine hread e (List.mem_of_getLast? he)⟩
      have hmore := (Numeral.measured_fraction.stable ('.' :: d :: rest) sep more hsep).trans hread
      rw [List.cons_append, piece_fraction hd]
      exact congrArg (fun read => (Piece.token read.1, read.2)) (Option.some.inj hmore)
    · rename_i hd
      refine .of_measured measured_operator h hsound fun sep more hsep =>
        piece_operator hskip hstart hdigit (by decide) nofun ?_
      rintro - e ⟨⟩
      exact Bool.eq_false_iff.mpr hd
  · rename_i hquote hapostrophe _ hline hcomment hpoint
    refine .of_measured measured_operator h hsound
      (piece_operator_append hskip hstart hdigit ⟨hquote, hapostrophe⟩ (fun hc d hd => ?_)
        fun hc d hd => ?_)
    · obtain ⟨rest, rfl⟩ := List.head?_eq_some_iff.mp hd
      exact ⟨fun hd => hline rest hc (hd ▸ rfl), fun hd => hcomment rest hc (hd ▸ rfl)⟩
    · obtain ⟨rest, rfl⟩ := List.head?_eq_some_iff.mp hd
      exact (hpoint d rest hc rfl).elim

end Lexer

end JavaSyntax
