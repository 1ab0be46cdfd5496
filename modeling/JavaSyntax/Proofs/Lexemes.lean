import JavaSyntax.Proofs.Separating
import JavaSyntax.Proofs.Tiling

/-!
What the texts of literal tokens look like. The lexer only measures how far a token goes; here the
text it takes is told apart into its parts, a number into the mark of its base, its digits with the
underscores among them, and its suffix, any other literal into its delimiters and what is between.
-/

namespace JavaSyntax

namespace Numeral

inductive Base where
  | decimal
  | hexadecimal
  | binary
deriving DecidableEq

namespace Base

/-- What a numeral of the base starts with. -/
def marks : Base → List (List Char)
  | .decimal => [[]]
  | .hexadecimal => [['0', 'x'], ['0', 'X']]
  | .binary => [['0', 'b'], ['0', 'B']]

def isDigit : Base → Char → Bool
  | .decimal, c => c.isDigit
  | .hexadecimal, c => isHexDigit c
  | .binary, c => c == '0' || c == '1'

/-- Digits and the underscores among them. -/
def isFigure (base : Base) (c : Char) : Bool :=
  base.isDigit c || c == '_'

/-- The letters that stand in front of an exponent. -/
def scaleMarks : Base → List Char
  | .decimal => ['e', 'E']
  | .hexadecimal => ['p', 'P']
  | .binary => []

theorem mark_hexadecimal {mark : List Char} (h : mark ∈ hexadecimal.marks) :
    mark = ['0', 'x'] ∨ mark = ['0', 'X'] := by
  simpa [marks] using h

theorem mark_binary {mark : List Char} (h : mark ∈ binary.marks) :
    mark = ['0', 'b'] ∨ mark = ['0', 'B'] := by
  simpa [marks] using h

end Base

/-- The letter of an exponent and its sign, if there is one. -/
def scales (marks : List Char) : List (List Char) :=
  marks.flatMap fun m => [[m], [m, '+'], [m, '-']]

/-- A whole number as it is written. -/
structure Whole where
  base : Base
  mark : List Char
  figures : List Char
  suffix : List Char
  mark_mem : mark ∈ base.marks
  figures_ne : figures ≠ []
  figures_all : ∀ c ∈ figures, base.isFigure c = true
  suffix_mem : suffix ∈ [[], ['l'], ['L']]

namespace Whole

def chars (w : Whole) : List Char :=
  w.mark ++ w.figures ++ w.suffix

end Whole

/-- A floating-point number as it is written. Without an exponent it is decimal. -/
structure Fractional where
  base : Base
  mark : List Char
  whole : List Char
  point : List Char
  fraction : List Char
  scale : List Char
  power : List Char
  suffix : List Char
  mark_mem : mark ∈ base.marks
  whole_all : ∀ c ∈ whole, base.isFigure c = true
  point_mem : point ∈ [[], ['.']]
  fraction_all : ∀ c ∈ fraction, base.isFigure c = true
  scale_mem : scale ∈ [] :: scales base.scaleMarks
  scaled : base ≠ .decimal → scale ≠ []
  power_all : ∀ c ∈ power, Base.decimal.isFigure c = true
  suffix_mem : suffix ∈ [[], ['f'], ['F'], ['d'], ['D']]

namespace Fractional

def chars (x : Fractional) : List Char :=
  x.mark ++ x.whole ++ x.point ++ x.fraction ++ x.scale ++ x.power ++ x.suffix

end Fractional

/-! Parts of what is measured. -/

theorem all_take_run (p : Char → Bool) (cs : List Char) : ∀ c ∈ cs.take (run p cs), p c = true := by
  intro c hc
  rw [take_run] at hc
  exact List.all_eq_true.mp List.all_takeWhile c hc

theorem take_oneOf (choices cs : List Char) :
    cs.take (oneOf choices cs) ∈ [] :: choices.map fun c => [c] := by
  cases cs with
  | nil => exact List.mem_cons_self
  | cons c cs =>
    by_cases hc : c ∈ choices
    · simp [oneOf, hc]
    · simp [oneOf, hc]

theorem take_longSuffix (cs : List Char) : cs.take (longSuffix cs) ∈ [[], ['l'], ['L']] :=
  take_oneOf ['l', 'L'] cs

theorem take_floatSuffix (cs : List Char) :
    cs.take (floatSuffix cs) ∈ [[], ['f'], ['F'], ['d'], ['D']] :=
  take_oneOf ['f', 'F', 'd', 'D'] cs

theorem take_of_oneOf {choices cs : List Char} (h : oneOf choices cs = 1) :
    ∃ c ∈ choices, cs.take 1 = [c] := by
  have hmem := take_oneOf choices cs
  rw [h] at hmem
  rcases List.mem_cons.mp hmem with hnil | hmem
  · cases cs with
    | nil => cases h
    | cons c cs => cases hnil
  · obtain ⟨c, hc, hcs⟩ := List.mem_map.mp hmem
    exact ⟨c, hc, hcs.symm⟩

/-- An exponent is its letter, a sign or none, and its digits. -/
theorem take_exponent (marks cs : List Char) : ∃ scale power,
    cs.take (exponent marks cs) = scale ++ power ∧ scale ∈ [] :: scales marks ∧
      (0 < exponent marks cs → scale ≠ []) ∧ ∀ c ∈ power, Base.decimal.isFigure c = true := by
  unfold exponent
  dsimp only
  split
  · rename_i hfound
    obtain ⟨m, hm, hmark⟩ := take_of_oneOf hfound.1
    rw [hfound.1]
    have hsign := take_oneOf ['+', '-'] (cs.drop 1)
    have hscale : cs.take (1 + oneOf ['+', '-'] (cs.drop 1)) =
        m :: (cs.drop 1).take (oneOf ['+', '-'] (cs.drop 1)) := by
      rw [List.take_add, hmark]
      rfl
    refine ⟨_, _, List.take_add, ?_, fun _ => ?_, all_take_run isDecimal _⟩
    · refine List.mem_cons_of_mem _ (List.mem_flatMap.mpr ⟨m, hm, ?_⟩)
      rw [hscale]
      simpa using hsign
    · rw [hscale]
      exact List.cons_ne_nil _ _
  · exact ⟨[], [], rfl, List.mem_cons_self, fun h => absurd h (Nat.lt_irrefl 0), nofun⟩

/-! The numbers that are read. -/

section Taken

variable {mark cs : List Char}

/-- Figures behind the mark of their base, and the suffix behind them. -/
theorem whole_taken (base : Base) (cs : List Char) (hmark : mark ∈ base.marks)
    (hpos : 0 < run base.isFigure cs) :
    ∃ w : Whole, w.chars = mark ++ cs.take (run base.isFigure cs +
      longSuffix (cs.drop (run base.isFigure cs))) := by
  let rest := cs.drop (run base.isFigure cs)
  refine ⟨⟨base, mark, cs.take (run base.isFigure cs), rest.take (longSuffix rest), hmark, ?_,
    all_take_run base.isFigure cs, take_longSuffix rest⟩, ?_⟩
  · intro hnil
    have hlength := congrArg List.length hnil
    rw [take_run] at hlength
    exact absurd hlength (Nat.ne_of_gt hpos)
  · rw [List.take_add, ← List.append_assoc]
    rfl

/-- Figures with a point among them or none, and the exponent and the suffix behind them. -/
theorem fractional_taken (base : Base) (whole point fraction cs : List Char)
    (hmark : mark ∈ base.marks)
    (hwhole : ∀ c ∈ whole, base.isFigure c = true) (hpoint : point ∈ [[], ['.']])
    (hfraction : ∀ c ∈ fraction, base.isFigure c = true)
    (hscaled : base ≠ .decimal → 0 < exponent base.scaleMarks cs) :
    ∃ x : Fractional, x.chars =
      mark ++ (whole ++ (point ++ (fraction ++ cs.take (floatTail base.scaleMarks cs)))) := by
  obtain ⟨scale, power, htail, hscale, hne, hpower⟩ := take_exponent base.scaleMarks cs
  let rest := cs.drop (exponent base.scaleMarks cs)
  refine ⟨⟨base, mark, whole, point, fraction, scale, power, rest.take (floatSuffix rest), hmark,
    hwhole, hpoint, hfraction, hscale, fun h => hne (hscaled h), hpower, take_floatSuffix rest⟩,
    ?_⟩
  unfold floatTail
  rw [List.take_add, htail]
  simp only [Fractional.chars, rest, List.append_assoc]

/-- What is taken up to a point, the point, and two stretches behind it. -/
theorem take_pointed {n : Nat} (k m : Nat) (h : (cs.drop n).head? = some '.') :
    cs.take (n + 1 + k + m) =
      cs.take n ++ (['.'] ++ ((cs.drop (n + 1)).take k ++ (cs.drop (n + 1 + k)).take m)) := by
  have hpoint : (cs.drop n).take 1 = ['.'] := by
    cases hrest : cs.drop n with
    | nil => simp [hrest] at h
    | cons c rest =>
      rw [hrest] at h
      cases h
      rfl
  rw [List.take_add, List.take_add, List.take_add, hpoint]
  simp only [List.append_assoc]

theorem take_marked (a b : Char) (k : Nat) : (a :: b :: cs).take (2 + k) = [a, b] ++ cs.take k := by
  rw [Nat.add_comm]
  rfl

theorem drop_marked (a b : Char) (k : Nat) : (a :: b :: cs).drop (2 + k) = cs.drop k := by
  rw [Nat.add_comm]
  rfl

end Taken

section Read

variable {c : Char} {cs : List Char} {n : Nat}

theorem decimal_whole (hc : c.isDigit = true) (h : decimal (c :: cs) = (.integerLit, n)) :
    ∃ w : Whole, w.chars = (c :: cs).take n := by
  have hpos : 0 < run isDecimal (c :: cs) := Lexer.run_pos cs (by simp [isDecimal, hc])
  unfold decimal at h
  dsimp only at h
  split at h
  · cases h
  · split at h
    · cases h
    · cases h
      exact whole_taken .decimal (c :: cs) (List.mem_singleton.mpr rfl) hpos

theorem decimal_fractional (h : decimal cs = (.floatingLit, n)) :
    ∃ x : Fractional, x.chars = cs.take n := by
  have hmark : [] ∈ Base.decimal.marks := by decide
  have hdigits := all_take_run isDecimal
  unfold decimal at h
  dsimp only at h
  split at h
  · rename_i hpoint
    cases h
    obtain ⟨x, hx⟩ := fractional_taken .decimal _ ['.'] _
      (cs.drop (run isDecimal cs + 1 + run isDecimal (cs.drop (run isDecimal cs + 1)))) hmark
      (hdigits cs) (by decide) (hdigits (cs.drop (run isDecimal cs + 1))) (fun h => absurd rfl h)
    refine ⟨x, hx.trans ?_⟩
    rw [List.drop_drop, take_pointed _ _ hpoint]
    rfl
  · split at h
    · cases h
      obtain ⟨x, hx⟩ := fractional_taken .decimal _ [] [] (cs.drop (run isDecimal cs)) hmark
        (hdigits cs) (by decide) nofun (fun h => absurd rfl h)
      refine ⟨x, hx.trans ?_⟩
      rw [List.take_add]
      rfl
    · cases h

theorem fraction_fractional (h : cs.head? = some '.') :
    ∃ x : Fractional, x.chars = cs.take (fraction cs) := by
  obtain ⟨x, hx⟩ := fractional_taken .decimal [] ['.'] _ (cs.drop (1 + run isDecimal (cs.drop 1)))
    (List.mem_singleton.mpr rfl) nofun (by decide) (all_take_run isDecimal (cs.drop 1))
    (fun h => absurd rfl h)
  refine ⟨x, hx.trans ?_⟩
  unfold fraction
  have htake := take_pointed (n := 0) (run isDecimal (cs.drop 1))
    (floatTail ['e', 'E'] (cs.drop (1 + run isDecimal (cs.drop 1)))) h
  rw [Nat.zero_add] at htake
  exact htake.symm

theorem hexadecimal_whole {x : Char} (hx : x = 'x' ∨ x = 'X')
    (h : hexadecimal ('0' :: x :: cs) = .number .integerLit n) :
    ∃ w : Whole, w.chars = ('0' :: x :: cs).take n := by
  have hmark : ['0', x] ∈ Base.hexadecimal.marks := by
    rcases hx with rfl | rfl <;> decide
  simp only [hexadecimal, List.drop_succ_cons, List.drop_zero, drop_marked] at h
  split at h
  · unfold pointedHex at h
    dsimp only at h
    repeat' split at h
    all_goals cases h
  · split at h
    · cases h
    · split at h
      · rename_i hpos
        cases h
        obtain ⟨w, hw⟩ := whole_taken .hexadecimal cs hmark (show 0 < run isHex cs by omega)
        refine ⟨w, hw.trans ?_⟩
        rw [Nat.add_assoc, take_marked]
        rfl
      · cases h
        exact whole_taken .decimal ['0'] (List.mem_singleton.mpr rfl) (by decide)

theorem hexadecimal_fractional {x : Char} (hx : x = 'x' ∨ x = 'X')
    (h : hexadecimal ('0' :: x :: cs) = .number .floatingLit n) :
    ∃ y : Fractional, y.chars = ('0' :: x :: cs).take n := by
  have hmark : ['0', x] ∈ Base.hexadecimal.marks := by
    rcases hx with rfl | rfl <;> decide
  have hdigits := all_take_run isHex
  simp only [hexadecimal, List.drop_succ_cons, List.drop_zero, drop_marked] at h
  split at h
  · rename_i hpoint
    simp only [pointedHex] at h
    split at h
    · rename_i hexponent
      cases h
      simp only [List.drop_drop, Nat.add_assoc, drop_marked] at hexponent ⊢
      obtain ⟨y, hy⟩ := fractional_taken .hexadecimal _ ['.'] _ _ hmark (hdigits cs) (by decide)
        (hdigits (cs.drop (run isHex cs + 1))) (fun _ => hexponent)
      refine ⟨y, hy.trans ?_⟩
      rw [take_marked]
      simp only [← Nat.add_assoc]
      rw [take_pointed _ _ hpoint]
      rfl
    · split at h <;> cases h
  · split at h
    · rename_i hexponent
      cases h
      obtain ⟨y, hy⟩ := fractional_taken .hexadecimal _ [] [] _ hmark (hdigits cs) (by decide) nofun
        (fun _ => hexponent)
      refine ⟨y, hy.trans ?_⟩
      rw [Nat.add_assoc, take_marked, List.take_add]
      rfl
    · split at h <;> cases h

theorem binary_whole {b : Char} (hb : b = 'b' ∨ b = 'B') :
    ∃ w : Whole, w.chars = ('0' :: b :: cs).take (binary ('0' :: b :: cs)) := by
  have hmark : ['0', b] ∈ Base.binary.marks := by
    rcases hb with rfl | rfl <;> decide
  simp only [binary, List.drop_succ_cons, List.drop_zero, drop_marked]
  split
  · obtain ⟨w, hw⟩ := whole_taken .binary cs hmark (show 0 < run isBinary cs by omega)
    refine ⟨w, hw.trans ?_⟩
    rw [Nat.add_assoc, take_marked]
    rfl
  · exact whole_taken .decimal ['0'] (List.mem_singleton.mpr rfl) (by decide)

theorem read_whole (hc : c.isDigit = true) (h : read (c :: cs) = .number .integerLit n) :
    ∃ w : Whole, w.chars = (c :: cs).take n := by
  have hdecimal (h : Reading.number (decimal (c :: cs)).1 (decimal (c :: cs)).2 =
      .number .integerLit n) : ∃ w : Whole, w.chars = (c :: cs).take n := by
    injection h with hkind hn
    exact decimal_whole hc (Prod.ext hkind hn)
  unfold read at h
  split at h
  · rename_i x rest heq
    split at h
    · rename_i hx
      rw [heq]
      exact hexadecimal_whole hx (heq ▸ h)
    · split at h
      · rename_i hb
        cases h
        rw [heq]
        exact binary_whole hb
      · exact hdecimal h
  · exact hdecimal h

theorem read_fractional (h : read cs = .number .floatingLit n) :
    ∃ x : Fractional, x.chars = cs.take n := by
  have hdecimal (h : Reading.number (decimal cs).1 (decimal cs).2 = .number .floatingLit n) :
      ∃ x : Fractional, x.chars = cs.take n := by
    injection h with hkind hn
    exact decimal_fractional (Prod.ext hkind hn)
  unfold read at h
  split at h
  · split at h
    · rename_i hx
      exact hexadecimal_fractional hx h
    · split at h
      · cases h
      · exact hdecimal h
  · exact hdecimal h

end Read

end Numeral

namespace Lexer

variable {c : Char} {cs : List Char} {k : Kind} {n : Nat}

/-- The quote around the literals of a kind. -/
def quote? : Kind → Option Char
  | .stringLit => some '"'
  | .charLit => some '\''
  | _ => none

/-- How the tokens of literals other than words are found. -/
theorem piece_literal (h : piece c cs = (.token k, n))
    (hk : k ∈ [.integerLit, .floatingLit, .textBlockLit, .stringLit, .charLit]) :
    (c.isDigit = true ∧ Numeral.read (c :: cs) = .number k n) ∨
      (k = .floatingLit ∧ c = '.' ∧ n = Numeral.fraction (c :: cs)) ∨
      (k = .textBlockLit ∧ c = '"' ∧ ∃ rest, cs = '"' :: '"' :: rest ∧
        Enclosed.opensBlock rest = true ∧ Enclosed.block 3 rest = (n, true)) ∨
      (quote? k = some c ∧ Enclosed.quoted c 1 cs = (n, true)) := by
  have hnone : ∀ k ∈ [Kind.integerLit, .floatingLit, .textBlockLit, .stringLit, .charLit],
      k ≠ .identifier ∧ k ∉ Kind.keywords ∧ k ∉ Kind.operators := by
    decide
  obtain ⟨hname, hkeyword, hoperator⟩ := hnone k hk
  cases piece_finds h with
  | word _ whole =>
    rcases word_kind whole with hk | ⟨hk, -⟩
    · exact absurd hk hname
    · exact absurd hk hkeyword
  | number digit whole => exact .inl ⟨digit, whole⟩
  | textBlock opens closed => exact .inr (.inr (.inl ⟨rfl, rfl, _, rfl, opens, closed⟩))
  | string closed | character closed => exact .inr (.inr (.inr ⟨rfl, closed⟩))
  | fraction => exact .inr (.inl ⟨rfl, rfl, rfl⟩)
  | operator mem => exact absurd mem hoperator

end Lexer

/-- The parts of a text block: the blanks and the line end behind the opening delimiter, and what
the delimiters hold below. -/
structure BlockText where
  blanks : List Char
  lineEnd : Char
  content : List Char
  blanks_all : ∀ c ∈ blanks, Enclosed.isNewline c = false
  isLineEnd : Enclosed.isNewline lineEnd = true

def blockDelimiter : List Char := ['"', '"', '"']

namespace BlockText

def inner (b : BlockText) : List Char :=
  b.blanks ++ b.lineEnd :: b.content

def chars (b : BlockText) : List Char :=
  blockDelimiter ++ b.inner ++ blockDelimiter

end BlockText

/-- A line end comes before the closing delimiter, and only blanks before it. -/
theorem blanks_of_opensBlock {front back : List Char}
    (h : Enclosed.opensBlock (front ++ '"' :: back) = true) :
    ∃ blanks c content, front = blanks ++ c :: content ∧
      (∀ x ∈ blanks, Enclosed.isNewline x = false) ∧ Enclosed.isNewline c = true := by
  let isBlank := fun c : Char => c == ' ' || c == '\t' || c == '\x0c'
  have hhead : ((front ++ '"' :: back).dropWhile isBlank).head?.any Enclosed.isNewline = true := h
  rw [List.dropWhile_append] at hhead
  cases hrest : front.dropWhile isBlank with
  | nil =>
    rw [hrest] at hhead
    cases hhead
  | cons c content =>
    rw [hrest] at hhead
    refine ⟨front.takeWhile isBlank, c, content, ?_, fun x hx => ?_, hhead⟩
    · rw [← hrest, List.takeWhile_append_dropWhile]
    · have hblank := List.all_eq_true.mp List.all_takeWhile x hx
      simp only [isBlank, Bool.or_eq_true, beq_iff_eq] at hblank
      rcases hblank with (rfl | rfl) | rfl <;> rfl

section Tokens

variable {keepDocs : Bool} {source : String} {t : Token}

theorem lex_whole (ht : .token t ∈ lex keepDocs source) (hk : t.kind = .integerLit) :
    ∃ w : Numeral.Whole, w.chars = t.text.toList := by
  obtain ⟨c, cs, n, hpiece, htext⟩ := Lexer.piece_of_mem ht
  rw [hk] at hpiece
  rw [htext, String.toList_ofList]
  rcases Lexer.piece_literal hpiece (by decide) with ⟨hdigit, hread⟩ | ⟨hkind, _⟩ | ⟨hkind, _⟩ |
    ⟨hquote, _⟩
  · exact Numeral.read_whole hdigit hread
  · cases hkind
  · cases hkind
  · cases hquote

theorem lex_fractional (ht : .token t ∈ lex keepDocs source) (hk : t.kind = .floatingLit) :
    ∃ x : Numeral.Fractional, x.chars = t.text.toList := by
  obtain ⟨c, cs, n, hpiece, htext⟩ := Lexer.piece_of_mem ht
  rw [hk] at hpiece
  rw [htext, String.toList_ofList]
  rcases Lexer.piece_literal hpiece (by decide) with ⟨_, hread⟩ | ⟨_, rfl, rfl⟩ | ⟨hkind, _⟩ |
    ⟨hquote, _⟩
  · exact Numeral.read_fractional hread
  · exact Numeral.fraction_fractional rfl
  · cases hkind
  · cases hquote

theorem lex_block (ht : .token t ∈ lex keepDocs source) (hk : t.kind = .textBlockLit) :
    ∃ b : BlockText, b.chars = t.text.toList := by
  obtain ⟨c, cs, n, hpiece, htext⟩ := Lexer.piece_of_mem ht
  rw [hk] at hpiece
  rw [htext, String.toList_ofList]
  rcases Lexer.piece_literal hpiece (by decide) with ⟨_, hread⟩ | ⟨hkind, _⟩ |
    ⟨_, rfl, rest, rfl, hopens, hblock⟩ | ⟨hquote, _⟩
  · rcases kind_of_read hread with hkind | hkind <;> cases hkind
  · cases hkind
  · obtain ⟨front, back, rfl, rfl⟩ := Enclosed.block_closed hblock
    obtain ⟨blanks, c, content, rfl, hblanks, hc⟩ := blanks_of_opensBlock hopens
    let b : BlockText := ⟨blanks, c, content, hblanks, hc⟩
    have hchars : '"' :: '"' :: '"' :: (blanks ++ c :: content ++ '"' :: '"' :: '"' :: back) =
        b.chars ++ back := by
      simp [b, BlockText.chars, BlockText.inner, blockDelimiter]
    have hlength : 3 + (blanks ++ c :: content).length + 3 = b.chars.length := by
      simp only [b, BlockText.chars, BlockText.inner, blockDelimiter, List.length_append,
        List.length_cons, List.length_nil]
    refine ⟨b, ?_⟩
    rw [hlength, hchars, List.take_left]
  · cases hquote

/-- A string or character literal is what stands between two quotes, of which a backslash has
taken neither. -/
theorem lex_quoted (ht : .token t ∈ lex keepDocs source) {quote : Char}
    (hquote : Lexer.quote? t.kind = some quote) : ∃ body,
      t.text.toList = quote :: (body ++ [quote]) ∧ Enclosed.Paired body := by
  obtain ⟨c, cs, n, hpiece, htext⟩ := Lexer.piece_of_mem ht
  have hk : t.kind ∈ [Kind.stringLit, .charLit] := by
    cases hkind : t.kind <;> rw [hkind] at hquote <;> first | decide | cases hquote
  rcases Lexer.piece_literal hpiece (by simp at hk ⊢; tauto) with ⟨_, hread⟩ | ⟨hkind, _⟩ |
    ⟨hkind, _⟩ | ⟨hfirst, hquoted⟩
  · rcases kind_of_read hread with hkind | hkind <;> rw [hkind] at hquote <;> cases hquote
  · rw [hkind] at hquote
    cases hquote
  · rw [hkind] at hquote
    cases hquote
  · obtain rfl : c = quote := Option.some.inj (hfirst.symm.trans hquote)
    obtain ⟨body, rest, rfl, rfl, hpaired⟩ := Enclosed.quoted_closed hquoted
    refine ⟨body, ?_, hpaired⟩
    have hwhole : c :: (body ++ c :: rest) = (c :: (body ++ [c])) ++ rest := by simp
    have hlength : 1 + body.length + 1 = (c :: (body ++ [c])).length := by
      simp only [List.length_cons, List.length_append, List.length_nil]
      omega
    rw [htext, String.toList_ofList, hwhole, hlength, List.take_left]

end Tokens

end JavaSyntax
