import JavaSyntax.Token.Lexer

/-!
What the lexer can find at the start of a text. The ways to find a piece are told once, each with
what it says of the text, so that a fact about every piece goes by these cases.
-/

namespace JavaSyntax.Lexer

/-- The piece is found so, with this length, at the start of a text with this first character. -/
inductive Finds : Char → List Char → Piece → Nat → Prop
  | blank {c : Char} {cs : List Char} (skipped : isSkipped c = true) : Finds c cs .blank 1
  | word {c : Char} {cs : List Char} {k : Kind} {n : Nat}
      (start : Unicode.isIdentifierStart c = true) (whole : word (c :: cs) = (.token k, n)) :
      Finds c cs (.token k) n
  | number {c : Char} {cs : List Char} {k : Kind} {n : Nat} (digit : c.isDigit = true)
      (whole : Numeral.read (c :: cs) = .number k n) : Finds c cs (.token k) n
  | brokenNumber {c : Char} {cs : List Char} {n : Nat} (digit : c.isDigit = true)
      (whole : Numeral.read (c :: cs) = .broken n) : Finds c cs (.flaw .illegalChar) n
  | textBlock {cs : List Char} {n : Nat} (opens : Enclosed.opensBlock cs = true)
      (closed : Enclosed.block 3 cs = (n, true)) :
      Finds '"' ('"' :: '"' :: cs) (.token .textBlockLit) n
  | unclosedTextBlock {cs : List Char} {n : Nat} (opens : Enclosed.opensBlock cs = true)
      (unclosed : Enclosed.block 3 cs = (n, false)) :
      Finds '"' ('"' :: '"' :: cs) (.flaw .unclosedTextBlock) n
  | textBlockOpen (cs : List Char) :
      Finds '"' ('"' :: '"' :: cs) (.flaw .textBlockOpen) (3 + Enclosed.line cs)
  | string {cs : List Char} {n : Nat} (closed : Enclosed.quoted '"' 1 cs = (n, true)) :
      Finds '"' cs (.token .stringLit) n
  | unclosedString {cs : List Char} {n : Nat} (unclosed : Enclosed.quoted '"' 1 cs = (n, false)) :
      Finds '"' cs (.flaw .unclosedString) n
  | emptyChar (cs : List Char) : Finds '\'' cs (.flaw .emptyChar) 2
  | character {cs : List Char} {n : Nat} (closed : Enclosed.quoted '\'' 1 cs = (n, true)) :
      Finds '\'' cs (.token .charLit) n
  | unclosedChar {cs : List Char} {n : Nat} (unclosed : Enclosed.quoted '\'' 1 cs = (n, false)) :
      Finds '\'' cs (.flaw .unclosedChar) n
  | lineComment (cs : List Char) : Finds '/' ('/' :: cs) .comment (2 + Enclosed.line cs)
  | emptyComment (cs : List Char) : Finds '/' ('*' :: '*' :: '/' :: cs) .comment 4
  | doc {body : List Char} {n : Nat} (opens : ∀ rest, body ≠ '/' :: rest)
      (closed : Enclosed.comment 3 body = some n) :
      Finds '/' ('*' :: '*' :: body) (.doc (body.take (n - 5))) n
  | comment {cs : List Char} {n : Nat} (closed : Enclosed.comment 2 cs = some n) :
      Finds '/' ('*' :: cs) .comment n
  | unclosedComment (cs : List Char) :
      Finds '/' ('*' :: cs) (.flaw .unclosedComment) (2 + cs.length)
  | fraction {d : Char} {cs : List Char} (digit : d.isDigit = true) :
      Finds '.' (d :: cs) (.token .floatingLit) (Numeral.fraction ('.' :: d :: cs))
  | operator {c : Char} {cs : List Char} {k : Kind} (mem : k ∈ Kind.operators)
      (spelled : k.spelling.toList <+: c :: cs) : Finds c cs (.token k) k.spelling.length
  | illegalChar (c : Char) (cs : List Char) : Finds c cs (.flaw .illegalChar) 1

variable {c : Char} {cs : List Char} {found : Piece} {n : Nat}

theorem number_finds (digit : c.isDigit = true) (h : number (c :: cs) = (found, n)) :
    Finds c cs found n := by
  unfold number at h
  split at h <;> cases h
  · exact .number digit ‹_›
  · exact .brokenNumber digit ‹_›

theorem textBlock_finds (h : textBlock cs = (found, n)) :
    Finds '"' ('"' :: '"' :: cs) found n := by
  unfold textBlock at h
  split at h
  · rename_i opens
    split at h <;> cases h
    · exact .textBlock opens ‹_›
    · exact .unclosedTextBlock opens ‹_›
  · cases h
    exact .textBlockOpen cs

theorem string_finds (h : string cs = (found, n)) : Finds '"' cs found n := by
  unfold string at h
  split at h <;> cases h
  · exact .string ‹_›
  · exact .unclosedString ‹_›

theorem character_finds (h : character cs = (found, n)) : Finds '\'' cs found n := by
  unfold character at h
  split at h
  · cases h
    exact .emptyChar cs
  · split at h <;> cases h
    · exact .character ‹_›
    · exact .unclosedChar ‹_›

theorem comment_finds (h : comment cs = (found, n)) : Finds '/' ('*' :: cs) found n := by
  unfold comment at h
  split at h
  · cases h
    exact .emptyComment _
  · rename_i opens
    split at h <;> cases h
    · exact .doc opens ‹_›
    · exact .unclosedComment _
  · split at h <;> cases h
    · exact .comment ‹_›
    · exact .unclosedComment cs

theorem operator_finds (h : operator (c :: cs) = (found, n)) : Finds c cs found n := by
  unfold operator at h
  split at h <;> cases h
  · rename_i k hfind
    have hprefix := List.find?_some hfind
    exact .operator (List.mem_of_find?_eq_some hfind) (List.isPrefixOf_iff_prefix.mp hprefix)
  · exact .illegalChar c cs

/-- Every piece is found in one of these ways. -/
theorem piece_finds (h : piece c cs = (found, n)) : Finds c cs found n := by
  unfold piece at h
  split at h
  · cases h
    exact .blank ‹_›
  split at h
  · cases h
    exact .word ‹_› rfl
  split at h
  · exact number_finds ‹_› h
  split at h
  · exact textBlock_finds h
  · exact string_finds h
  · exact character_finds h
  · cases h
    exact .lineComment _
  · exact comment_finds h
  · split at h
    · cases h
      exact .fraction ‹_›
    · exact operator_finds h
  · exact operator_finds h

/-- A word is a name, or reserved and spelled like its kind. -/
theorem word_kind {k : Kind} (h : word cs = (.token k, n)) : k = .identifier ∨
    k ∈ Kind.keywords ∧ k.spelling = String.ofList (cs.take n) := by
  obtain ⟨hkind, rfl⟩ := Prod.mk.inj h
  obtain rfl := Piece.token.inj hkind
  unfold wordKind
  split
  · rename_i l hfind
    split
    · exact .inl rfl
    · have hspell := List.find?_some hfind
      exact .inr ⟨List.mem_of_find?_eq_some hfind, beq_iff_eq.mp hspell⟩
  · exact .inl rfl

end JavaSyntax.Lexer
