import JavaSyntax.Proofs.Pieces

/-!
How a text that was put together from words is cut again. A word comes out whole if the lexer, which
always takes the longest piece, finds nothing behind it that it could add; what that is depends on
the kind of the word.
-/

namespace JavaSyntax

/-- What the grammar reads of a token: its kind and its text. -/
abbrev Word : Type := Kind × String

def Item.word? : Item → Option Word
  | .token t => some (t.kind, t.text)
  | .flawed _ => none

namespace Lexer.Cutter

/-- Lexing cuts the characters into these words, and nothing is flawed. -/
def Cuts (next : Cutter) (cs : List Char) (words : List Word) : Prop :=
  ∀ keepDocs fuel start waiting, cs.length ≤ fuel →
    (items next keepDocs fuel start waiting cs).map Item.word? = words.map some

/-- The word is the first piece of a text that starts with it and goes on as said. -/
def Takes (next : Cutter) (word : Word) (rest : List Char) : Prop :=
  ∃ c cs, word.2.toList = c :: cs ∧ next c (cs ++ rest) = (.token word.1, word.2.toList.length)

end Lexer.Cutter

abbrev Cuts : List Char → List Word → Prop :=
  Lexer.Cutter.Cuts Lexer.piece

abbrev Starts : Word → List Char → Prop :=
  Lexer.Cutter.Takes Lexer.piece

/-- What comes next, if anything does, is of this class. -/
def Follows (p : Char → Bool) (rest : List Char) : Prop :=
  ∀ c, rest.head? = some c → p c = true

theorem Follows.mono {p q : Char → Bool} {rest : List Char} (h : Follows p rest)
    (hpq : ∀ c, p c = true → q c = true) : Follows q rest :=
  fun c hc => hpq c (h c hc)

namespace Lexer.Cutter.Cuts

variable {next : Cutter} {cs rest : List Char} {words : List Word}

theorem nil : next.Cuts [] [] := by
  intro keepDocs fuel start waiting _
  cases fuel <;> rfl

theorem blank {c : Char} (hc : next c cs = (.blank, 1)) (h : next.Cuts cs words) :
    next.Cuts (c :: cs) words := by
  intro keepDocs fuel start waiting hfuel
  obtain ⟨fuel, rfl⟩ : ∃ n, fuel = n + 1 := ⟨fuel - 1, by simp at hfuel; omega⟩
  simp only [items, hc]
  exact h keepDocs fuel _ waiting (by simpa using hfuel)

theorem cons {w : Word} (hw : next.Takes w rest) (h : next.Cuts rest words) :
    next.Cuts (w.2.toList ++ rest) (w :: words) := by
  intro keepDocs fuel start waiting hfuel
  obtain ⟨k, text⟩ := w
  obtain ⟨c, cs, hchars, hpiece⟩ := hw
  dsimp only at hchars hpiece hfuel ⊢
  rw [hchars, List.cons_append] at hfuel ⊢
  obtain ⟨fuel, rfl⟩ : ∃ n, fuel = n + 1 := ⟨fuel - 1, by simp at hfuel; omega⟩
  have htake : (c :: (cs ++ rest)).take text.toList.length = text.toList := by
    rw [← List.cons_append, ← hchars, List.take_left]
  have hdrop : (c :: (cs ++ rest)).drop text.toList.length = rest := by
    rw [← List.cons_append, ← hchars, List.drop_left]
  simp only [items, hpiece, htake, hdrop, List.map_cons, Item.word?, String.ofList_toList]
  rw [h keepDocs fuel _ none (by simp at hfuel; omega)]

/-- Blanks keep words apart that none of them can go on with. -/
theorem intercalate (hblank : ∀ w ∈ words, ∀ rest, next ' ' (w.2.toList ++ rest) = (.blank, 1))
    (h : ∀ w ∈ words, ∀ rest, Follows (· == ' ') rest → next.Takes w rest) :
    next.Cuts (" ".intercalate (words.map Prod.snd)).toList words := by
  induction words with
  | nil => exact .nil
  | cons w rest ih =>
    obtain ⟨hfirst, hrest⟩ := List.forall_mem_cons.mp h
    obtain ⟨-, hblank⟩ := List.forall_mem_cons.mp hblank
    cases rest with
    | nil =>
      rw [List.map_singleton, String.intercalate_singleton, ← List.append_nil w.2.toList]
      exact .cons (hfirst [] fun c hc => by cases hc) .nil
    | cons v rest =>
      rw [List.map_cons, List.map_cons, String.intercalate_cons_cons, String.toList_append,
        String.toList_append, List.append_assoc]
      refine .cons (hfirst _ ?_) ((ih hblank hrest).blank ?_)
      · rintro c ⟨⟩
        rfl
      · obtain ⟨more, hmore⟩ : ∃ more, (" ".intercalate ((v :: rest).map Prod.snd)).toList =
            v.2.toList ++ more := by
          cases rest with
          | nil => exact ⟨[], by simp⟩
          | cons u rest => exact ⟨_, by simp [String.intercalate_cons_cons]; rfl⟩
        exact hmore ▸ hblank v List.mem_cons_self more

end Lexer.Cutter.Cuts

namespace Cuts

variable {cs rest : List Char} {words : List Word}

theorem nil : Cuts [] [] := Lexer.Cutter.Cuts.nil

theorem cons {k : Kind} {text : String} (hw : Starts (k, text) rest) (h : Cuts rest words) :
    Cuts (text.toList ++ rest) ((k, text) :: words) :=
  Lexer.Cutter.Cuts.cons hw h

theorem skip {c : Char} (hc : Lexer.isSkipped c = true) (h : Cuts cs words) :
    Cuts (c :: cs) words :=
  h.blank (if_pos hc)

theorem intercalate (h : ∀ w ∈ words, ∀ rest, Follows (· == ' ') rest → Starts w rest) :
    Cuts (" ".intercalate (words.map Prod.snd)).toList words :=
  Lexer.Cutter.Cuts.intercalate (fun _ _ _ => rfl) h

end Cuts

theorem run_append {p : Char → Bool} {body rest : List Char} (hbody : ∀ x ∈ body, p x = true)
    (hr : Follows (fun x => !p x) rest) : Numeral.run p (body ++ rest) = body.length := by
  have hstop : rest.takeWhile p = [] := by
    cases rest with
    | nil => rfl
    | cons x xs =>
      have hx := hr x rfl
      simp only [Bool.not_eq_eq_eq_not, Bool.not_true] at hx
      simp [hx]
  unfold Numeral.run
  rw [List.takeWhile_append_of_pos hbody, hstop, List.append_nil]

/-! Names and reserved words. -/

/-- A word that the lexer takes for a name, or would but for its being reserved. -/
def IsWordText (text : String) : Prop :=
  ∃ c cs, text.toList = c :: cs ∧ Unicode.isIdentifierStart c = true ∧
    ∀ x ∈ cs, Unicode.isIdentifierPart x = true

def isReserved (text : String) : Bool :=
  Kind.keywords.any fun k => k.spelling == text

/-- Words that are read as names where a primary starts. -/
def isName (k : Kind) : Bool :=
  k == .identifier || k == .thisKw || k == .superKw

/-- What the kind of a word says about its text, for names and `class`. -/
structure Word.Proper (w : Word) : Prop where
  class_text : w.1 = .classKw → w.2 = "class"
  name_text : isName w.1 = true → IsWordText w.2

/-- Words as the lexer gives them. -/
def Proper (ws : List Word) : Prop :=
  ∀ w ∈ ws, w.Proper

theorem proper_cons {w : Word} {ws : List Word} : Proper (w :: ws) ↔ w.Proper ∧ Proper ws :=
  List.forall_mem_cons

theorem proper_append {ws us : List Word} : Proper (ws ++ us) ↔ Proper ws ∧ Proper us :=
  List.forall_mem_append

theorem isIdentifierPart_of_start {c : Char} (h : Unicode.isIdentifierStart c = true) :
    Unicode.isIdentifierPart c = true := by
  unfold Unicode.isIdentifierStart at h
  unfold Unicode.isIdentifierPart
  split
  · rename_i hc
    rw [if_pos hc] at h
    simp only [Bool.or_eq_true, Char.isAlphanum] at h ⊢
    rcases h with (h | h) | h
    · exact .inl (.inl (.inl h))
    · exact .inl (.inr h)
    · exact .inr h
  · rename_i hc
    rw [if_neg hc] at h
    rw [h, Bool.true_or]

theorem not_isSkipped_of_start {c : Char} (h : Unicode.isIdentifierStart c = true) :
    Lexer.isSkipped c = false := by
  cases hs : Lexer.isSkipped c with
  | false => rfl
  | true =>
    simp only [Lexer.isSkipped, Bool.or_eq_true, beq_iff_eq] at hs
    rcases hs with (((((hs | hs) | hs) | hs) | hs) | hs) | hs <;>
      exact absurd h (by subst hs; decide +kernel)

theorem piece_word {c : Char} {cs rest : List Char} (hc : Unicode.isIdentifierStart c = true)
    (hcs : ∀ x ∈ cs, Unicode.isIdentifierPart x = true)
    (hr : Follows (fun x => !Unicode.isIdentifierPart x) rest) :
    Lexer.piece c (cs ++ rest) =
      (.token (Lexer.wordKind (c :: cs) rest), (c :: cs).length) := by
  have hall : ∀ x ∈ c :: cs, Unicode.isIdentifierPart x = true := by
    intro x hx
    rcases List.mem_cons.mp hx with rfl | hx
    · exact isIdentifierPart_of_start hc
    · exact hcs x hx
  have hrun : Numeral.run Unicode.isIdentifierPart (c :: (cs ++ rest)) = (c :: cs).length := by
    rw [← List.cons_append]
    exact run_append hall hr
  unfold Lexer.piece
  rw [if_neg (by simp [not_isSkipped_of_start hc]), if_pos hc]
  unfold Lexer.word
  dsimp only
  rw [hrun, ← List.cons_append, List.take_left, List.drop_left]

theorem take_run (p : Char → Bool) (cs : List Char) :
    cs.take (Numeral.run p cs) = cs.takeWhile p :=
  (List.prefix_iff_eq_take.mp (List.takeWhile_prefix p)).symm

theorem word_proper {c : Char} {cs : List Char} (hc : Unicode.isIdentifierStart c = true)
    {k : Kind} {n : Nat} (h : Lexer.word (c :: cs) = (.token k, n)) :
    Word.Proper (k, String.ofList ((c :: cs).take n)) := by
  refine ⟨?_, fun _ => ?_⟩
  · rintro rfl
    rcases Lexer.word_kind h with hname | ⟨-, hspell⟩
    · cases hname
    · exact hspell.symm
  · obtain ⟨-, rfl⟩ := Prod.mk.inj h
    rw [take_run, List.takeWhile_cons_of_pos (isIdentifierPart_of_start hc)]
    refine ⟨c, cs.takeWhile Unicode.isIdentifierPart, String.toList_ofList, hc, fun x hx => ?_⟩
    exact List.all_eq_true.mp List.all_takeWhile x hx

/-- A number is a whole one or not. -/
def Numeral.Reading.isNumber : Numeral.Reading → Prop
  | .number k _ => k = .integerLit ∨ k = .floatingLit
  | .broken _ => True

theorem read_isNumber (cs : List Char) : (Numeral.read cs).isNumber := by
  have hdecimal (n : Nat) : (Numeral.Reading.number (Numeral.decimal cs).1 n).isNumber := by
    unfold Numeral.decimal
    dsimp only
    split
    · exact .inr rfl
    · split
      · exact .inr rfl
      · exact .inl rfl
  unfold Numeral.read
  split
  · split
    · unfold Numeral.hexadecimal Numeral.pointedHex
      dsimp only
      repeat' split
      all_goals first | exact .inl rfl | exact .inr rfl | trivial
    · split
      · exact .inl rfl
      · exact hdecimal _
  · exact hdecimal _

/-- What is read as a number has one of these kinds. -/
theorem kind_of_read {cs : List Char} {k : Kind} {n : Nat} (h : Numeral.read cs = .number k n) :
    k = .integerLit ∨ k = .floatingLit := by
  have hread := read_isNumber cs
  rwa [h] at hread

/-- A token is a word that starts like one, an operator, or a number, string or character. -/
theorem piece_cases {c : Char} {cs : List Char} {k : Kind} {n : Nat}
    (h : Lexer.piece c cs = (.token k, n)) :
    (Unicode.isIdentifierStart c = true ∧ Lexer.word (c :: cs) = (.token k, n)) ∨
      k ∈ Kind.operators ∨
        k ∈ [.integerLit, .floatingLit, .stringLit, .textBlockLit, .charLit] := by
  cases Lexer.piece_finds h with
  | word start whole => exact .inl ⟨start, whole⟩
  | number _ whole => rcases kind_of_read whole with rfl | rfl <;> exact .inr (.inr (by decide))
  | textBlock | string | character | fraction => exact .inr (.inr (by decide))
  | operator mem => exact .inr (.inl mem)

/-- Whatever the text, the words that the lexer cuts off are proper. -/
theorem piece_proper {c : Char} {cs : List Char} {k : Kind} {n : Nat}
    (h : Lexer.piece c cs = (.token k, n)) : Word.Proper (k, String.ofList ((c :: cs).take n)) := by
  have hother (hk : k ≠ .classKw ∧ isName k = false) (text : String) : Word.Proper (k, text) :=
    ⟨fun heq => absurd heq hk.1, fun heq => absurd heq (by simp [hk.2])⟩
  rcases piece_cases h with ⟨hstart, hword⟩ | hk | hk
  · exact word_proper hstart hword
  · have hfacts : ∀ k ∈ Kind.operators, k ≠ .classKw ∧ isName k = false := by decide
    exact hother (hfacts k hk) _
  · have hfacts : ∀ k ∈ [.integerLit, .floatingLit, .stringLit, .textBlockLit, .charLit],
        k ≠ .classKw ∧ isName k = false := by
      decide
    exact hother (hfacts k hk) _

/-- A reserved word has the text it is spelled with. -/
theorem piece_keyword {c : Char} {cs : List Char} {k : Kind} {n : Nat}
    (h : Lexer.piece c cs = (.token k, n)) (hk : k ∈ Kind.keywords) :
    String.ofList ((c :: cs).take n) = k.spelling := by
  rcases piece_cases h with ⟨-, hword⟩ | hoperator | hliteral
  · rcases Lexer.word_kind hword with rfl | ⟨-, hspell⟩
    · exact absurd hk (by decide)
    · exact hspell.symm
  · have hnone : ∀ k ∈ Kind.operators, k ∉ Kind.keywords := by decide
    exact absurd hk (hnone k hoperator)
  · have hnone : ∀ k ∈ [.integerLit, .floatingLit, .stringLit, .textBlockLit, .charLit],
        k ∉ Kind.keywords := by
      decide
    exact absurd hk (hnone k hliteral)

theorem items_proper {keepDocs : Bool} {fuel start : Nat} {waiting : Option String}
    {cs : List Char} {item : Item} {w : Word}
    (hitem : item ∈ Lexer.items Lexer.piece keepDocs fuel start waiting cs)
    (hw : item.word? = some w) : w.Proper := by
  induction fuel generalizing start waiting cs with
  | zero => cases hitem
  | succ fuel ih =>
    cases cs with
    | nil => cases hitem
    | cons c cs =>
      simp only [Lexer.items] at hitem
      split at hitem
      · exact ih hitem
      · exact ih hitem
      · exact ih hitem
      · rename_i k hpiece
        rcases List.mem_cons.mp hitem with rfl | hitem
        · cases hw
          exact piece_proper (Prod.ext hpiece rfl)
        · exact ih hitem
      · rcases List.mem_cons.mp hitem with rfl | hitem
        · cases hw
        · exact ih hitem

theorem Lexer.wordKind_free {name : String} (hfree : isReserved name = false)
    (rest : List Char) : wordKind name.toList rest = .identifier := by
  have hnone : Kind.keywords.find? (fun k => k.spelling == String.ofList name.toList) = none := by
    rw [String.ofList_toList]
    exact List.find?_eq_none.mpr (List.any_eq_false.mp hfree)
  unfold wordKind
  rw [hnone]

theorem starts_name {name : String} {rest : List Char} (hn : IsWordText name)
    (hfree : isReserved name = false)
    (hr : Follows (fun x => !Unicode.isIdentifierPart x) rest) :
    Starts (.identifier, name) rest := by
  obtain ⟨c, cs, hname, hc, hcs⟩ := hn
  refine ⟨c, cs, hname, ?_⟩
  have hkind : Lexer.wordKind (c :: cs) rest = .identifier := hname ▸ Lexer.wordKind_free hfree rest
  rw [piece_word hc hcs hr, hkind, hname]

theorem isWordText_spelling {k : Kind} (hk : k ∈ Kind.keywords) : IsWordText k.spelling := by
  have hchars : ∀ k ∈ Kind.keywords, k.spelling.toList ≠ [] ∧
      k.spelling.toList.all Unicode.isIdentifierStart = true := by
    decide
  obtain ⟨hne, hall⟩ := hchars k hk
  obtain ⟨c, cs, hcs⟩ := List.exists_cons_of_ne_nil hne
  rw [hcs, List.all_cons, Bool.and_eq_true, List.all_eq_true] at hall
  exact ⟨c, cs, hcs, hall.1, fun x hx => isIdentifierPart_of_start (hall.2 x hx)⟩

theorem Lexer.wordKind_spelling {k : Kind} (hk : k ∈ Kind.keywords) (rest : List Char) :
    wordKind k.spelling.toList rest =
      if rest.head?.any unreserves then .identifier else k := by
  have hfind : ∀ k ∈ Kind.keywords,
      Kind.keywords.find? (fun l => l.spelling == String.ofList k.spelling.toList) = some k := by
    decide
  unfold wordKind
  rw [hfind k hk]

theorem starts_reserved {k : Kind} {rest : List Char} (hk : k ∈ Kind.keywords)
    (hr : Follows (fun x => !Unicode.isIdentifierPart x && !Lexer.unreserves x) rest) :
    Starts (k, k.spelling) rest := by
  obtain ⟨c, cs, hspell, hc, hcs⟩ := isWordText_spelling hk
  refine ⟨c, cs, hspell, ?_⟩
  have hkind : Lexer.wordKind (c :: cs) rest = k := by
    rw [← hspell, Lexer.wordKind_spelling hk]
    have hfree : rest.head?.any Lexer.unreserves = false := by
      cases hhead : rest.head? with
      | none => rfl
      | some x =>
        have hx := hr x hhead
        simp only [Bool.and_eq_true, Bool.not_eq_eq_eq_not, Bool.not_true] at hx
        exact hx.2
    simp [hfree]
  rw [piece_word hc hcs (hr.mono fun x hx => (Bool.and_eq_true_iff.mp hx).1), hkind, hspell]

/-- The reserved words that stand in expressions. -/
def exprWords : List Kind := [.thisKw, .superKw, .classKw, .trueKw, .falseKw, .nullKw]

theorem starts_keyword {k : Kind} {rest : List Char} (hk : k ∈ exprWords)
    (hr : Follows (fun x => !Unicode.isIdentifierPart x && !Lexer.unreserves x) rest) :
    Starts (k, k.spelling) rest := by
  have hwords : ∀ k ∈ exprWords, k ∈ Kind.keywords := by decide
  exact starts_reserved (hwords k hk) hr

/-! Operators and separators. -/

theorem operators_apart :
    Kind.operators.Pairwise fun k l => ¬k.spelling.toList <+: l.spelling.toList := by
  decide +kernel

/-- What an operator starts with is no blank and starts no word, number or quoted text. With a slash
or a point it is one of two. -/
structure OperatorHead (k : Kind) (c : Char) : Prop where
  skipped : Lexer.isSkipped c = false
  start : Unicode.isIdentifierStart c = false
  digit : c.isDigit = false
  quote : c ≠ '"' ∧ c ≠ '\''
  slash : c = '/' → k = .slash ∨ k = .divAssign
  point : c = '.' → k = .dot ∨ k = .ellipsis

theorem operator_opens {k : Kind} (hk : k ∈ Kind.operators) :
    ∃ c cs, k.spelling.toList = c :: cs ∧ OperatorHead k c := by
  have hheads : Kind.operators.all (fun k => k.spelling.toList.head?.any fun c =>
      !Lexer.isSkipped c && !Unicode.isIdentifierStart c && !c.isDigit && c != '"' && c != '\'' &&
        (c != '/' || (k == .slash || k == .divAssign)) &&
          (c != '.' || (k == .dot || k == .ellipsis))) = true := by
    decide
  obtain ⟨c, hc, hfacts⟩ := (Option.any_eq_true _ _).mp (List.all_eq_true.mp hheads k hk)
  obtain ⟨cs, hspell⟩ := List.head?_eq_some_iff.mp hc
  simp only [Bool.and_eq_true, Bool.not_eq_true', Bool.or_eq_true, bne_iff_ne, ne_eq,
    beq_iff_eq] at hfacts
  obtain ⟨⟨⟨⟨⟨⟨hskip, hstart⟩, hdigit⟩, hquote⟩, htick⟩, hslash⟩, hpoint⟩ := hfacts
  exact ⟨c, cs, hspell, hskip, hstart, hdigit, ⟨hquote, htick⟩,
    fun hc => hslash.resolve_left (not_not_intro hc),
    fun hc => hpoint.resolve_left (not_not_intro hc)⟩

/-- The characters that make a longer operator of one. -/
def extensions (k : Kind) : List Char :=
  Kind.operators.filterMap fun l =>
    if k.spelling.toList.isPrefixOf l.spelling.toList then
      (l.spelling.toList.drop k.spelling.toList.length).head?
    else none

theorem mem_extensions {k l : Kind} {c : Char} {more : List Char} (hl : l ∈ Kind.operators)
    (h : l.spelling.toList = k.spelling.toList ++ c :: more) : c ∈ extensions k := by
  refine List.mem_filterMap.mpr ⟨l, hl, ?_⟩
  rw [h, if_pos (List.isPrefixOf_iff_prefix.mpr (List.prefix_append ..)), List.drop_left]
  rfl

/-- Operators are tried longest first, so one is found unless the text goes on with a longer one. -/
theorem operator_spelling {k : Kind} {rest : List Char} (hk : k ∈ Kind.operators)
    (hr : Follows (fun c => !(extensions k).contains c) rest) :
    Lexer.operator (k.spelling.toList ++ rest) = (.token k, k.spelling.toList.length) := by
  obtain ⟨before, behind, hsplit⟩ := List.append_of_mem hk
  have hearlier (l : Kind) (hl : l ∈ before) : ¬l.spelling.toList <+: k.spelling.toList := by
    have happart := operators_apart
    rw [hsplit, List.pairwise_append] at happart
    exact happart.2.2 l hl k List.mem_cons_self
  have hfind : Kind.operators.find?
      (fun l => l.spelling.toList.isPrefixOf (k.spelling.toList ++ rest)) = some k := by
    rw [List.find?_eq_some_iff_append]
    refine ⟨List.isPrefixOf_iff_prefix.mpr (List.prefix_append ..), before, behind, hsplit, ?_⟩
    intro l hl
    simp only [Bool.not_eq_eq_eq_not, Bool.not_true, Bool.eq_false_iff]
    intro hprefix
    obtain ⟨tail, htail⟩ := List.isPrefixOf_iff_prefix.mp hprefix
    rcases List.append_eq_append_iff.mp htail with ⟨more, hmore, _⟩ | ⟨more, hmore, hrest⟩
    · exact hearlier l hl ⟨more, hmore.symm⟩
    · cases more with
      | nil =>
        rw [List.append_nil] at hmore
        exact hearlier l hl ⟨[], by simp [hmore]⟩
      | cons c more =>
        have hmem := mem_extensions (hsplit ▸ List.mem_append_left _ hl) hmore
        have hc := hr c (by rw [hrest]; rfl)
        simp [hmem] at hc
  unfold Lexer.operator
  rw [hfind]
  rfl

/-- A slash must not open a comment, and a dot no fraction. -/
theorem starts_operator {k : Kind} {rest : List Char} (hk : k ∈ Kind.operators)
    (hr : Follows (fun c => !(extensions k).contains c) rest)
    (hslash : k = .slash → Follows (fun c => c != '/' && c != '*') rest)
    (hdot : k = .dot → Follows (fun c => !c.isDigit) rest) : Starts (k, k.spelling) rest := by
  obtain ⟨c, cs, hspell, hhead⟩ := operator_opens hk
  refine ⟨c, cs, hspell, ?_⟩
  have hoperator := operator_spelling hk hr
  rw [hspell, List.cons_append] at hoperator
  unfold Lexer.piece
  rw [if_neg (by simp [hhead.skipped]), if_neg (by simp [hhead.start]),
    if_neg (by simp [hhead.digit])]
  split
  · exact absurd rfl hhead.quote.1
  · exact absurd rfl hhead.quote.1
  · exact absurd rfl hhead.quote.2
  · rename_i more hmore
    rcases hhead.slash rfl with rfl | rfl
    · obtain rfl : cs = [] := (List.cons.inj hspell).2.symm
      exact absurd (hslash rfl '/' (by rw [List.nil_append] at hmore; rw [hmore]; rfl)) (by decide)
    · cases hspell
      cases hmore
  · rename_i more hmore
    rcases hhead.slash rfl with rfl | rfl
    · obtain rfl : cs = [] := (List.cons.inj hspell).2.symm
      exact absurd (hslash rfl '*' (by rw [List.nil_append] at hmore; rw [hmore]; rfl)) (by decide)
    · cases hspell
      cases hmore
  · rename_i d more hmore
    have hd : d.isDigit = false := by
      rcases hhead.point rfl with rfl | rfl
      · obtain rfl : cs = [] := (List.cons.inj hspell).2.symm
        have hfree := hdot rfl d (by rw [List.nil_append] at hmore; rw [hmore]; rfl)
        simpa using hfree
      · cases hspell
        cases hmore
        rfl
    rw [if_neg (by simp [hd])]
    simpa [hspell, hmore] using hoperator
  · simpa [hspell] using hoperator

/-! Whole numbers in base ten. -/

theorem isDigit_facts {c : Char} (h : c.isDigit = true) :
    Lexer.isSkipped c = false ∧ Unicode.isIdentifierStart c = false := by
  have hrange : 48 ≤ c.toNat ∧ c.toNat ≤ 57 := by
    simpa [Char.isDigit, UInt32.le_iff_toNat_le] using h
  have hne {d : Char} (hd : d.toNat < 48 ∨ 57 < d.toNat) : c ≠ d := by
    rintro rfl
    omega
  constructor
  · simp only [Lexer.isSkipped, Bool.or_eq_false_iff, beq_eq_false_iff_ne]
    exact ⟨⟨⟨⟨⟨⟨hne (by decide), hne (by decide)⟩, hne (by decide)⟩, hne (by decide)⟩,
      hne (by decide)⟩, hne (by decide)⟩, hne (by decide)⟩
  · have hascii : Unicode.isAscii c = true := by
      simp only [Unicode.isAscii, decide_eq_true_eq]
      omega
    have halpha : c.isAlpha = false := by
      have hval : c.val.toNat = c.toNat := rfl
      have hA : 'A'.val.toNat = 65 := rfl
      have ha : 'a'.val.toNat = 97 := rfl
      show (decide (c.val ≥ 'A'.val ∧ c.val ≤ 'Z'.val) ||
        (decide (c.val ≥ 'a'.val) && decide (c.val ≤ 'z'.val))) = false
      simp only [Bool.or_eq_false_iff, Bool.and_eq_false_iff, decide_eq_false_iff_not, ge_iff_le,
        UInt32.le_iff_toNat_le, hval, hA, ha]
      exact ⟨by omega, .inl (by omega)⟩
    unfold Unicode.isIdentifierStart
    rw [if_pos hascii, halpha]
    simp only [Bool.false_or, Bool.or_eq_false_iff, beq_eq_false_iff_ne]
    exact ⟨hne (by decide), hne (by decide)⟩

/-- Characters that make something else of the digits in front of them. -/
def isNumeric (c : Char) : Bool :=
  Numeral.isDecimal c || ['.', 'x', 'X', 'b', 'B', 'e', 'E', 'f', 'F', 'd', 'D'].contains c

theorem oneOf_eq_zero {choices rest : List Char} (h : Follows (fun c => !choices.contains c) rest) :
    Numeral.oneOf choices rest = 0 := by
  cases rest with
  | nil => rfl
  | cons c cs =>
    have hc := h c rfl
    simp only [Bool.not_eq_eq_eq_not, Bool.not_true] at hc
    simp only [Numeral.oneOf, hc, Bool.false_eq_true, if_false]

theorem decimal_digits {ds rest : List Char} (hds : ∀ x ∈ ds, x.isDigit = true)
    (hr : Follows (fun c => !isNumeric c) rest) :
    Numeral.decimal (ds ++ rest) = (.integerLit, ds.length + Numeral.longSuffix rest) := by
  have hrun : Numeral.run Numeral.isDecimal (ds ++ rest) = ds.length :=
    run_append (fun x hx => by simp [Numeral.isDecimal, hds x hx])
      (hr.mono fun c hc => by
        simp only [isNumeric, Bool.not_or, Bool.and_eq_true] at hc
        exact hc.1)
  have hnot (choices : List Char) (hsub : choices.all isNumeric = true) :
      Follows (fun c => !choices.contains c) rest := hr.mono fun c hc => by
    simp only [Bool.not_eq_eq_eq_not, Bool.not_true, List.contains_eq_mem,
      decide_eq_false_iff_not] at hc ⊢
    intro hmem
    exact absurd (List.all_eq_true.mp hsub c hmem) (by simp [hc])
  have hpoint : rest.head? ≠ some '.' := fun h => by
    have hc := hr '.' h
    exact absurd hc (by decide)
  have hexponent : Numeral.exponent ['e', 'E'] rest = 0 := by
    simp only [Numeral.exponent, oneOf_eq_zero (hnot ['e', 'E'] (by decide))]
    rfl
  have htail : Numeral.floatTail ['e', 'E'] rest = 0 := by
    simp only [Numeral.floatTail, hexponent, Nat.zero_add, List.drop_zero, Numeral.floatSuffix]
    exact oneOf_eq_zero (hnot _ (by decide))
  simp only [Numeral.decimal, hrun, List.drop_left, if_neg hpoint, htail, Nat.lt_irrefl, if_false]

/-- Digits without a leading zero, up to the suffix of a long number. -/
theorem piece_digits {c : Char} {ds rest : List Char} (hc : c.isDigit = true)
    (hds : ∀ x ∈ ds, x.isDigit = true) (hzero : c = '0' → ds = [])
    (hr : Follows (fun c => !isNumeric c) rest) :
    Lexer.piece c (ds ++ rest) =
      (.token .integerLit, (c :: ds).length + Numeral.longSuffix rest) := by
  have hall : ∀ x ∈ c :: ds, x.isDigit = true := by
    intro x hx
    rcases List.mem_cons.mp hx with rfl | hx
    · exact hc
    · exact hds x hx
  have hdecimal := decimal_digits hall hr
  have hread : Numeral.read (c :: (ds ++ rest)) =
      .number .integerLit ((c :: ds).length + Numeral.longSuffix rest) := by
    rw [List.cons_append] at hdecimal
    unfold Numeral.read
    split
    · rename_i d more heq
      obtain ⟨hc0, hrest⟩ := List.cons.inj heq
      rw [hzero hc0, List.nil_append] at hrest
      have hd := hr d (by rw [hrest]; rfl)
      rw [if_neg, if_neg, hdecimal]
      · rintro (rfl | rfl) <;> exact absurd hd (by decide)
      · rintro (rfl | rfl) <;> exact absurd hd (by decide)
    · rw [hdecimal]
  obtain ⟨hskip, hstart⟩ := isDigit_facts hc
  unfold Lexer.piece
  rw [if_neg (by simp [hskip]), if_neg (by simp [hstart]), if_pos hc]
  unfold Lexer.number
  rw [hread]

end JavaSyntax
