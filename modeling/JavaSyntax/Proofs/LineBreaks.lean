import JavaSyntax.Proofs.Joining

/-!
Lexing line by line. What the lexer finds in front of a line end, flawed or not, it finds whatever
comes behind it, so that a text is lexed like its lines one after the other. There is one exception:
the mark of an exponent that is the last character of a text is no part of the broken number in
front of it, but is if a line end follows.
-/

namespace JavaSyntax

open Enclosed (isNewline)

namespace Enclosed

/-- A literal keeps to its line, whether it is closed or not. -/
theorem quoted_inLine {quote : Char} (hquote : isNewline quote = false) {n m : Nat} {closed : Bool}
    {cs : List Char} (h : quoted quote n cs = (m, closed)) :
    ∃ front rest, cs = front ++ rest ∧ m = n + front.length ∧
      ∀ c ∈ front, isNewline c = false := by
  have hslash : ∀ c ∈ ['\\'], isNewline c = false := List.forall_mem_singleton.mpr rfl
  fun_induction quoted quote n cs with
  | case1 n =>
    cases h
    exact ⟨[], [], rfl, rfl, List.forall_mem_nil _⟩
  | case2 n =>
    cases h
    exact ⟨['\\'], [], rfl, rfl, hslash⟩
  | case3 n c rest hc =>
    cases h
    exact ⟨['\\'], c :: rest, rfl, rfl, hslash⟩
  | case4 n c rest hc ih =>
    obtain ⟨front, back, rfl, rfl, hin⟩ := ih h
    refine ⟨'\\' :: c :: front, back, rfl, by simp only [List.length_cons]; omega, ?_⟩
    simpa [hslash] using ⟨Bool.eq_false_iff.mpr hc, hin⟩
  | case5 n rest =>
    cases h
    exact ⟨[quote], rest, rfl, rfl, by simpa using hquote⟩
  | case6 n c rest =>
    cases h
    exact ⟨[], c :: rest, rfl, rfl, List.forall_mem_nil _⟩
  | case7 n c rest _ _ hc hline ih =>
    obtain ⟨front, back, rfl, rfl, hin⟩ := ih h
    refine ⟨c :: front, back, rfl, by simp only [List.length_cons]; omega, ?_⟩
    exact List.forall_mem_cons.mpr ⟨Bool.eq_false_iff.mpr hline, hin⟩

end Enclosed

namespace Numeral

/-- A run and what stops it. -/
theorem run_splits (p : Char → Bool) (cs : List Char) :
    ∃ ds rest, cs = ds ++ rest ∧ run p cs = ds.length ∧ (∀ d ∈ ds, p d = true) ∧
      Follows (fun c => !p c) rest := by
  refine ⟨cs.takeWhile p, cs.dropWhile p, List.takeWhile_append_dropWhile.symm, rfl,
    fun d hd => List.all_eq_true.mp List.all_takeWhile d hd, fun c hc => ?_⟩
  have hstop := List.head?_dropWhile_not p cs
  rw [hc] at hstop
  simpa using hstop

/-- A number in base sixteen that has a point but no exponent. -/
structure Pointed (cs ds es rest : List Char) : Prop where
  split : cs.drop 2 = ds ++ '.' :: (es ++ rest)
  whole : ∀ d ∈ ds, isHex d = true
  part : ∀ e ∈ es, isHex e = true
  stops : Follows (fun c => !isHex c) rest
  plain : exponent ['p', 'P'] rest = 0

/-- How far it goes: up to the mark of an exponent, or past it if that is not the last character. -/
def pointedLength (ds es rest : List Char) : Nat :=
  2 + ds.length + 1 + es.length + if 1 < rest.length then oneOf ['p', 'P'] rest else 0

theorem Pointed.broken {cs ds es rest : List Char} (h : Pointed cs ds es rest) :
    hexadecimal cs = .broken (pointedLength ds es rest) := by
  have hpoint : isHex '.' = false := rfl
  have hdigits : run isHex (cs.drop 2) = ds.length := by
    rw [h.split]
    exact run_append h.whole fun c hc => by cases hc; rfl
  have hbehind : cs.drop (2 + ds.length) = '.' :: (es ++ rest) := by
    rw [← List.drop_drop, h.split, List.drop_left]
  have hpart : run isHex (es ++ rest) = es.length := run_append h.part h.stops
  have hrest : cs.drop (2 + ds.length + 1 + es.length) = rest := by
    rw [← List.drop_drop, ← List.drop_drop, hbehind, List.drop_one, List.tail_cons, List.drop_left]
  unfold hexadecimal pointedHex pointedLength
  simp only [hdigits, hbehind, List.head?_cons, List.drop_one, List.tail_cons, hpart, hrest,
    h.plain, Nat.lt_irrefl, if_true, if_false]
  split <;> rfl

theorem pointed_of_broken {cs : List Char} {n : Nat} (h : hexadecimal cs = .broken n) :
    ∃ ds es rest, Pointed cs ds es rest := by
  obtain ⟨ds, behind, hsplit, hdigits, hwhole, -⟩ := run_splits isHex (cs.drop 2)
  have hbehind : cs.drop (2 + ds.length) = behind := by
    rw [← List.drop_drop, hsplit, List.drop_left]
  unfold hexadecimal at h
  simp only [hdigits, hbehind] at h
  split at h
  · rename_i hhead
    obtain ⟨more, rfl⟩ := List.head?_eq_some_iff.mp hhead
    obtain ⟨es, rest, hmore, hpart, hes, hstops⟩ := run_splits isHex more
    refine ⟨ds, es, rest, hmore ▸ hsplit, hwhole, hes, hstops, ?_⟩
    have hrest : cs.drop (2 + ds.length + 1 + es.length) = rest := by
      rw [← List.drop_drop, ← List.drop_drop, hbehind, hmore, List.drop_one, List.tail_cons,
        List.drop_left]
    unfold pointedHex at h
    simp only [List.drop_one, List.tail_cons, hpart, hrest] at h
    split at h
    · cases h
    · rename_i hnone
      exact Nat.eq_zero_of_not_pos hnone
  · repeat' split at h
    all_goals cases h

theorem Pointed.length_le {cs ds es rest : List Char} (h : Pointed cs ds es rest) :
    pointedLength ds es rest ≤ cs.length := by
  have hlength := congrArg List.length h.split
  have hone := (@contained_oneOf ['p', 'P'] rfl rfl).le rest
  simp only [List.length_drop, List.length_append, List.length_cons] at hlength
  unfold pointedLength
  split <;> omega

/-- A line end behind it changes nothing but where the mark of an exponent is the last character. -/
theorem Pointed.append {cs ds es rest : List Char} (h : Pointed cs ds es rest) {sep : Char}
    (hsep : isNewline sep = true) (more : List Char) :
    Pointed (cs ++ sep :: more) ds es (rest ++ sep :: more) := by
  have htwo : 2 ≤ cs.length := by
    have hlength := congrArg List.length h.split
    simp only [List.length_drop, List.length_append, List.length_cons] at hlength
    omega
  refine ⟨?_, h.whole, h.part, fun c hc => ?_, ?_⟩
  · rw [List.drop_append_of_le_length htwo, h.split]
    simp
  · cases rest with
    | nil =>
      cases hc
      have hnot : isHex sep = false := not_newline rfl rfl hsep
      simp [hnot]
    | cons d rest => exact h.stops c hc
  · rw [(contained_exponent rfl rfl).stable rest sep more hsep]
    exact h.plain

/-- The mark of an exponent that ends its text belongs to the number once a line end follows. -/
theorem Pointed.append_mark {cs ds es : List Char} {mark : Char} (h : Pointed cs ds es [mark])
    (hmark : mark = 'p' ∨ mark = 'P') : cs.drop (pointedLength ds es [mark]) = [mark] ∧
      ∀ sep more, isNewline sep = true →
        hexadecimal (cs ++ sep :: more) = .broken (pointedLength ds es [mark] + 1) := by
  refine ⟨?_, fun sep more hsep => ?_⟩
  · have hlength : pointedLength ds es [mark] = 2 + (ds.length + (1 + es.length)) := by
      simp [pointedLength, Nat.add_assoc]
    rw [hlength, ← List.drop_drop, h.split, ← List.drop_drop, List.drop_left, ← List.drop_drop,
      List.drop_one, List.tail_cons, List.drop_left]
  · rw [(h.append hsep more).broken]
    simp [pointedLength, oneOf, hmark]

/-- Any other end of the text is read as if it went on. -/
theorem Pointed.append_other {cs ds es rest : List Char} (h : Pointed cs ds es rest)
    (hother : rest ≠ ['p'] ∧ rest ≠ ['P']) (sep : Char) (more : List Char)
    (hsep : isNewline sep = true) :
    hexadecimal (cs ++ sep :: more) = .broken (pointedLength ds es rest) := by
  rw [(h.append hsep more).broken]
  match rest with
  | [] =>
    have hnot : ['p', 'P'].contains sep = false := not_newline rfl rfl hsep
    have hsep' : oneOf ['p', 'P'] (sep :: more) = 0 := by
      simp only [oneOf, hnot, Bool.false_eq_true, if_false]
    simp [pointedLength, hsep']
  | [mark] =>
    have hmark : ¬(mark = 'p' ∨ mark = 'P') := by simpa using hother
    simp [pointedLength, oneOf, hmark]
  | d :: e :: rest => simp [pointedLength, oneOf]

/-- A broken number in front of a line end takes one character more only if that is the mark of an
exponent and the last of its text. -/
theorem read_broken {cs : List Char} {n : Nat} (h : read cs = .broken n) : n ≤ cs.length ∧
    ((∀ sep more, isNewline sep = true → read (cs ++ sep :: more) = .broken n) ∨
      ∃ mark, (mark = 'p' ∨ mark = 'P') ∧ cs.drop n = [mark] ∧
        ∀ sep more, isNewline sep = true → read (cs ++ sep :: more) = .broken (n + 1)) := by
  have hhex : ∃ c rest, cs = '0' :: c :: rest ∧ (c = 'x' ∨ c = 'X') ∧
      hexadecimal cs = .broken n := by
    unfold read at h
    split at h
    · rename_i c rest
      split at h
      · rename_i hc
        exact ⟨c, rest, rfl, hc, h⟩
      · split at h <;> cases h
    · cases h
  obtain ⟨c, cs, rfl, hc, hbroken⟩ := hhex
  have hread (more : List Char) : read ('0' :: c :: cs ++ more) =
      hexadecimal ('0' :: c :: cs ++ more) := by
    show (if c = 'x' ∨ c = 'X' then _ else _) = _
    rw [if_pos hc]
  obtain ⟨ds, es, rest, hpointed⟩ := pointed_of_broken hbroken
  obtain rfl : pointedLength ds es rest = n := by
    rw [hpointed.broken] at hbroken
    cases hbroken
    rfl
  simp only [hread]
  refine ⟨hpointed.length_le, ?_⟩
  by_cases hmark : rest = ['p'] ∨ rest = ['P']
  · rcases hmark with rfl | rfl
    · exact .inr ⟨'p', .inl rfl, hpointed.append_mark (.inl rfl)⟩
    · exact .inr ⟨'P', .inr rfl, hpointed.append_mark (.inr rfl)⟩
  · exact .inl (hpointed.append_other (not_or.mp hmark))

end Numeral

namespace Flaw

/-- Flaws of a text that may go on in the next line. -/
def isOpen : Flaw → Bool
  | .unclosedComment | .unclosedTextBlock | .textBlockOpen => true
  | _ => false

end Flaw

namespace Lexer

theorem quoted_le {quote : Char} {cs : List Char} {n : Nat} {closed : Bool}
    (hquote : isNewline quote = false) (h : Enclosed.quoted quote 1 cs = (n, closed)) :
    n ≤ cs.length + 1 := by
  obtain ⟨front, rest, rfl, rfl, -⟩ := Enclosed.quoted_inLine hquote h
  simp only [List.length_append]
  omega

theorem string_le {cs : List Char} {found : Piece} {n : Nat} (h : string cs = (found, n)) :
    n ≤ cs.length + 1 := by
  unfold string at h
  split at h <;> cases h <;> exact quoted_le rfl ‹_›

theorem character_le {cs : List Char} {found : Piece} {n : Nat}
    (h : character cs = (found, n)) : n ≤ cs.length + 1 := by
  unfold character at h
  split at h
  · rename_i hempty
    obtain ⟨rest, rfl⟩ := List.head?_eq_some_iff.mp hempty
    cases h
    simp
  · split at h <;> cases h <;> exact quoted_le rfl ‹_›

theorem operator_le (c : Char) (cs : List Char) {flaw : Flaw} {n : Nat}
    (h : operator (c :: cs) = (.flaw flaw, n)) : n ≤ (c :: cs).length := by
  unfold operator at h
  split at h
  · cases h
  · cases h
    exact Nat.succ_le_succ (Nat.zero_le _)

/-- A flawed text in front of a line end stays as it is, but for the mark of an exponent. -/
theorem flaw_separated {c : Char} {cs : List Char} {flaw : Flaw} {n : Nat}
    (h : piece c cs = (.flaw flaw, n)) (hclosed : flaw.isOpen = false) : n ≤ (c :: cs).length ∧
    ((∀ more, piece c (cs ++ '\n' :: more) = (.flaw flaw, n)) ∨
      ∃ mark, (mark = 'p' ∨ mark = 'P') ∧ (c :: cs).drop n = [mark] ∧ c.isDigit = true ∧
        flaw = .illegalChar ∧ ∀ more, piece c (cs ++ '\n' :: more) = (.flaw flaw, n + 1)) := by
  have hsep : isNewline '\n' = true := rfl
  by_cases hskip : isSkipped c = true
  · rw [piece_blank hskip] at h
    cases h
  by_cases hstart : Unicode.isIdentifierStart c = true
  · rw [piece_wordStart hskip hstart] at h
    cases h
  by_cases hdigit : c.isDigit = true
  · have hnumber := piece_digit hskip hstart hdigit
    have hbroken {m : Nat} {more : List Char} (hread : Numeral.read (c :: more) = .broken m) :
        piece c more = (.flaw .illegalChar, m) := by
      rw [hnumber]
      unfold number
      rw [hread]
    rw [hnumber] at h
    unfold number at h
    split at h
    · cases h
    · rename_i hread
      cases h
      obtain ⟨hle, hsame | ⟨mark, hmark, hlast, hlonger⟩⟩ := Numeral.read_broken hread
      · exact ⟨hle, .inl fun more => hbroken (hsame '\n' more hsep)⟩
      · exact ⟨hle, .inr ⟨mark, hmark, hlast, hdigit, rfl,
          fun more => hbroken (hlonger '\n' more hsep)⟩⟩
  unfold piece at h
  rw [if_neg hskip, if_neg hstart, if_neg hdigit] at h
  split at h
  · -- Both flaws of a text block are open.
    unfold textBlock at h
    repeat' split at h
    all_goals
      cases h
      try cases hclosed
  · rename_i hblock
    exact ⟨string_le h, .inl fun more => (piece_string_append hblock '\n' more hsep).trans h⟩
  · exact ⟨character_le h, .inl fun more => (stable_character cs '\n' more hsep).trans h⟩
  · cases h
  · unfold comment at h
    repeat' split at h
    all_goals
      cases h
      try cases hclosed
  · rename_i d rest
    split at h
    · cases h
    · rename_i hd
      refine ⟨operator_le _ _ h, .inl fun more => ?_⟩
      rw [piece_operator_append hskip hstart hdigit (by decide) nofun ?_ '\n' more hsep]
      · exact (stable_operator _ '\n' more hsep).trans h
      · rintro - e ⟨⟩
        exact Bool.eq_false_iff.mpr hd
  · rename_i hquote hapostrophe _ hline hcomment hpoint
    refine ⟨operator_le _ _ h, .inl fun more => ?_⟩
    rw [piece_operator_append hskip hstart hdigit ⟨hquote, hapostrophe⟩ (fun hc d hd => ?_)
      (fun hc d hd => ?_) '\n' more hsep]
    · exact (stable_operator _ '\n' more hsep).trans h
    · obtain ⟨rest, rfl⟩ := List.head?_eq_some_iff.mp hd
      exact ⟨fun hd => hline rest hc (hd ▸ rfl), fun hd => hcomment rest hc (hd ▸ rfl)⟩
    · obtain ⟨rest, rfl⟩ := List.head?_eq_some_iff.mp hd
      exact (hpoint d rest hc rfl).elim

end Lexer

/-- The mark of an exponent, read as a name, right behind a broken number. -/
structure Hangs (f : FlawedText) (t : Token) : Prop where
  flaw : f.flaw = .illegalChar
  number : f.text.toList.head?.any Char.isDigit = true
  name : t.kind = .identifier
  mark : t.text = "p" ∨ t.text = "P"
  behind : t.start = f.stop

/-- The flawed text with the token behind it. -/
def FlawedText.upTo (f : FlawedText) (t : Token) : FlawedText :=
  { f with text := f.text ++ t.text, stop := t.stop }

/-- The items of a text as they are with a line end behind it: the same, but if there is such a mark
at the end it is part of the number. -/
inductive Ended : List Item → List Item → Prop
  | same (items : List Item) : Ended items items
  | mark {f : FlawedText} {t : Token} (before : List Item) (hangs : Hangs f t) :
      Ended (before ++ [.flawed f, .token t]) (before ++ [.flawed (f.upTo t)])

theorem Ended.append {items items' : List Item} (h : Ended items items') (before : List Item) :
    Ended (before ++ items) (before ++ items') := by
  cases h with
  | same => exact .same _
  | mark inner hangs =>
    rw [← List.append_assoc, ← List.append_assoc]
    exact .mark (before ++ inner) hangs

namespace Lexer

theorem items_mark {fuel start : Nat} {mark : Char} (hfuel : 0 < fuel)
    (hmark : mark = 'p' ∨ mark = 'P') : items piece false fuel start none [mark] =
      [.token ⟨.identifier, String.ofList [mark], start, start + byteLength [mark], none⟩] := by
  obtain ⟨fuel, rfl⟩ := Nat.exists_eq_succ_of_ne_zero (Nat.pos_iff_ne_zero.mp hfuel)
  have hpiece : piece mark [] = (.token .identifier, 1) := by
    rcases hmark with rfl | rfl <;> decide
  rw [items_cons hpiece]
  cases fuel <;> rfl

/-- With a line end behind them the characters have these items, and what comes next has its own. -/
def Holds (next : Cutter) (start : Nat) (cs : List Char) (held : List Item) : Prop :=
  ∀ more fuel, cs.length + (more.length + 1) ≤ fuel →
    items next false fuel start none (cs ++ '\n' :: more) =
      held ++ items next false more.length (start + byteLength cs + 1) none more

theorem holds_nil (start : Nat) : Holds piece start [] [] := fun _ _ hfuel =>
  items_newline (Nat.le_trans (Nat.le_add_left ..) hfuel)

section Pieces

variable {next : Cutter} {c : Char} {cs : List Char} {found : Piece} {n : Nat} {start : Nat}
  {held : List Item}

/-- A piece that is found again, and then the rest of the line. -/
theorem Holds.cons (hpos : 0 < n) (hle : n ≤ (c :: cs).length)
    (hmore : ∀ more, next c (cs ++ '\n' :: more) = (found, n))
    (h : Holds next (start + byteLength ((c :: cs).take n)) ((c :: cs).drop n) held) :
    Holds next start (c :: cs) ((found.item? start ((c :: cs).take n)).toList ++ held) := by
  intro more fuel hfuel
  obtain ⟨fuel, rfl⟩ := Nat.exists_eq_succ_of_ne_zero (Nat.pos_iff_ne_zero.mp
    (Nat.lt_of_lt_of_le (Nat.succ_pos _) hfuel))
  have hlength : ((c :: cs).drop n).length = (c :: cs).length - n := List.length_drop
  have hbytes : start + byteLength (c :: cs) = start + byteLength ((c :: cs).take n) +
      byteLength ((c :: cs).drop n) := by
    rw [Nat.add_assoc, ← byteLength_append, List.take_append_drop]
  rw [List.cons_append, items_cons (hmore more), ← List.cons_append,
    List.take_append_of_le_length hle, List.drop_append_of_le_length hle, h more fuel (by omega),
    hbytes, List.append_assoc]

/-- A piece that goes on to the end of the line. -/
theorem holds_whole (hwhole : (c :: cs).length = n)
    (hmore : ∀ more, piece c (cs ++ '\n' :: more) = (found, n)) :
    Holds piece start (c :: cs) (found.item? start (c :: cs)).toList := by
  subst hwhole
  have hend : Holds piece (start + byteLength ((c :: cs).take (c :: cs).length))
      ((c :: cs).drop (c :: cs).length) [] := by
    rw [List.drop_length]
    exact holds_nil _
  have hpiece := @Holds.cons piece c cs found (c :: cs).length start [] (Nat.succ_pos _)
    (Nat.le_refl _) hmore hend
  rwa [List.take_length, List.append_nil] at hpiece

/-- A broken number with the mark of an exponent behind it, and both together. -/
theorem ended_mark {mark : Char} (hpos : 0 < n) (hlast : (c :: cs).drop n = [mark])
    (hmark : mark = 'p' ∨ mark = 'P') (hdigit : c.isDigit = true) {fuel : Nat} (hfuel : 0 < fuel) :
    Ended (((Piece.flaw .illegalChar).item? start ((c :: cs).take n)).toList ++
        items piece false fuel (start + byteLength ((c :: cs).take n)) none ((c :: cs).drop n))
      ((Piece.flaw .illegalChar).item? start (c :: cs)).toList := by
  have htext : (c :: cs).take n ++ [mark] = c :: cs := by
    rw [← hlast, List.take_append_drop]
  let stop := start + byteLength ((c :: cs).take n)
  let number : FlawedText := ⟨.illegalChar, String.ofList ((c :: cs).take n), start, stop⟩
  let name : Token := ⟨.identifier, String.ofList [mark], stop, stop + byteLength [mark], none⟩
  have hhangs : Hangs number name := by
    refine ⟨rfl, ?_, rfl, ?_, rfl⟩
    · rw [String.toList_ofList, List.head?_take, if_neg (Nat.pos_iff_ne_zero.mp hpos)]
      exact hdigit
    · rcases hmark with rfl | rfl
      · exact .inl rfl
      · exact .inr rfl
  have htogether : number.upTo name =
      ⟨.illegalChar, String.ofList (c :: cs), start, start + byteLength (c :: cs)⟩ := by
    have hbytes := congrArg byteLength htext
    rw [byteLength_append] at hbytes
    have hchars := congrArg String.ofList htext
    rw [String.ofList_append] at hchars
    simp only [FlawedText.upTo, number, name, stop, hchars, Nat.add_assoc, hbytes]
  have hended := Ended.mark [] hhangs
  rw [htogether] at hended
  rw [hlast, items_mark hfuel hmark]
  exact hended

end Pieces

/-- What stands in front of a line end is lexed on its own. -/
theorem items_ended {fuel start : Nat} {cs : List Char} (hfuel : cs.length ≤ fuel)
    (hclosed : ∀ t, .flawed t ∈ items piece false fuel start none cs → t.flaw.isOpen = false) :
    ∃ held, Ended (items piece false fuel start none cs) held ∧ Holds piece start cs held := by
  induction fuel generalizing start cs with
  | zero =>
    obtain rfl := List.length_eq_zero_iff.mp (Nat.le_zero.mp hfuel)
    exact ⟨_, .same _, holds_nil start⟩
  | succ fuel ih =>
    cases cs with
    | nil => exact ⟨_, .same _, holds_nil start⟩
    | cons c cs =>
      rcases hpiece : piece c cs with ⟨found, n⟩
      have hpos := piece_pos hpiece
      have hlength : ((c :: cs).drop n).length = (c :: cs).length - n := List.length_drop
      rw [items_cons hpiece] at hclosed ⊢
      have hagain (hle : n ≤ (c :: cs).length)
          (hmore : ∀ more, piece c (cs ++ '\n' :: more) = (found, n)) :
          ∃ held, Ended ((found.item? start ((c :: cs).take n)).toList ++ items piece false fuel
              (start + byteLength ((c :: cs).take n)) none ((c :: cs).drop n)) held ∧
            Holds piece start (c :: cs) held := by
        obtain ⟨held, hended, hholds⟩ := @ih (start + byteLength ((c :: cs).take n))
          ((c :: cs).drop n) (by omega) fun t ht => hclosed t (List.mem_append_right _ ht)
        exact ⟨_, hended.append _, hholds.cons hpos hle hmore⟩
      cases found with
      | flaw flaw =>
        have hflaw : flaw.isOpen = false := hclosed _ (List.mem_append_left _ (.head _))
        obtain ⟨hle, hmore | ⟨mark, hmark, hlast, hdigit, rfl, hmore⟩⟩ :=
          flaw_separated hpiece hflaw
        · exact hagain hle hmore
        · have hone := congrArg List.length hlast
          rw [List.length_drop, List.length_singleton] at hone
          rw [List.length_cons] at hone hfuel
          exact ⟨_, ended_mark hpos hlast hmark hdigit (by omega),
            holds_whole (by rw [List.length_cons]; omega) hmore⟩
      | _ =>
        have hseparated := piece_separated hpiece rfl
        exact hagain hseparated.le fun more => hseparated.stable '\n' more rfl

theorem Holds.lines {next : Cutter} {first : String} {held : List Item}
    (h : Holds next 0 first.toList held) (second : String) :
    lexBy next false (first ++ "\n" ++ second) =
      held ++ (lexBy next false second).map (Item.shift (first ++ "\n").utf8ByteSize) := by
  have hchars : (first ++ "\n" ++ second).toList = first.toList ++ '\n' :: second.toList := by
    simp
  have hlines := h second.toList (first ++ "\n" ++ second).toList.length
    (by rw [hchars]; simp)
  unfold lexBy
  rw [← items_shift, Nat.zero_add, utf8ByteSize_newline]
  rw [Nat.zero_add] at hlines
  rw [← hlines, hchars]

/-- A literal keeps to its line, with its opening quote. -/
theorem quoted_take_inLine {quote : Char} (hquote : isNewline quote = false) {cs : List Char}
    {n : Nat} {closed : Bool} (h : Enclosed.quoted quote 1 cs = (n, closed)) :
    ∀ c ∈ (quote :: cs).take n, isNewline c = false := by
  obtain ⟨front, rest, rfl, rfl, hin⟩ := Enclosed.quoted_inLine hquote h
  rw [Nat.add_comm, List.take_succ_cons, List.take_left]
  exact List.forall_mem_cons.mpr ⟨hquote, hin⟩

/-- Flaws of a literal whose closing quote is missing. -/
theorem unclosed_cases {c : Char} {cs : List Char} {flaw : Flaw} {n : Nat}
    (h : piece c cs = (.flaw flaw, n)) (hflaw : flaw = .unclosedString ∨ flaw = .unclosedChar) :
    ∃ quote, c = quote ∧ isNewline quote = false ∧
      Enclosed.quoted quote 1 cs = (n, false) := by
  cases piece_finds h with
  | unclosedString unclosed => exact ⟨'"', rfl, rfl, unclosed⟩
  | unclosedChar unclosed => exact ⟨'\'', rfl, rfl, unclosed⟩
  | _ => rcases hflaw with hflaw | hflaw <;> cases hflaw

end Lexer

/-- A literal without its closing quote keeps to its line. -/
theorem unclosed_inLine {keepDocs : Bool} {text : String} {t : FlawedText}
    (h : .flawed t ∈ lex keepDocs text)
    (hflaw : t.flaw = .unclosedString ∨ t.flaw = .unclosedChar) :
    ∀ c ∈ t.text.toList, isNewline c = false := by
  obtain ⟨c, cs, n, hpiece, htext⟩ := Lexer.flaw_of_mem h
  obtain ⟨quote, rfl, hquote, hquoted⟩ := Lexer.unclosed_cases hpiece hflaw
  rw [htext, String.toList_ofList]
  exact Lexer.quoted_take_inLine hquote hquoted

/-- A text in front of a line end keeps its items whatever comes behind the line end, and what comes
behind it has its own, unless a comment or a text block was left open. -/
theorem lex_lines {first : String}
    (hclosed : ∀ t, .flawed t ∈ lex false first → t.flaw.isOpen = false) :
    ∃ held, Ended (lex false first) held ∧ ∀ second, lex false (first ++ "\n" ++ second) =
      held ++ (lex false second).map (Item.shift (first ++ "\n").utf8ByteSize) := by
  obtain ⟨held, hended, hholds⟩ := Lexer.items_ended (Nat.le_refl _) hclosed
  exact ⟨held, hended, hholds.lines⟩

/-- So lexing composes over line ends, unless the first text ends with the mark of an exponent that
hangs on a broken number. -/
theorem lex_composes {first : String}
    (hclosed : ∀ t, .flawed t ∈ lex false first → t.flaw.isOpen = false)
    (hfree : ∀ before f t, lex false first = before ++ [.flawed f, .token t] → ¬Hangs f t)
    (second : String) : lex false (first ++ "\n" ++ second) =
      lex false first ++ (lex false second).map (Item.shift (first ++ "\n").utf8ByteSize) := by
  obtain ⟨held, hended, hlines⟩ := lex_lines hclosed
  generalize hitems : lex false first = items at hended hfree
  cases hended with
  | same => exact hlines second
  | mark before hangs => exact absurd hangs (hfree before _ _ rfl)

example : lex false "0x1.p" = [.flawed ⟨.illegalChar, "0x1.", 0, 4⟩,
      .token ⟨.identifier, "p", 4, 5, none⟩] ∧
    lex false "0x1.p\n" = [.flawed ⟨.illegalChar, "0x1.p", 0, 5⟩] := by
  decide

end JavaSyntax
