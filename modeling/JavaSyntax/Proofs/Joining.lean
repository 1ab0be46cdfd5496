import JavaSyntax.Proofs.Lexing
import JavaSyntax.Proofs.Separating
import JavaSyntax.Proofs.Tiling

/-!
One text in the lines behind another. If the first has no flaws, its items are found where they
were, and those of the second follow, as many bytes further on as the first one and the line end
between them take up.
-/

namespace JavaSyntax

/-- The token so many bytes further on. -/
def Token.shift (bytes : Nat) (t : Token) : Token :=
  { t with start := t.start + bytes, stop := t.stop + bytes }

namespace Item

/-- The item so many bytes further on. -/
def shift (bytes : Nat) : Item → Item
  | .token t => .token (t.shift bytes)
  | .flawed t => .flawed { t with start := t.start + bytes, stop := t.stop + bytes }

theorem token?_shift (bytes : Nat) (item : Item) :
    (item.shift bytes).token? = item.token?.map (Token.shift bytes) := by
  cases item <;> rfl

theorem word?_shift (bytes : Nat) (item : Item) : (item.shift bytes).word? = item.word? := by
  cases item <;> rfl

end Item

namespace Lexer

/-- The item of a piece that is not skipped. -/
def Piece.item? (start : Nat) (text : List Char) : Piece → Option Item
  | .token kind => some (.token ⟨kind, String.ofList text, start, start + byteLength text, none⟩)
  | .flaw f => some (.flawed ⟨f, String.ofList text, start, start + byteLength text⟩)
  | _ => none

theorem items_cons {next : Cutter} {c : Char} {cs : List Char} {found : Piece} {n : Nat}
    (h : next c cs = (found, n)) (fuel start : Nat) :
    items next false (fuel + 1) start none (c :: cs) =
      (found.item? start ((c :: cs).take n)).toList ++
        items next false fuel (start + byteLength ((c :: cs).take n)) none ((c :: cs).drop n) := by
  simp only [items, h]
  cases found <;> rfl

/-- No piece is empty. -/
def Cutter.Advances (next : Cutter) : Prop :=
  ∀ {c : Char} {cs : List Char} {found : Piece} {n : Nat}, next c cs = (found, n) → 0 < n

/-- One unit of fuel for each character is enough. -/
theorem items_fuel {next : Cutter} (hnext : next.Advances) {keepDocs : Bool}
    {fuel fuel' start : Nat} {waiting : Option String} {cs : List Char} (hfuel : cs.length ≤ fuel)
    (hfuel' : cs.length ≤ fuel') :
    items next keepDocs fuel start waiting cs = items next keepDocs fuel' start waiting cs := by
  induction fuel generalizing fuel' start waiting cs with
  | zero =>
    rw [List.length_eq_zero_iff.mp (Nat.le_zero.mp hfuel)]
    cases fuel' <;> rfl
  | succ fuel ih =>
    cases cs with
    | nil => cases fuel' <;> rfl
    | cons c cs =>
      obtain ⟨fuel', rfl⟩ := Nat.exists_eq_succ_of_ne_zero (Nat.pos_iff_ne_zero.mp
        (Nat.lt_of_lt_of_le (Nat.succ_pos _) hfuel'))
      rcases hpiece : next c cs with ⟨found, n⟩
      have hpos := hnext hpiece
      have hrest (waiting : Option String) := @ih fuel'
        (start + byteLength ((c :: cs).take n)) waiting ((c :: cs).drop n)
        (by rw [List.length_drop]; omega) (by rw [List.length_drop]; omega)
      simp only [items, hpiece, hrest]

/-- The same characters further on give the same items further on. -/
theorem items_shift (next : Cutter) (keepDocs : Bool) (fuel start bytes : Nat)
    (waiting : Option String) (cs : List Char) :
    items next keepDocs fuel (start + bytes) waiting cs =
      (items next keepDocs fuel start waiting cs).map (Item.shift bytes) := by
  induction fuel generalizing start waiting cs with
  | zero => rfl
  | succ fuel ih =>
    cases cs with
    | nil => rfl
    | cons c cs =>
      rcases hpiece : next c cs with ⟨found, n⟩
      have hstop : start + bytes + byteLength ((c :: cs).take n) =
          start + byteLength ((c :: cs).take n) + bytes := Nat.add_right_comm ..
      simp only [items, hpiece, hstop, ih]
      cases found with
      | blank | comment | doc => rfl
      | token kind =>
        simp only [List.map_cons, Item.shift, Token.shift]
      | flaw flaw =>
        simp only [List.map_cons, Item.shift]

theorem items_newline {fuel start : Nat} {more : List Char} (hfuel : more.length + 1 ≤ fuel) :
    items piece false fuel start none ('\n' :: more) =
      items piece false more.length (start + 1) none more := by
  obtain ⟨fuel, rfl⟩ := Nat.exists_eq_succ_of_ne_zero (Nat.pos_iff_ne_zero.mp
    (Nat.lt_of_lt_of_le (Nat.succ_pos _) hfuel))
  have hblank : piece '\n' more = (.blank, 1) := piece_blank rfl more
  simp only [items, hblank]
  exact items_fuel piece_pos (Nat.le_of_succ_le_succ hfuel) (Nat.le_refl _)

/-- What stands in front of a line end is lexed on its own, if it has no flaws. -/
theorem items_joined {fuel fuel' start : Nat} {cs more : List Char} (hfuel : cs.length ≤ fuel)
    (hfuel' : cs.length + (more.length + 1) ≤ fuel')
    (hsound : ∀ item ∈ items piece false fuel start none cs, item.flawed? = none) :
    items piece false fuel' start none (cs ++ '\n' :: more) =
      items piece false fuel start none cs ++
        items piece false more.length (start + byteLength cs + 1) none more := by
  induction fuel generalizing fuel' start cs with
  | zero =>
    rw [List.length_eq_zero_iff.mp (Nat.le_zero.mp hfuel)]
    exact items_newline (Nat.le_trans (Nat.le_add_left ..) hfuel')
  | succ fuel ih =>
    cases cs with
    | nil => exact items_newline (Nat.le_trans (Nat.le_add_left ..) hfuel')
    | cons c cs =>
      obtain ⟨fuel', rfl⟩ := Nat.exists_eq_succ_of_ne_zero (Nat.pos_iff_ne_zero.mp
        (Nat.lt_of_lt_of_le (Nat.succ_pos _) hfuel'))
      rcases hpiece : piece c cs with ⟨found, n⟩
      have hflaw : found.isFlaw = false := by
        cases found with
        | flaw flaw =>
          simp only [items, hpiece] at hsound
          cases hsound _ List.mem_cons_self
        | _ => rfl
      have hseparated := piece_separated hpiece hflaw
      have hmore := hseparated.stable '\n' more rfl
      have hpos := piece_pos hpiece
      have hle := hseparated.le
      have hbytes : start + byteLength (c :: cs) + 1 = start + byteLength ((c :: cs).take n) +
          byteLength ((c :: cs).drop n) + 1 := by
        rw [Nat.add_assoc start (byteLength (List.take n _)), ← byteLength_append,
          List.take_append_drop]
      have hlength : ((c :: cs).drop n).length = (c :: cs).length - n := List.length_drop
      have hrest := @ih fuel' (start + byteLength ((c :: cs).take n)) ((c :: cs).drop n)
        (by omega) (by omega)
      rw [hbytes]
      simp only [items, hpiece, List.cons_append, hmore] at hsound ⊢
      rw [← List.cons_append, List.take_append_of_le_length hle,
        List.drop_append_of_le_length hle]
      cases found with
      | blank | comment | doc => exact hrest hsound
      | token kind =>
        exact congrArg _ (hrest fun item hitem => hsound item (List.mem_cons_of_mem _ hitem))
      | flaw flaw => cases hflaw

/-- A token ends with a character that is no line end. -/
theorem items_last {keepDocs : Bool} {fuel start : Nat} {waiting : Option String}
    {cs : List Char} {token : Token}
    (h : .token token ∈ items piece keepDocs fuel start waiting cs) :
    ∃ front d, token.text.toList = front ++ [d] ∧ Enclosed.isNewline d = false := by
  obtain ⟨c, cs, n, hpiece, htext⟩ := piece_of_mem h
  have hchars : token.text.toList = (c :: cs).take n := by rw [htext, String.toList_ofList]
  obtain ⟨m, rfl⟩ := Nat.exists_eq_succ_of_ne_zero (Nat.pos_iff_ne_zero.mp (piece_pos hpiece))
  have hlast := (piece_separated hpiece rfl).last _ rfl
  rcases List.eq_nil_or_concat ((c :: cs).take (m + 1)) with hnil | ⟨front, d, hsplit⟩
  · cases hnil
  · rw [List.concat_eq_append] at hsplit
    refine ⟨front, d, hchars.trans hsplit, hlast d ?_⟩
    rw [hsplit, List.getLast?_concat]
    rfl

end Lexer

theorem utf8ByteSize_newline (text : String) :
    (text ++ "\n").utf8ByteSize = byteLength text.toList + 1 := by
  rw [← byteLength_toList, String.toList_append, byteLength_append]
  rfl

theorem LexesTo.sound {keepDocs : Bool} {text : String} {words : List Word}
    (h : LexesTo keepDocs text words) : ∀ item ∈ lex keepDocs text, item.flawed? = none := by
  have hflawless : (lex keepDocs text).filterMap Item.flawed? = [] := by
    refine flawless_iff.mpr ?_
    rw [words_of_map h]
    exact h
  exact List.filterMap_eq_nil_iff.mp hflawless

section Texts

variable {first second : String} {words words' : List Word}

theorem lex_joined (h : LexesTo false first words) (second : String) :
    lex false (first ++ "\n" ++ second) =
      lex false first ++ (lex false second).map (Item.shift (first ++ "\n").utf8ByteSize) := by
  have hchars : (first ++ "\n" ++ second).toList = first.toList ++ '\n' :: second.toList := by
    simp
  have hjoined := @Lexer.items_joined first.toList.length (first ++ "\n" ++ second).toList.length 0
    first.toList second.toList (Nat.le_refl _) (by rw [hchars]; simp) h.sound
  unfold lex lexBy
  rw [← Lexer.items_shift, Nat.zero_add, utf8ByteSize_newline]
  rw [Nat.zero_add] at hjoined
  rw [← hjoined, hchars]

theorem lexesTo_joined (h : LexesTo false first words) (h' : LexesTo false second words') :
    LexesTo false (first ++ "\n" ++ second) (words ++ words') := by
  have hfirst : (lex false first).map Item.word? = words.map some := h
  have hsecond : (lex false second).map Item.word? = words'.map some := h'
  have hwords : Item.word? ∘ Item.shift (first ++ "\n").utf8ByteSize = Item.word? :=
    funext fun item => item.word?_shift _
  rw [LexesTo, lex_joined h, List.map_append, List.map_map, hwords, hfirst, hsecond,
    List.map_append]

theorem tokensOf_joined (h : LexesTo false first words) (second : String) :
    tokensOf (first ++ "\n" ++ second) =
      tokensOf first ++ (tokensOf second).map (Token.shift (first ++ "\n").utf8ByteSize) := by
  have htokens : Item.token? ∘ Item.shift (first ++ "\n").utf8ByteSize =
      Option.map (Token.shift (first ++ "\n").utf8ByteSize) ∘ Item.token? :=
    funext fun item => item.token?_shift _
  unfold tokensOf
  rw [lex_joined h, List.filterMap_append, List.filterMap_map, htokens, List.map_filterMap]
  rfl

end Texts

namespace Layout

theorem symbolsFrom_shift (bytes : Nat) (last : Option Nat) (tokens : List Token) :
    symbolsFrom (last.map (· + bytes)) (tokens.map (Token.shift bytes)) =
      symbolsFrom last tokens := by
  induction tokens generalizing last with
  | nil => rfl
  | cons t rest ih =>
    have hjoined : (last.map (· + bytes) == some (t.start + bytes)) = (last == some t.start) := by
      cases last <;> simp
    have hrest := ih (some t.stop)
    simp only [List.map_cons, symbolsFrom, Token.shift, hjoined]
    exact congrArg _ hrest

/-- Where there is a gap between two tokens, what is in front of it decides nothing behind it. -/
theorem symbolsFrom_append {last : Option Nat} {ts us : List Token} {gap : Nat}
    (hlast : ∀ stop ∈ last, stop < gap) (hts : ∀ t ∈ ts, t.stop < gap)
    (hus : ∀ u ∈ us, gap ≤ u.start) :
    symbolsFrom last (ts ++ us) = symbolsFrom last ts ++ symbolsFrom none us := by
  induction ts generalizing last with
  | nil =>
    cases us with
    | nil => rfl
    | cons u us =>
      have hgap : (last == some u.start) = false := by
        cases last with
        | none => rfl
        | some stop =>
          have hlt := Nat.lt_of_lt_of_le (hlast stop rfl) (hus u List.mem_cons_self)
          simpa using Nat.ne_of_lt hlt
      simp [symbolsFrom, hgap]
  | cons t rest ih =>
    refine congrArg (_ :: ·) (ih ?_ fun u hu => hts u (List.mem_cons_of_mem t hu))
    rintro stop ⟨⟩
    exact hts t List.mem_cons_self

end Layout

/-- The tokens of a text lie in it. -/
theorem tokensOf_lie {text : String} {t : Token} (h : t ∈ tokensOf text) :
    ∃ front back, text.toList = front ++ t.text.toList ++ back ∧ t.start = byteLength front ∧
      t.stop = t.start + byteLength t.text.toList :=
  (tiled_ofItems false (.ofText Source.unnamed text)).cut t h

theorem stop_le_of_mem {text : String} {t : Token} (h : t ∈ tokensOf text) :
    t.stop ≤ text.utf8ByteSize := by
  obtain ⟨front, back, htext, hstart, hstop⟩ := tokensOf_lie h
  rw [← byteLength_toList, htext, byteLength_append, byteLength_append]
  omega

/-- The symbols of two texts with a line end between them are those of the one and of the other. -/
theorem symbols_joined {first : String} {words : List Word} (h : LexesTo false first words)
    (second : String) : Layout.symbolsFrom none (tokensOf (first ++ "\n" ++ second)) =
      Layout.symbolsFrom none (tokensOf first) ++ Layout.symbolsFrom none (tokensOf second) := by
  rw [tokensOf_joined h, @Layout.symbolsFrom_append none _ _ (first ++ "\n").utf8ByteSize nofun]
  · exact congrArg _ (Layout.symbolsFrom_shift (first ++ "\n").utf8ByteSize none (tokensOf second))
  · intro t ht
    rw [utf8ByteSize_newline, byteLength_toList]
    exact Nat.lt_succ_of_le (stop_le_of_mem ht)
  · intro u hu
    obtain ⟨t, -, rfl⟩ := List.mem_map.mp hu
    exact Nat.le_add_left ..

end JavaSyntax
