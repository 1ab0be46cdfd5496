import JavaSyntax.Proofs.Spans

/-!
The lexer loses no character and reads none twice. The items of a text are stretches of it, each as
long as its span, and what lies between them is blanks and whole comments. A piece is never empty,
so the fuel of the lexer, one for each character, is always enough.
-/

namespace JavaSyntax

namespace Lexer

/-- A blank or a whole comment, given what follows it. The first `*/` ends a comment; one that
starts with a further star is a documentation comment. -/
inductive Skipped (after : List Char) : List Char → Prop
  | blank {c : Char} (skipped : isSkipped c = true) : Skipped after [c]
  | line {body : List Char} (inLine : ∀ c ∈ body, Enclosed.isNewline c = false)
      (ended : after.head?.all Enclosed.isNewline = true) : Skipped after ('/' :: '/' :: body)
  | block {body : List Char} (first : ¬['*', '/'] <:+: body ++ ['*']) :
      Skipped after ('/' :: '*' :: body ++ ['*', '/'])

/-- Any number of blanks and whole comments. -/
inductive Gap (after : List Char) : List Char → Prop
  | nil : Gap after []
  | cons {text gap : List Char} (first : Skipped (gap ++ after) text) (rest : Gap after gap) :
      Gap after (text ++ gap)

/-- From a byte offset on the characters are the items with a gap in front of each and one at the
end. -/
inductive Tiles : Nat → List Item → List Char → Prop
  | last {offset : Nat} {gap : List Char} (skipped : Gap [] gap) : Tiles offset [] gap
  | item {offset : Nat} {gap rest : List Char} {item : Item} {items : List Item}
      (skipped : Gap (item.text.toList ++ rest) gap) (taking : item.text ≠ "")
      (start : item.start = offset + byteLength gap)
      (stop : item.stop = item.start + byteLength item.text.toList)
      (others : Tiles item.stop items rest) :
      Tiles offset (item :: items) (gap ++ (item.text.toList ++ rest))

/-! Pieces between items. -/

def Piece.isSkipped : Piece → Bool
  | .blank | .comment | .doc _ => true
  | .token _ | .flaw _ => false

theorem skipped_line (cs : List Char) :
    Skipped (cs.drop (Enclosed.line cs)) ('/' :: '/' :: cs.take (Enclosed.line cs)) := by
  let inLine := fun c => !Enclosed.isNewline c
  have htake : cs.take (Enclosed.line cs) = cs.takeWhile inLine :=
    (List.prefix_iff_eq_take.mp (List.takeWhile_prefix inLine)).symm
  have hdrop : cs.drop (Enclosed.line cs) = cs.dropWhile inLine := by
    apply List.append_cancel_left
    rw [List.takeWhile_append_dropWhile, ← htake, List.take_append_drop]
  rw [htake, hdrop]
  refine .line (fun c hc => ?_) ?_
  · simpa [inLine] using List.all_eq_true.mp List.all_takeWhile c hc
  · have hhead := List.head?_dropWhile_not inLine cs
    cases hrest : cs.dropWhile inLine with
    | nil => rfl
    | cons d ds => simpa [hrest, inLine] using hhead

theorem skipped_block {body : List Char} (rest : List Char) {n : Nat}
    (hfirst : ¬['*', '/'] <:+: body ++ ['*']) (hn : n = body.length + 4) :
    Skipped (('/' :: '*' :: (body ++ '*' :: '/' :: rest)).drop n)
      (('/' :: '*' :: (body ++ '*' :: '/' :: rest)).take n) := by
  have hwhole : '/' :: '*' :: (body ++ '*' :: '/' :: rest) =
      ('/' :: '*' :: body ++ ['*', '/']) ++ rest := by simp
  have hlength : n = ('/' :: '*' :: body ++ ['*', '/']).length := by simp [hn]
  rw [hwhole, hlength, List.take_left, List.drop_left]
  exact .block hfirst

/-- The star that opens documentation closes nothing, as no slash is right behind it. -/
theorem skipped_doc {body : List Char} {n : Nat} (opens : ∀ rest, body ≠ '/' :: rest)
    (closed : Enclosed.comment 3 body = some n) :
    Skipped (('/' :: '*' :: '*' :: body).drop n) (('/' :: '*' :: '*' :: body).take n) := by
  obtain ⟨inside, rest, rfl, rfl, hfirst⟩ := comment_takes closed
  refine @skipped_block ('*' :: inside) rest _ (fun hinfix => ?_) ?_
  · rcases List.infix_cons_iff.mp hinfix with hprefix | hinfix
    · cases inside with
      | nil => simp at hprefix
      | cons d inside =>
        obtain ⟨rfl, -⟩ := List.cons_prefix_cons.mp (List.cons_prefix_cons.mp hprefix).2
        exact opens _ rfl
    · exact hfirst hinfix
  · simp only [List.length_cons]
    omega

/-- Blanks and comments are the pieces that give no item. -/
theorem skipped_of_piece {c : Char} {cs : List Char} {found : Piece} {n : Nat}
    (h : piece c cs = (found, n)) (hskip : found.isSkipped = true) :
    Skipped ((c :: cs).drop n) ((c :: cs).take n) := by
  cases piece_finds h with
  | blank skipped => exact .blank skipped
  | lineComment rest =>
    rw [Nat.add_comm]
    exact skipped_line rest
  | emptyComment rest => exact @skipped_block [] rest _ (by decide) rfl
  | doc opens closed => exact skipped_doc opens closed
  | comment closed =>
    obtain ⟨inside, rest, rfl, rfl, hfirst⟩ := comment_takes closed
    exact skipped_block rest hfirst (by omega)
  | _ => cases hskip

theorem broken_pos {cs : List Char} {n : Nat} (h : Numeral.read cs = .broken n) : 0 < n := by
  unfold Numeral.read at h
  split at h
  · split at h
    · unfold Numeral.hexadecimal Numeral.pointedHex at h
      dsimp only at h
      repeat' split at h
      all_goals cases h
      all_goals omega
    · split at h <;> cases h
  · cases h

theorem flaw_pos {c : Char} {cs : List Char} {flaw : Flaw} {n : Nat}
    (h : piece c cs = (.flaw flaw, n)) : 0 < n := by
  cases piece_finds h with
  | brokenNumber _ whole => exact broken_pos whole
  | unclosedTextBlock _ unclosed => exact Nat.lt_of_lt_of_le (by decide) (le_of_block unclosed)
  | textBlockOpen => exact Nat.add_pos_left (by decide) _
  | unclosedString unclosed | unclosedChar unclosed => exact le_of_quoted unclosed
  | emptyChar => exact Nat.two_pos
  | unclosedComment => exact Nat.add_pos_left Nat.two_pos _
  | illegalChar => exact Nat.one_pos

theorem Skipped.ne_nil {after text : List Char} (h : Skipped after text) : text ≠ [] := by
  cases h <;> exact List.cons_ne_nil _ _

theorem piece_pos {c : Char} {cs : List Char} {found : Piece} {n : Nat}
    (h : piece c cs = (found, n)) : 0 < n := by
  have hskipped (hskip : found.isSkipped = true) : 0 < n := by
    rcases Nat.eq_zero_or_pos n with rfl | hpos
    · exact absurd rfl (skipped_of_piece h hskip).ne_nil
    · exact hpos
  cases found with
  | blank | comment | doc => exact hskipped rfl
  | token kind => exact (piece_token h).1
  | flaw flaw => exact flaw_pos h

/-! Items between gaps. -/

theorem Tiles.skip {offset : Nat} {items : List Item} {text cs : List Char}
    (h : Tiles (offset + byteLength text) items cs) (hskipped : Skipped cs text) :
    Tiles offset items (text ++ cs) := by
  cases h with
  | last gap => exact .last (.cons (by rwa [List.append_nil]) gap)
  | item gap taking start stop others =>
    rw [← List.append_assoc]
    exact .item (.cons hskipped gap) taking (by rw [start, byteLength_append, Nat.add_assoc]) stop
      others

/-- An item with no gap in front of it. -/
theorem Tiles.cons {offset : Nat} {item : Item} {items : List Item} {text rest : List Char}
    (htext : item.text = String.ofList text) (htaking : text ≠ []) (hstart : item.start = offset)
    (hstop : item.stop = offset + byteLength text)
    (h : Tiles (offset + byteLength text) items rest) :
    Tiles offset (item :: items) (text ++ rest) := by
  have hchars : text = item.text.toList := by rw [htext, String.toList_ofList]
  have hne : item.text ≠ "" := fun hempty => htaking (by rw [hchars, hempty]; rfl)
  rw [← hstop] at h
  rw [hchars]
  exact .item .nil hne hstart (by rw [hstop, hstart, hchars]) h

/-- Each piece of the text is passed over or becomes an item. -/
theorem items_tile (keepDocs : Bool) (fuel offset : Nat) (waiting : Option String)
    (cs : List Char) (hfuel : cs.length ≤ fuel) :
    Tiles offset (items piece keepDocs fuel offset waiting cs) cs := by
  induction fuel generalizing offset waiting cs with
  | zero =>
    rw [List.length_eq_zero_iff.mp (Nat.le_zero.mp hfuel)]
    exact .last .nil
  | succ fuel ih =>
    cases cs with
    | nil => exact .last .nil
    | cons c cs =>
      rcases hpiece : piece c cs with ⟨found, n⟩
      have hpos := piece_pos hpiece
      have hrest (waiting : Option String) :
          Tiles (offset + byteLength ((c :: cs).take n)) (items piece keepDocs fuel
            (offset + byteLength ((c :: cs).take n)) waiting ((c :: cs).drop n))
            ((c :: cs).drop n) := by
        refine ih _ _ _ ?_
        rw [List.length_drop]
        omega
      have htaking : (c :: cs).take n ≠ [] := by
        obtain ⟨m, rfl⟩ := Nat.exists_eq_succ_of_ne_zero (Nat.pos_iff_ne_zero.mp hpos)
        exact List.cons_ne_nil _ _
      simp only [items, hpiece]
      conv => rhs; rw [← List.take_append_drop n (c :: cs)]
      cases found with
      | blank | comment | doc => exact (hrest _).skip (skipped_of_piece hpiece rfl)
      | token | flaw => exact (hrest _).cons rfl htaking rfl rfl

end Lexer

/-! The text of a span. -/

theorem dropBytes?_append (front back : List Char) :
    dropBytes? (byteLength front) (front ++ back) = some back := by
  induction front with
  | nil => cases back <;> rfl
  | cons c front ih =>
    obtain ⟨n, hn⟩ := Nat.exists_eq_succ_of_ne_zero (Nat.pos_iff_ne_zero.mp
      (Nat.add_pos_left c.utf8Size_pos (byteLength front)))
    rw [byteLength, hn, List.cons_append, dropBytes?, if_pos (by omega), ← ih]
    congr 1
    omega

theorem takeBytes?_append (front back : List Char) :
    takeBytes? (byteLength front) (front ++ back) = some front := by
  induction front with
  | nil => cases back <;> rfl
  | cons c front ih =>
    obtain ⟨n, hn⟩ := Nat.exists_eq_succ_of_ne_zero (Nat.pos_iff_ne_zero.mp
      (Nat.add_pos_left c.utf8Size_pos (byteLength front)))
    have hrest : n + 1 - c.utf8Size = byteLength front := by omega
    rw [byteLength, hn, List.cons_append, takeBytes?, if_pos (by omega), hrest, ih]
    rfl

/-- The text of a span is what stands between its ends. -/
theorem Source.textIn_spanOf {source : Source} {front text back : List Char}
    (h : source.text.toList = front ++ text ++ back) :
    (source.spanOf (byteLength front) (byteLength front + byteLength text)).textIn source.text =
      String.ofList text := by
  have hstart : source.Boundary (byteLength front) := ⟨front, text ++ back, by simp [h], rfl⟩
  have hstop : source.Boundary (byteLength front + byteLength text) :=
    ⟨front ++ text, back, h, (byteLength_append ..).symm⟩
  have hsize := hstop.le_size
  rw [Source.size, ← byteLength_toList] at hsize
  unfold Span.textIn
  simp only [spanOf, hstart.offset_eq, hstop.offset_eq, Nat.min_eq_left hsize]
  rw [if_neg (by omega), h, List.append_assoc, dropBytes?_append, Nat.add_sub_cancel_left,
    Option.bind_some, takeBytes?_append]
  rfl

theorem Lexer.Tiles.taking {offset : Nat} {items : List Item} {cs : List Char}
    (h : Tiles offset items cs) {item : Item} (hitem : item ∈ items) :
    item.start < item.stop := by
  induction h with
  | last => cases hitem
  | @item offset gap rest first items _ taking _ stop _ ih =>
    rcases List.mem_cons.mp hitem with rfl | hitem
    · have hpos : 0 < byteLength item.text.toList := by
        cases htext : item.text.toList with
        | nil => exact absurd (String.toList_eq_nil_iff.mp htext) taking
        | cons c cs => exact Nat.add_pos_left c.utf8Size_pos _
      omega
    · exact ih hitem

/-- The items of a text tile it: each takes at least one character and is the text of its span,
they stand one behind the other on character boundaries, and the gaps between them are blanks and
whole comments. -/
theorem lex_tiles (keepDocs : Bool) (source : Source) :
    let items := lex keepDocs source.text
    Lexer.Tiles 0 items source.text.toList ∧
    items.Pairwise (fun a b => a.stop ≤ b.start) ∧
    ∀ item ∈ items, item.start < item.stop ∧ source.Boundary item.start ∧
      source.Boundary item.stop ∧
      (source.spanOf item.start item.stop).textIn source.text = item.text := by
  intro items
  have htiles : Lexer.Tiles 0 items source.text.toList :=
    Lexer.items_tile keepDocs _ 0 none _ (Nat.le_refl _)
  refine ⟨htiles, Lexer.items_ordered keepDocs _ none [] _, fun item hitem => ?_⟩
  obtain ⟨front, back, htext, hstart, hstop, _⟩ := (Lexer.items_lie [] hitem).2
  refine ⟨htiles.taking hitem, ⟨front, item.text.toList ++ back, ?_, hstart⟩,
    ⟨front ++ item.text.toList, back, htext, ?_⟩, ?_⟩
  · rw [← List.append_assoc]
    exact htext
  · rw [byteLength_append, hstop, hstart]
  · rw [hstop, hstart, Source.textIn_spanOf htext, String.ofList_toList]

end JavaSyntax
