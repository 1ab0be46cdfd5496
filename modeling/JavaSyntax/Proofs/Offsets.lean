import JavaSyntax.Proofs.ReadUnits
import JavaSyntax.Proofs.RoundTrip
import JavaSyntax.Proofs.Separating

/-!
Where the lexer puts what it finds. The items of a text are stretches of it that follow one another,
so that the tokens of a session tile its source; and a location is the place of its own offset.
-/

namespace JavaSyntax

/-! Lines and locations. -/

namespace Line

theorem flatMap_all_splitFrom (seen cs : List Char) :
    (splitFrom seen cs).flatMap all = seen.reverse ++ cs := by
  fun_induction splitFrom seen cs with
  | case1 seen => simp [all, LineEnd.chars]
  | case2 seen rest ih => simp [all, LineEnd.chars, ih]
  | case3 seen rest _ ih => simp [all, LineEnd.chars, ih]
  | case4 seen rest ih => simp [all, LineEnd.chars, ih]
  | case5 seen c rest _ _ _ ih => simp [ih]

theorem splitFrom_ne_nil (seen cs : List Char) : splitFrom seen cs ≠ [] := by
  fun_induction splitFrom seen cs <;> simp_all

end Line

theorem offset_locateFrom {number start offset : Nat} {lines : List Line} (hlines : lines ≠ [])
    (hle : start ≤ offset) : (locateFrom number start offset lines).offset =
      min offset (start + byteLength (lines.flatMap Line.all)) := by
  fun_induction locateFrom number start offset lines with
  | case1 => exact absurd rfl hlines
  | case2 number start line d =>
    simp only [d, List.flatMap_cons, List.flatMap_nil, List.append_nil]
    omega
  | case3 number start line next rest hlt =>
    simp only [List.flatMap_cons, byteLength_append] at hlt ⊢
    omega
  | case4 number start line next rest hge ih =>
    rw [ih nofun (Nat.le_of_not_lt hge)]
    simp only [List.flatMap_cons, byteLength_append, Nat.add_assoc]

namespace Source

/-- A location stands at the offset it was asked for, or at the end of the text. -/
theorem offset_locationAt (source : Source) (offset : Nat) :
    (source.locationAt offset).offset = min offset source.size := by
  unfold locationAt
  rw [source.lines_eq, Line.split, offset_locateFrom (Line.splitFrom_ne_nil _ _) (Nat.zero_le _),
    Line.flatMap_all_splitFrom, List.reverse_nil, List.nil_append, byteLength_toList, Nat.zero_add]
  rfl

end Source

/-! The items of a text. -/

namespace Item

def text : Item → String
  | .token t => t.text
  | .flawed t => t.text

def start : Item → Nat
  | .token t => t.start
  | .flawed t => t.start

def stop : Item → Nat
  | .token t => t.stop
  | .flawed t => t.stop

/-- The piece that an item was made of. -/
def piece : Item → Lexer.Piece
  | .token t => .token t.kind
  | .flawed t => .flaw t.flaw

/-- The item is a stretch of these characters, and no line end reaches into it. -/
def LiesIn (item : Item) (cs : List Char) : Prop :=
  ∃ front back, cs = front ++ item.text.toList ++ back ∧ item.start = byteLength front ∧
    item.stop = item.start + byteLength item.text.toList ∧
    (item.text.toList ++ back).head? ≠ some '\n'

end Item

namespace Lexer

/-- One piece is cut off at a time, from which there is at most one item. -/
theorem items_step (next : Cutter) (keepDocs : Bool) (fuel start : Nat) (waiting : Option String)
    (c : Char) (cs : List Char) : ∃ (n : Nat) (later : Option String) (new : Option Item),
      items next keepDocs (fuel + 1) start waiting (c :: cs) = new.toList ++
        items next keepDocs fuel (start + byteLength ((c :: cs).take n)) later
          ((c :: cs).drop n) ∧
      ∀ item ∈ new, next c cs = (item.piece, n) ∧
        item.text = String.ofList ((c :: cs).take n) ∧ item.start = start ∧
        item.stop = start + byteLength ((c :: cs).take n) := by
  rcases hpiece : next c cs with ⟨found, n⟩
  simp only [items, hpiece]
  cases found with
  | blank => exact ⟨n, waiting, none, rfl, fun _ h => by cases h⟩
  | comment => exact ⟨n, waiting, none, rfl, fun _ h => by cases h⟩
  | doc body => exact ⟨n, _, none, rfl, fun _ h => by cases h⟩
  | token kind =>
    refine ⟨n, none, some (.token _), rfl, ?_⟩
    rintro item ⟨⟩
    exact ⟨rfl, rfl, rfl, rfl⟩
  | flaw flaw =>
    refine ⟨n, waiting, some (.flawed _), rfl, ?_⟩
    rintro item ⟨⟩
    exact ⟨rfl, rfl, rfl, rfl⟩

theorem ne_newline_of_item {c : Char} {cs : List Char} {item : Item} {n : Nat}
    (h : piece c cs = (item.piece, n)) : c ≠ '\n' := by
  rintro rfl
  have hblank : Piece.blank = item.piece := congrArg Prod.fst h
  cases item <;> cases hblank

theorem items_lie {keepDocs : Bool} {fuel : Nat} {waiting : Option String} {cs : List Char}
    {item : Item} (before : List Char)
    (h : item ∈ items piece keepDocs fuel (byteLength before) waiting cs) :
    byteLength before ≤ item.start ∧ item.LiesIn (before ++ cs) := by
  induction fuel generalizing before waiting cs with
  | zero => cases h
  | succ fuel ih =>
    cases cs with
    | nil => cases h
    | cons c cs =>
      obtain ⟨n, later, new, hitems, hnew⟩ :=
        items_step piece keepDocs fuel (byteLength before) waiting c cs
      rw [hitems, ← byteLength_append] at h
      rcases List.mem_append.mp h with h | h
      · obtain ⟨hpiece, htext, hstart, hstop⟩ := hnew item (Option.mem_toList.mp h)
        refine ⟨Nat.le_of_eq hstart.symm, before, (c :: cs).drop n, ?_, hstart, ?_, ?_⟩
        · rw [htext, String.toList_ofList, List.append_assoc, List.take_append_drop]
        · rw [htext, String.toList_ofList, hstop, hstart]
        · rw [htext, String.toList_ofList, List.take_append_drop]
          exact fun hhead => ne_newline_of_item hpiece (Option.some.inj hhead)
      · obtain ⟨hle, hlies⟩ := ih _ h
        rw [List.append_assoc, List.take_append_drop] at hlies
        rw [byteLength_append] at hle
        exact ⟨by omega, hlies⟩

theorem items_ordered (keepDocs : Bool) (fuel : Nat) (waiting : Option String)
    (before cs : List Char) : (items piece keepDocs fuel (byteLength before) waiting cs).Pairwise
      fun a b => a.stop ≤ b.start := by
  induction fuel generalizing before waiting cs with
  | zero => exact .nil
  | succ fuel ih =>
    cases cs with
    | nil => exact .nil
    | cons c cs =>
      obtain ⟨n, later, new, hitems, hnew⟩ :=
        items_step piece keepDocs fuel (byteLength before) waiting c cs
      rw [hitems, ← byteLength_append]
      refine List.pairwise_append.mpr ⟨?_, ih _ _ _, fun a ha b hb => ?_⟩
      · cases new with
        | none => exact .nil
        | some item => exact List.pairwise_singleton _ _
      · obtain ⟨_, _, _, hstop⟩ := hnew a (Option.mem_toList.mp ha)
        have hle := (items_lie _ hb).1
        rw [byteLength_append] at hle
        omega

section Members

variable {next : Cutter} {keepDocs : Bool} {fuel start : Nat} {waiting : Option String}
  {cs : List Char}

theorem piece_of_item {item : Item} (h : item ∈ items next keepDocs fuel start waiting cs) :
    ∃ d ds n, next d ds = (item.piece, n) ∧ item.text = String.ofList ((d :: ds).take n) := by
  induction fuel generalizing start waiting cs with
  | zero => cases h
  | succ fuel ih =>
    cases cs with
    | nil => cases h
    | cons c cs =>
      obtain ⟨n, later, new, hitems, hnew⟩ := items_step next keepDocs fuel start waiting c cs
      rw [hitems] at h
      rcases List.mem_append.mp h with h | h
      · obtain ⟨hpiece, htext, _, _⟩ := hnew item (Option.mem_toList.mp h)
        exact ⟨c, cs, n, hpiece, htext⟩
      · exact ih h

theorem piece_of_mem {token : Token}
    (h : .token token ∈ items next keepDocs fuel start waiting cs) :
    ∃ d ds n, next d ds = (.token token.kind, n) ∧
      token.text = String.ofList ((d :: ds).take n) :=
  piece_of_item h

theorem flaw_of_mem {flawed : FlawedText}
    (h : .flawed flawed ∈ items next keepDocs fuel start waiting cs) :
    ∃ d ds n, next d ds = (.flaw flawed.flaw, n) ∧
      flawed.text = String.ofList ((d :: ds).take n) :=
  piece_of_item h

end Members

/-! What tokens are made of. -/

theorem le_of_quoted {quote : Char} {n m : Nat} {closed : Bool} {cs : List Char}
    (h : Enclosed.quoted quote n cs = (m, closed)) : n ≤ m := by
  fun_induction Enclosed.quoted quote n cs <;> grind

theorem le_of_block {n m : Nat} {closed : Bool} {cs : List Char}
    (h : Enclosed.block n cs = (m, closed)) : n ≤ m := by
  fun_induction Enclosed.block n cs <;> grind

theorem run_pos {p : Char → Bool} {c : Char} (cs : List Char) (h : p c = true) :
    0 < Numeral.run p (c :: cs) := by
  unfold Numeral.run
  rw [List.takeWhile_cons_of_pos h]
  exact Nat.succ_pos _

theorem decimal_pos {c : Char} (cs : List Char) (hc : c.isDigit = true) :
    0 < (Numeral.decimal (c :: cs)).2 := by
  have hdigit : Numeral.isDecimal c = true := by simp [Numeral.isDecimal, hc]
  have hrun := run_pos cs hdigit
  unfold Numeral.decimal
  dsimp only
  split
  · exact Nat.add_pos_left (Nat.add_pos_left (Nat.succ_pos _) _) _
  · split
    · exact Nat.add_pos_left hrun _
    · exact Nat.add_pos_left hrun _

theorem number_pos {c : Char} {cs : List Char} {k : Kind} {n : Nat} (hc : c.isDigit = true)
    (h : Numeral.read (c :: cs) = .number k n) : 0 < n := by
  have hdecimal := decimal_pos cs hc
  unfold Numeral.read at h
  split at h
  · split at h
    · unfold Numeral.hexadecimal Numeral.pointedHex at h
      dsimp only at h
      repeat' split at h
      all_goals cases h
      all_goals omega
    · split at h
      · cases h
        unfold Numeral.binary
        dsimp only
        split <;> omega
      · cases h
        exact hdecimal
  · cases h
    exact hdecimal

/-- A token is not empty, and one that angle brackets are taken off is written in full. -/
theorem piece_token {c : Char} {cs : List Char} {k : Kind} {n : Nat}
    (h : piece c cs = (.token k, n)) : 0 < n ∧ ((State.afterAngle k).isSome = true →
      String.ofList ((c :: cs).take n) = k.spelling) := by
  have hkeywords : ∀ k ∈ Kind.keywords, State.afterAngle k = none := by decide
  have hoperators : ∀ k ∈ Kind.operators, 0 < k.spelling.length := by decide
  have hplain (hnone : State.afterAngle k = none) : (State.afterAngle k).isSome = true →
      String.ofList ((c :: cs).take n) = k.spelling := by
    simp [hnone]
  cases piece_finds h with
  | word start whole =>
    obtain ⟨-, rfl⟩ := Prod.mk.inj whole
    refine ⟨run_pos cs (isIdentifierPart_of_start start), hplain ?_⟩
    rcases word_kind whole with rfl | ⟨hk, -⟩
    · rfl
    · exact hkeywords k hk
  | number digit whole =>
    refine ⟨number_pos digit whole, hplain ?_⟩
    rcases kind_of_read whole with rfl | rfl <;> rfl
  | textBlock _ closed => exact ⟨Nat.lt_of_lt_of_le (by decide) (le_of_block closed), hplain rfl⟩
  | string closed | character closed => exact ⟨le_of_quoted closed, hplain rfl⟩
  | fraction => exact ⟨Nat.add_pos_left (Nat.add_pos_left Nat.one_pos _) _, hplain rfl⟩
  | operator mem spelled =>
    refine ⟨hoperators k mem, fun _ => ?_⟩
    rw [← String.length_toList, ← List.prefix_iff_eq_take.mp spelled, String.ofList_toList]

end Lexer

/-- The tokens that the lexer finds tile the text. -/
theorem tiled_ofItems (keepDocs : Bool) (source : Source) :
    (Layout.ofItems source (lex keepDocs source.text)).Tiled := by
  have hmem {token : Token}
      (h : token ∈ (Layout.ofItems source (lex keepDocs source.text)).tokens.toList) :
      Item.token token ∈ lex keepDocs source.text := by
    obtain ⟨item, hitem, htoken⟩ := List.mem_filterMap.mp (by simpa [Layout.ofItems] using h)
    cases item with
    | token t =>
      cases htoken
      exact hitem
    | flawed t => cases htoken
  have hlies {token : Token}
      (h : token ∈ (Layout.ofItems source (lex keepDocs source.text)).tokens.toList) :=
    (Lexer.items_lie [] (hmem h)).2
  refine ⟨fun token h => ?_, ?_, fun token h => ?_, fun token h hangle => ?_, fun token h => ?_⟩
  · obtain ⟨front, back, htext, hstart, hstop, _⟩ := hlies h
    exact ⟨front, back, htext, hstart, hstop⟩
  · have hordered := Lexer.items_ordered keepDocs source.text.toList.length none []
      source.text.toList
    have htokens := hordered.filterMap (S := fun a b : Token => a.stop ≤ b.start) Item.token?
      fun a b hab t ht u hu => by
        cases a <;> cases ht
        cases b <;> cases hu
        exact hab
    exact htokens
  · obtain ⟨front, back, _, _, hstop, _⟩ := hlies h
    obtain ⟨d, ds, n, hpiece, htext⟩ := Lexer.piece_of_mem (hmem h)
    have hstop : token.stop = token.start + byteLength token.text.toList := hstop
    obtain ⟨m, rfl⟩ := Nat.exists_eq_succ_of_ne_zero
      (Nat.pos_iff_ne_zero.mp (Lexer.piece_token hpiece).1)
    have hsize := d.utf8Size_pos
    rw [hstop, htext, String.toList_ofList, List.take_succ_cons, byteLength]
    omega
  · obtain ⟨d, ds, n, hpiece, htext⟩ := Lexer.piece_of_mem (hmem h)
    rw [htext]
    exact (Lexer.piece_token hpiece).2 hangle
  · obtain ⟨front, back, _, _, _, hfirst⟩ := hlies h
    obtain ⟨d, ds, n, hpiece, htext⟩ := Lexer.piece_of_mem (hmem h)
    refine ⟨fun hhead => hfirst ?_, fun hlast => ?_⟩
    · exact List.mem_head?_append_of_mem_head? hhead
    · rw [htext, String.toList_ofList] at hlast
      exact absurd ((Lexer.piece_separated hpiece rfl).last _ rfl '\r' hlast) (by decide)

namespace Session

/-- Flawed texts are reported where they stand. -/
theorem reportFlaws_fine {layout : Layout} {flawed : List FlawedText} {s : State}
    (hs : Fine layout s) (hlies : ∀ t ∈ flawed, layout.source.Visible t.start ∧
      layout.source.Boundary t.stop ∧ t.start ≤ t.stop) :
    Fine layout (reportFlaws layout.source flawed s) := by
  induction flawed generalizing s with
  | nil => exact hs
  | cons t rest ih =>
    obtain ⟨hstart, hstop, hle⟩ := hlies t List.mem_cons_self
    exact ih (hs.record hstart hstop hle nofun) fun u hu => hlies u (List.mem_cons_of_mem t hu)

variable (settings : Settings) (source : Source)

/-- The first state of a session is in front of the first token. -/
theorem start_fine : Fine (start settings source).layout (start settings source).state := by
  have htiled : (start settings source).layout.Tiled := tiled_ofItems settings.keepDocs source
  have hproper : Proper (start settings source).state.words := start_proper
  rw [State.words, (start_position settings source).2] at hproper
  refine @reportFlaws_fine (start settings source).layout _ _
    ⟨htiled, ⟨?_, ?_, ?_⟩, hproper, fun d hd => by cases hd⟩ ?_
  · rw [Nat.zero_add]
    exact Layout.length_symbols _
  · intro symbol hsymbol
    obtain ⟨token, htoken, hkind, htext⟩ :=
      Layout.symbolsFrom_getElem? (List.head?_eq_getElem? ▸ hsymbol)
    refine ⟨token, ?_, congrArg some hkind, fun _ => htext⟩
    rw [← Array.getElem?_toList]
    exact htoken
  · exact List.drop_one.symm
  · intro t ht
    obtain ⟨item, hitem, hflawed⟩ := List.mem_filterMap.mp ht
    cases item with
    | token t => cases hflawed
    | flawed t =>
      cases hflawed
      obtain ⟨front, back, htext, hstart, hstop, hfirst⟩ := (Lexer.items_lie [] hitem).2
      have hstart : t.start = byteLength front := hstart
      have hstop : t.stop = t.start + byteLength t.text.toList := hstop
      refine ⟨⟨front, t.text.toList ++ back, ?_, hstart, fun _ => hfirst⟩,
        ⟨front ++ t.text.toList, back, htext, ?_⟩, ?_⟩
      · rw [← List.append_assoc]
        exact htext
      · rw [byteLength_append, hstop, hstart]
      · omega

end Session

end JavaSyntax
