import JavaSyntax.Proofs.Locating

/-!
The index of lines. The lines of a text hold no line ends, and with their ends behind them they make
up the text. A location counts the line ends in front of it, and the characters behind the last of
these; so it tells the places of a text apart and keeps their order.
-/

namespace JavaSyntax

open Enclosed (isNewline)

/-- Whether a line ends with this character, given what comes next. A carriage return in front of a
line feed is only the first half of a line end. -/
def endsLine (c : Char) (next : List Char) : Bool :=
  c == '\n' || c == '\r' && next.head? != some '\n'

/-- How many lines end among these characters, given what comes next. -/
def lineEnds (next : List Char) : List Char → Nat
  | [] => 0
  | c :: cs => (endsLine c (cs ++ next)).toNat + lineEnds next cs

/-- Each line with its end behind it. -/
def withEnds (texts : List String) (ends : List LineEnd) : List (List Char) :=
  List.zipWith (fun text ending => text.toList ++ ending.chars) texts ends

/-- The lines of a source and their ends, as its index has them. -/
structure Source.IsIndexed (source : Source) (texts : List String) (ends : List LineEnd) :
    Prop where
  count : source.lineCount = texts.length
  lineText : ∀ i, source.lineText (i + 1) = texts[i]?
  inLine : ∀ text ∈ texts, ∀ c ∈ text.toList, isNewline c = false
  /-- Only the last line has no end, and two lines never share one. -/
  ended : ∃ others, ends = others ++ [.none] ∧ LineEnd.none ∉ others ∧
    others.length + 1 = texts.length ∧ others.length = lineEnds [] source.text.toList
  whole : source.text.toList = (withEnds texts ends).flatten
  /-- The line is told by the line ends in front, the column by the characters behind them. -/
  located : ∀ front back, source.text.toList = front ++ back → ∃ inLine,
    front = ((withEnds texts ends).take (lineEnds back front)).flatten ++ inLine ∧
      source.locationAt (byteLength front) =
        ⟨lineEnds back front + 1, inLine.length + 1, byteLength front⟩
  increasing : ∀ a b, source.Boundary a → source.Boundary b → a < b →
    (source.locationAt a).before (source.locationAt b) = true
  injective : ∀ a b, source.Boundary a → source.Boundary b →
    (source.locationAt a).line = (source.locationAt b).line →
    (source.locationAt a).column = (source.locationAt b).column → a = b
  clamped : ∀ offset, source.size ≤ offset →
    source.locationAt offset = source.locationAt source.size

/-! Counting line ends. -/

theorem endsLine_eq_false {c : Char} (h : isNewline c = false) (next : List Char) :
    endsLine c next = false := by
  simp only [isNewline, Bool.or_eq_false_iff, beq_eq_false_iff_ne] at h
  simp [endsLine, h]

theorem lineEnds_append (next cs ds : List Char) :
    lineEnds next (cs ++ ds) = lineEnds (ds ++ next) cs + lineEnds next ds := by
  induction cs with
  | nil => exact (Nat.zero_add _).symm
  | cons c cs ih => simp only [List.cons_append, lineEnds, List.append_assoc, ih, Nat.add_assoc]

theorem lineEnds_eq_zero {cs : List Char} (h : ∀ c ∈ cs, isNewline c = false) (next : List Char) :
    lineEnds next cs = 0 := by
  induction cs with
  | nil => rfl
  | cons c cs ih =>
    obtain ⟨hc, hcs⟩ := List.forall_mem_cons.mp h
    rw [lineEnds, endsLine_eq_false hc, ih hcs]
    rfl

namespace Line

/-- A line as texts are split into: it goes up to its end, which is all of a line end. -/
structure Ends (line : Line) (next : List Char) : Prop where
  inLine : ∀ c ∈ line.chars, isNewline c = false
  ended : line.ending ≠ .none
  all : line.ending = .cr → next.head? ≠ some '\n'

namespace Ends

variable {line : Line} {next : List Char}

/-- Only a carriage return could be half of a line end. -/
theorem whole {chars : List Char} {ending : LineEnd} (hchars : ∀ c ∈ chars, isNewline c = false)
    (hended : ending ≠ .none) (hcr : ending ≠ .cr) : Ends ⟨chars, ending⟩ next :=
  ⟨hchars, hended, fun h => absurd h hcr⟩

theorem lineEnds_all (h : line.Ends next) : lineEnds next line.all = 1 := by
  obtain ⟨chars, ending⟩ := line
  obtain ⟨hchars, hended, hall⟩ := h
  rw [Line.all, lineEnds_append, lineEnds_eq_zero hchars, Nat.zero_add]
  cases ending with
  | lf => rfl
  | crlf => rfl
  | cr => simp [LineEnd.chars, lineEnds, endsLine, hall rfl]
  | none => exact absurd rfl hended

/-- The line end is complete with the last character only. -/
theorem exists_last (h : line.Ends next) : ∃ front d, line.all = front ++ [d] ∧
    endsLine d next = true := by
  obtain ⟨chars, ending⟩ := line
  obtain ⟨-, hended, hall⟩ := h
  cases ending with
  | lf => exact ⟨chars, '\n', rfl, rfl⟩
  | crlf => exact ⟨chars ++ ['\r'], '\n', by simp [Line.all, LineEnd.chars], rfl⟩
  | cr => exact ⟨chars, '\r', rfl, by simp [endsLine, hall rfl]⟩
  | none => exact absurd rfl hended

/-- In front of the last character of a line no line ends. -/
theorem lineEnds_front (h : line.Ends next) {front more : List Char}
    (hline : line.all = front ++ more) (hmore : more ≠ []) : lineEnds (more ++ next) front = 0 := by
  obtain ⟨before, d, hlast, hd⟩ := h.exists_last
  obtain ⟨middle, e, rfl⟩ := List.eq_nil_or_concat' more |>.resolve_left hmore
  have hsame : before ++ [d] = (front ++ middle) ++ [e] := by
    rw [← hlast, hline, List.append_assoc]
  obtain ⟨-, rfl⟩ := List.append_inj' hsame rfl |>.imp id List.singleton_inj.mp
  have hone := h.lineEnds_all
  rw [hline, lineEnds_append, lineEnds_append] at hone
  have hended : lineEnds next [d] = 1 := by simp [lineEnds, hd]
  omega

/-- A text that starts with a line is cut behind the line, where one more line has ended, or in
front of its last character. -/
theorem cut (h : line.Ends next) {front back : List Char}
    (htext : line.all ++ next = front ++ back) :
    (∃ front', front = line.all ++ front' ∧ next = front' ++ back ∧
      lineEnds back front = lineEnds back front' + 1) ∨
    ∃ more, more ≠ [] ∧ line.all = front ++ more ∧ back = more ++ next ∧
      lineEnds back front = 0 := by
  have hbehind {front' : List Char} (hfront : front = line.all ++ front')
      (hnext : next = front' ++ back) : lineEnds back front = lineEnds back front' + 1 := by
    rw [hfront, lineEnds_append, ← hnext, h.lineEnds_all, Nat.add_comm]
  rcases List.append_eq_append_iff.mp htext with ⟨front', hfront, hnext⟩ | ⟨more, hline, hback⟩
  · exact .inl ⟨front', hfront, hnext, hbehind hfront hnext⟩
  · rcases eq_or_ne more [] with rfl | hmore
    · rw [List.append_nil] at hline
      have hfront : front = line.all ++ [] := by rw [List.append_nil, hline]
      exact .inl ⟨[], hfront, hback.symm, hbehind hfront hback.symm⟩
    · exact .inr ⟨more, hmore, hline, hback, by rw [hback]; exact h.lineEnds_front hline hmore⟩

end Ends

/-- The lines of a text, one behind the other. -/
inductive Listed : List Line → Prop where
  | last {chars : List Char} (inLine : ∀ c ∈ chars, isNewline c = false) : Listed [⟨chars, .none⟩]
  | cons {line : Line} {lines : List Line} (ends : line.Ends (lines.flatMap Line.all))
      (others : Listed lines) : Listed (line :: lines)

theorem splitFrom_listed (seen cs : List Char) (hseen : ∀ c ∈ seen, isNewline c = false) :
    Listed (splitFrom seen cs) := by
  have hline {seen : List Char} (hseen : ∀ c ∈ seen, isNewline c = false) :
      ∀ c ∈ seen.reverse, isNewline c = false := fun c hc => hseen c (List.mem_reverse.mp hc)
  fun_induction splitFrom seen cs with
  | case1 seen => exact .last (hline hseen)
  | case2 seen rest ih =>
    exact .cons (.whole (hline hseen) (by decide) (by decide)) (ih (List.forall_mem_nil _))
  | case3 seen rest hrest ih =>
    have hended : LineEnd.cr ≠ .none := by decide
    refine .cons ⟨hline hseen, hended, fun _ => ?_⟩ (ih (List.forall_mem_nil _))
    rw [flatMap_all_splitFrom]
    intro hhead
    obtain ⟨more, rfl⟩ := List.head?_eq_some_iff.mp hhead
    exact hrest more rfl
  | case4 seen rest ih =>
    exact .cons (.whole (hline hseen) (by decide) (by decide)) (ih (List.forall_mem_nil _))
  | case5 seen c rest _ hr hn ih =>
    have hc : isNewline c = false := by
      simp only [isNewline, Bool.or_eq_false_iff, beq_eq_false_iff_ne]
      exact ⟨hn, hr⟩
    exact ih (List.forall_mem_cons.mpr ⟨hc, hseen⟩)

theorem split_listed (cs : List Char) : Listed (split cs) :=
  splitFrom_listed [] cs nofun

namespace Listed

variable {lines : List Line}

theorem ne_nil (h : Listed lines) : lines ≠ [] := by
  cases h <;> exact List.cons_ne_nil _ _

theorem inLine (h : Listed lines) : ∀ line ∈ lines, ∀ c ∈ line.chars, isNewline c = false := by
  induction h with
  | last inLine => exact List.forall_mem_singleton.mpr inLine
  | cons ends _ ih => exact List.forall_mem_cons.mpr ⟨ends.inLine, ih⟩

/-- All lines but the last are ended. -/
theorem ended (h : Listed lines) : ∃ others, lines.map Line.ending = others ++ [.none] ∧
    LineEnd.none ∉ others ∧ others.length = lineEnds [] (lines.flatMap Line.all) := by
  induction h with
  | last inLine =>
    refine ⟨[], rfl, nofun, ?_⟩
    simp [Line.all, LineEnd.chars, lineEnds_eq_zero inLine]
  | @cons line lines ends _ ih =>
    obtain ⟨others, hmap, hnone, hlength⟩ := ih
    refine ⟨line.ending :: others, by rw [List.map_cons, hmap]; rfl, ?_, ?_⟩
    · simpa using ⟨ends.ended.symm, hnone⟩
    · rw [List.flatMap_cons, lineEnds_append, List.append_nil, ends.lineEnds_all, List.length_cons,
        hlength, Nat.add_comm]

/-- The place behind the first characters of some lines: as many lines further as end there, and
behind the characters of the line that does not. -/
theorem locateFrom_eq (h : Listed lines) {front back : List Char}
    (htext : lines.flatMap Line.all = front ++ back) (number start : Nat) : ∃ inLine,
      front = (lines.take (lineEnds back front)).flatMap Line.all ++ inLine ∧
        locateFrom number start (start + byteLength front) lines =
          ⟨number + lineEnds back front, inLine.length + 1, start + byteLength front⟩ := by
  induction h generalizing front number start with
  | @last chars hchars =>
    have hall : (Line.mk chars .none).all = front ++ back := by simpa using htext
    have hnone : lineEnds back front = 0 := by
      refine lineEnds_eq_zero (fun c hc => hchars c ?_) back
      have hmem : c ∈ (Line.mk chars .none).all := hall ▸ List.mem_append_left back hc
      simpa [Line.all, LineEnd.chars] using hmem
    rw [hnone]
    exact ⟨front, rfl, locateFrom_within hall (.inr rfl)⟩
  | @cons line lines hends others ih =>
    rw [List.flatMap_cons] at htext
    rcases hends.cut htext with ⟨front', hfront, hlines, hcount⟩ | ⟨more, hmore, hline, -, hnone⟩
    · obtain ⟨inLine, hinLine, hlocated⟩ := ih hlines (number + 1) (start + byteLength line.all)
      refine ⟨inLine, ?_, ?_⟩
      · rw [hcount, List.take_succ_cons, List.flatMap_cons, List.append_assoc, ← hinLine, hfront]
      · rw [hcount, hfront, byteLength_append, ← Nat.add_assoc]
        refine (locateFrom_skip ?_ _).trans (hlocated.trans ?_)
        · exact others.ne_nil
        · rw [Nat.add_right_comm, Nat.add_assoc number]
    · rw [hnone]
      exact ⟨front, rfl, locateFrom_within hline (.inl hmore)⟩

end Listed

theorem withEnds_eq (lines : List Line) :
    withEnds (lines.map fun line => String.ofList line.chars) (lines.map Line.ending) =
      lines.map Line.all := by
  unfold withEnds
  rw [List.zipWith_map, List.zipWith_self]
  exact List.map_congr_left fun line _ => by rw [String.toList_ofList]; rfl

end Line

/-- An offset behind all lines is the end of the last one. -/
theorem locateFrom_past {number start offset : Nat} {lines : List Line} (hlines : lines ≠ [])
    (hoffset : start + byteLength (lines.flatMap Line.all) ≤ offset) :
    locateFrom number start offset lines =
      locateFrom number start (start + byteLength (lines.flatMap Line.all)) lines := by
  fun_induction locateFrom number start offset lines with
  | case1 => exact absurd rfl hlines
  | case2 number start line d =>
    rw [List.flatMap_cons, List.flatMap_nil, List.append_nil] at hoffset ⊢
    have hd : d = byteLength line.all := by omega
    simp only [locateFrom, hd, Nat.add_sub_cancel_left, Nat.min_self]
  | case3 number start line next rest hlt =>
    rw [List.flatMap_cons, byteLength_append] at hoffset
    omega
  | case4 number start line next rest hge ih =>
    rw [List.flatMap_cons, byteLength_append, ← Nat.add_assoc] at hoffset ⊢
    rw [ih (List.cons_ne_nil _ _) hoffset]
    exact (locateFrom_skip (List.cons_ne_nil _ _) _).symm

namespace Source

variable {source : Source} {front back : List Char}

theorem lines_listed (source : Source) : Line.Listed source.lines :=
  source.lines_eq ▸ Line.split_listed _

theorem flatMap_lines (source : Source) : source.lines.flatMap Line.all = source.text.toList := by
  rw [source.lines_eq]
  exact Line.flatMap_all_splitFrom [] _

theorem locationAt_eq (h : source.text.toList = front ++ back) : ∃ inLine,
    front = (source.lines.take (lineEnds back front)).flatMap Line.all ++ inLine ∧
      source.locationAt (byteLength front) =
        ⟨lineEnds back front + 1, inLine.length + 1, byteLength front⟩ := by
  obtain ⟨inLine, hinLine, hlocated⟩ :=
    source.lines_listed.locateFrom_eq (source.flatMap_lines.trans h) 1 0
  rw [Nat.zero_add, Nat.add_comm 1] at hlocated
  exact ⟨inLine, hinLine, hlocated⟩

/-- A place behind another one is in a later line, or in the same line and a later column. -/
theorem locationAt_further {middle : List Char} (h : source.text.toList = front ++ middle ++ back)
    (hmiddle : middle ≠ []) :
    let a := source.locationAt (byteLength front)
    let b := source.locationAt (byteLength (front ++ middle))
    a.line < b.line ∨ a.line = b.line ∧ a.column < b.column := by
  obtain ⟨inLine, hinLine, ha⟩ := locationAt_eq (h.trans (List.append_assoc ..))
  obtain ⟨inLine', hinLine', hb⟩ := locationAt_eq h
  rw [lineEnds_append] at hinLine' hb
  simp only [ha, hb]
  rcases Nat.eq_zero_or_pos (lineEnds back middle) with hnone | hpos
  · -- Both are in one line, behind the same lines.
    rw [hnone, Nat.add_zero] at hinLine'
    have hsame : inLine' = inLine ++ middle := by
      apply List.append_cancel_left
      rw [← List.append_assoc, ← hinLine, ← hinLine']
    have hlength := List.length_pos_iff.mpr hmiddle
    simp only [hsame, hnone, List.length_append]
    exact .inr ⟨trivial, by omega⟩
  · omega

theorem Boundary.further {a b : Nat} (ha : source.Boundary a) (hb : source.Boundary b)
    (hlt : a < b) : (source.locationAt a).line < (source.locationAt b).line ∨
      (source.locationAt a).line = (source.locationAt b).line ∧
        (source.locationAt a).column < (source.locationAt b).column := by
  obtain ⟨front, back, htext, rfl⟩ := ha
  obtain ⟨front', back', htext', rfl⟩ := hb
  rcases List.append_eq_append_iff.mp (htext.symm.trans htext') with
    ⟨middle, rfl, -⟩ | ⟨middle, rfl, -⟩
  · refine locationAt_further htext' ?_
    rintro rfl
    simp at hlt
  · rw [byteLength_append] at hlt
    omega

/-- The index of a source is exact. Its lines hold no line ends and make up the text with theirs; a
location counts the line ends in front of it and the characters in its line, so that it keeps the
order of places; and an offset past the text is its end. -/
theorem lines_indexed (source : Source) : ∃ texts ends, source.IsIndexed texts ends := by
  have hwithEnds := Line.withEnds_eq source.lines
  refine ⟨source.lines.map fun line => String.ofList line.chars, source.lines.map Line.ending,
    ?_, ?_, ?_, ?_, ?_, ?_, ?_, ?_, ?_⟩
  · rw [List.length_map]
    rfl
  · intro i
    rw [List.getElem?_map]
    rfl
  · intro text htext c hc
    obtain ⟨line, hline, rfl⟩ := List.mem_map.mp htext
    rw [String.toList_ofList] at hc
    exact source.lines_listed.inLine line hline c hc
  · obtain ⟨others, hothers, hnone, hcount⟩ := source.lines_listed.ended
    refine ⟨others, hothers, hnone, ?_, ?_⟩
    · have hlength := congrArg List.length hothers
      rw [List.length_map, List.length_append] at hlength
      rw [List.length_map, hlength]
      rfl
    · rw [hcount, source.flatMap_lines]
  · rw [hwithEnds, ← List.flatMap_def, source.flatMap_lines]
  · intro front back htext
    rw [hwithEnds, ← List.map_take, ← List.flatMap_def]
    exact locationAt_eq htext
  · intro a b ha hb hlt
    have hfurther := ha.further hb hlt
    simp only [Location.before, Bool.or_eq_true, Bool.and_eq_true, decide_eq_true_eq, beq_iff_eq]
    exact hfurther.imp id fun h => ⟨h.1, .inl h.2⟩
  · intro a b ha hb hline hcolumn
    rcases Nat.lt_trichotomy a b with hlt | rfl | hlt
    · have hfurther := ha.further hb hlt
      omega
    · rfl
    · have hfurther := hb.further ha hlt
      omega
  · intro offset hoffset
    have hsize : source.size = 0 + byteLength (source.lines.flatMap Line.all) := by
      rw [source.flatMap_lines, byteLength_toList, Nat.zero_add]
      rfl
    unfold locationAt
    rw [hsize] at hoffset ⊢
    exact locateFrom_past source.lines_listed.ne_nil hoffset

/-- Between the two halves of a line end no line has ended yet. -/
example : (ofText unnamed "a\r\n\rb").locationAt 2 = ⟨1, 3, 2⟩ := by decide

end Source

end JavaSyntax
