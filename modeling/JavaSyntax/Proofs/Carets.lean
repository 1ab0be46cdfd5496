import JavaSyntax.Proofs.LineIndex

/-!
Where the caret of a rendered diagnostic stands. Every diagnostic starts at a place that is not
between the two halves of a line end. Such a place lies in the line it is located in or right behind
it, so that the caret has a line to stand under and a column in it.
-/

namespace JavaSyntax

open Enclosed (isNewline)

/-- A diagnostic as it is rendered: below its line stands a caret, behind as many blanks as there
are characters in front of the place. -/
structure Diagnostic.PointsAt (d : Diagnostic) (source : Source) (line : String)
    (front back : List Char) : Prop where
  lineText : source.lineText d.line = some line
  column : d.column = front.length + 1
  split : line.toList = front ++ back
  inLine : ∀ c ∈ line.toList, isNewline c = false
  /-- The line stands in the text in such a way that the diagnostic starts behind `front`. -/
  place : ∃ before after, source.text.toList = before ++ line.toList ++ after ∧
    d.span.start.offset = byteLength (before ++ front)
  rendered : d.render source =
    s!"{d.source}:{d.line}: {d.severity.display}: {d.message}" ++ "\n" ++ line ++ "\n" ++
      String.ofList (front.map fun c => if c = '\t' then '\t' else ' ') ++ "^"

/-- A place that cuts no line end in two is behind whole lines and some characters of the next. -/
theorem Line.Listed.within {lines : List Line} {front back : List Char} (h : Listed lines)
    (htext : lines.flatMap Line.all = front ++ back)
    (hcut : front.getLast? = some '\r' → back.head? ≠ some '\n') : ∃ line inLine more,
      lines[lineEnds back front]? = some line ∧ line.chars = inLine ++ more ∧
        front = (lines.take (lineEnds back front)).flatMap Line.all ++ inLine := by
  induction h generalizing front with
  | @last chars hchars =>
    have hall : chars = front ++ back := by simpa [Line.all, LineEnd.chars] using htext
    have hnone : lineEnds back front = 0 :=
      lineEnds_eq_zero (fun c hc => hchars c (hall ▸ List.mem_append_left back hc)) back
    rw [hnone]
    exact ⟨_, front, back, rfl, hall, rfl⟩
  | @cons line lines hends others ih =>
    rw [List.flatMap_cons] at htext
    rcases hends.cut htext with
      ⟨front', hfront, hlines, hcount⟩ | ⟨more, hmore, hline, hback, hnone⟩
    · have hcut' : front'.getLast? = some '\r' → back.head? ≠ some '\n' := fun hlast =>
        hcut (by rw [hfront, List.getLast?_append, hlast]; rfl)
      obtain ⟨l, inLine, more, hl, hchars, hfront'⟩ := ih hlines hcut'
      refine ⟨l, inLine, more, ?_, hchars, ?_⟩
      · rw [hcount, List.getElem?_cons_succ, hl]
      · rw [hcount, List.take_succ_cons, List.flatMap_cons, List.append_assoc, ← hfront', hfront]
    · obtain ⟨c, more, rfl⟩ := List.exists_cons_of_ne_nil hmore
      rw [hnone]
      rcases List.append_eq_append_iff.mp hline with ⟨inEnd, hfront, hending⟩ | ⟨rest, hchars, -⟩
      · -- Only the first half of a line end can be in front of the place.
        have hnil : inEnd = [] := by
          refine Classical.byContradiction fun hne => ?_
          have hhalves : inEnd = ['\r'] ∧ c = '\n' := by
            cases hend : line.ending <;> rw [hend] at hending <;>
              simp [LineEnd.chars, List.cons_eq_append_iff, hne] at hending
            exact hending.imp id fun h => h.1
          refine hcut ?_ ?_
          · rw [hfront, hhalves.1, List.getLast?_concat]
          · rw [hback, hhalves.2]
            rfl
        rw [hnil, List.append_nil] at hfront
        exact ⟨line, front, [], rfl, by rw [hfront, List.append_nil], rfl⟩
      · exact ⟨line, front, rest, rfl, hchars, rfl⟩

/-- A diagnostic at a visible place is rendered with a caret right there. -/
theorem Source.Visible.pointsAt {source : Source} {offset : Nat} (h : source.Visible offset)
    {d : Diagnostic} (hd : d.span.start = source.locationAt offset) :
    ∃ line front back, d.PointsAt source line front back := by
  obtain ⟨front, back, htext, rfl, hcut⟩ := h
  obtain ⟨line, inLine, more, hline, hchars, hfront⟩ :=
    source.lines_listed.within (source.flatMap_lines.trans htext) hcut
  obtain ⟨inLine', hfront', hlocated⟩ := source.locationAt_eq htext
  obtain rfl : inLine' = inLine := List.append_cancel_left (hfront'.symm.trans hfront)
  rw [hlocated] at hd
  have hnumber : d.line = lineEnds back front + 1 := congrArg Location.line hd
  have hcolumn : d.column = inLine'.length + 1 := congrArg Location.column hd
  have htoList : (String.ofList line.chars).toList = inLine' ++ more := by
    rw [String.toList_ofList, hchars]
  have hlineText : source.lineText d.line = some (String.ofList line.chars) := by
    rw [hnumber]
    exact congrArg (Option.map fun line => String.ofList line.chars) hline
  refine ⟨String.ofList line.chars, inLine', more, hlineText, hcolumn, htoList, ?_, ?_, ?_⟩
  · rw [String.toList_ofList]
    exact source.lines_listed.inLine line (List.mem_of_getElem? hline)
  · obtain ⟨hlt, hget⟩ := List.getElem?_eq_some_iff.mp hline
    refine ⟨(source.lines.take (lineEnds back front)).flatMap Line.all, line.ending.chars ++
      (source.lines.drop (lineEnds back front + 1)).flatMap Line.all, ?_, ?_⟩
    · rw [← source.flatMap_lines, String.toList_ofList]
      conv_lhs => rw [← List.take_append_drop (lineEnds back front) source.lines,
        List.drop_eq_getElem_cons hlt, hget]
      simp [Line.all]
    · rw [← hfront, hd]
  · unfold Diagnostic.render
    rw [hlineText]
    simp only [Diagnostic.indentTo, hcolumn, Nat.add_sub_cancel, htoList, List.take_left]

/-- Whatever a text, its settings and the entry points called are: all that was logged is rendered
with a caret under the character where it starts, or right behind its line if it starts there. -/
theorem Session.carets_lined_up (settings : Settings) (source : Source) (entries : List Entry) :
    ∀ d ∈ ((start settings source).afterAll entries).diagnostics,
      ∃ line front back, d.PointsAt source line front back := by
  intro d hd
  obtain ⟨-, hfine⟩ := afterAll_fine (start_fine settings source) entries
  obtain ⟨start, stop, hspan, hstart, -, -⟩ := (hfine.logged d hd).spans
  exact hstart.pointsAt (congrArg Span.start hspan)

/-- The semicolon that is missing at the end of a line is missed right behind its last character,
in front of the line end. -/
theorem Session.carets_lined_up_behind :
    let source := Source.ofText "A.java" "class A \x7b\r\n\tint x\r\n\x7d"
    ∃ d ∈ ((start .standard source).afterAll [.unit]).diagnostics,
      d.render source = "A.java:2: error: ';' expected\n\tint x\n\t     ^" ∧
        ∃ line front back, d.PointsAt source line front back := by
  intro source
  have hrendered : "A.java:2: error: ';' expected\n\tint x\n\t     ^" ∈
      ((start .standard source).afterAll [.unit]).diagnostics.map (·.render source) := by
    decide
  obtain ⟨d, hd, hrender⟩ := List.mem_map.mp hrendered
  exact ⟨d, hd, hrender, carets_lined_up .standard source [.unit] d hd⟩

end JavaSyntax
