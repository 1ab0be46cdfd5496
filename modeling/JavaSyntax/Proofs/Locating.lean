import JavaSyntax.Proofs.Tiling

/-!
Lines and columns in a text that goes on. A place is told by what stands in front of it, but for the
two halves of a line end. So it stays where it is if the text goes on behind a further line end, and
the places of what comes then are only told by further lines and bytes.
-/

namespace JavaSyntax

/-- The place so many lines and bytes further on. -/
def Location.shift (lines bytes : Nat) (l : Location) : Location :=
  ⟨l.line + lines, l.column, l.offset + bytes⟩

def Span.shift (lines bytes : Nat) (span : Span) : Span :=
  ⟨span.start.shift lines bytes, span.stop.shift lines bytes⟩

namespace Line

theorem splitFrom_cr (seen : List Char) {rest : List Char} (h : rest.head? ≠ some '\n') :
    splitFrom seen ('\r' :: rest) = ⟨seen.reverse, .cr⟩ :: split rest :=
  splitFrom.eq_3 _ _ fun _ heq => h (heq ▸ rfl)

theorem splitFrom_other (seen : List Char) {c : Char} (hr : c ≠ '\r') (hn : c ≠ '\n')
    (rest : List Char) : splitFrom seen (c :: rest) = splitFrom (c :: seen) rest :=
  splitFrom.eq_5 _ _ _ (fun _ heq => absurd heq hr) hr hn

end Line

open Line (splitFrom split)

variable {number start : Nat}

theorem locateFrom_shift (number start offset lines bytes : Nat) (text : List Line) :
    locateFrom (number + lines) (start + bytes) (offset + bytes) text =
      (locateFrom number start offset text).shift lines bytes := by
  fun_induction locateFrom number start offset text with
  | case1 number start => rfl
  | case2 number start line d =>
    simp only [locateFrom, Location.shift, d, Nat.add_sub_add_right]
    simp only [Location.mk.injEq, true_and]
    omega
  | case3 number start line next rest hlt =>
    rw [locateFrom, if_pos (by omega), Nat.add_sub_add_right]
    rfl
  | case4 number start line next rest hge ih =>
    rw [locateFrom, if_neg (by omega), ← ih, Nat.add_right_comm number, Nat.add_right_comm start]

/-- What lies behind a line is found behind it. -/
theorem locateFrom_skip {line : Line} {rest : List Line} (hrest : rest ≠ []) (offset : Nat) :
    locateFrom number start (start + byteLength line.all + offset) (line :: rest) =
      locateFrom (number + 1) (start + byteLength line.all) (start + byteLength line.all + offset)
        rest := by
  cases rest with
  | nil => exact absurd rfl hrest
  | cons next rest => rw [locateFrom, if_neg (by omega)]

/-- A place inside a line, not behind its terminator. -/
theorem locateFrom_within {line : Line} {rest : List Line} {text more : List Char}
    (hline : line.all = text ++ more) (hmore : more ≠ [] ∨ rest = []) :
    locateFrom number start (start + byteLength text) (line :: rest) =
      ⟨number, text.length + 1, start + byteLength text⟩ := by
  have hcolumn : line.column (byteLength text) = text.length + 1 := by
    unfold Line.column
    rw [hline, takeBytes?_append]
    rfl
  have hbytes : byteLength line.all = byteLength text + byteLength more := by
    rw [hline, byteLength_append]
  cases rest with
  | nil =>
    have hmin : min (start + byteLength text - start) (byteLength line.all) = byteLength text := by
      omega
    simp only [locateFrom, hmin, hcolumn]
  | cons next rest =>
    have hpos : 0 < byteLength more := by
      cases more with
      | nil => simp at hmore
      | cons c more => exact Nat.add_pos_left c.utf8Size_pos _
    rw [locateFrom, if_pos (by omega), Nat.add_sub_cancel_left, hcolumn]

theorem splitFrom_head (seen rest : List Char) : ∃ line lines more,
    splitFrom seen rest = line :: lines ∧ line.all = seen.reverse ++ more ∧
      (more ≠ [] ∨ lines = []) := by
  fun_induction splitFrom seen rest with
  | case1 seen => exact ⟨_, _, [], rfl, rfl, .inr rfl⟩
  | case2 seen rest ih => exact ⟨_, _, ['\r', '\n'], rfl, rfl, .inl (List.cons_ne_nil _ _)⟩
  | case3 seen rest _ ih => exact ⟨_, _, ['\r'], rfl, rfl, .inl (List.cons_ne_nil _ _)⟩
  | case4 seen rest ih => exact ⟨_, _, ['\n'], rfl, rfl, .inl (List.cons_ne_nil _ _)⟩
  | case5 seen c rest _ _ _ ih =>
    obtain ⟨line, lines, more, hsplit, hall, -⟩ := ih
    exact ⟨line, lines, c :: more, hsplit, by simpa using hall, .inl (List.cons_ne_nil _ _)⟩

/-- The place behind the characters of the line that were read so far. -/
theorem locateFrom_seen (seen rest : List Char) :
    locateFrom number start (start + byteLength seen.reverse) (splitFrom seen rest) =
      ⟨number, seen.length + 1, start + byteLength seen.reverse⟩ := by
  obtain ⟨line, lines, more, hsplit, hall, hmore⟩ := splitFrom_head seen rest
  rw [hsplit, locateFrom_within hall hmore, List.length_reverse]

/-- A place behind a whole line. -/
theorem locateFrom_line (line : Line) (front ds : List Char) :
    locateFrom number start (start + byteLength (line.all ++ front)) (line :: split ds) =
      locateFrom (number + 1) (start + byteLength line.all)
        (start + byteLength line.all + byteLength front) (split ds) := by
  rw [byteLength_append, ← Nat.add_assoc]
  exact locateFrom_skip (Line.splitFrom_ne_nil [] ds) _

theorem getLast?_cons_of_some {d : Char} {cs : List Char} (c : Char) (h : cs.getLast? = some d) :
    (c :: cs).getLast? = some d := by
  rw [List.getLast?_cons, h]
  rfl

/-- A place depends on what is in front of it. Behind a carriage return the next character counts as
well. -/
theorem locateFrom_front (seen : List Char) {front rest rest' : List Char}
    (h : front.getLast? = some '\r' → rest.head? = rest'.head?) :
    locateFrom number start (start + byteLength (seen.reverse ++ front))
        (splitFrom seen (front ++ rest)) =
      locateFrom number start (start + byteLength (seen.reverse ++ front))
        (splitFrom seen (front ++ rest')) := by
  fun_induction splitFrom seen front generalizing number start with
  | case1 seen => simp only [List.append_nil, List.nil_append, locateFrom_seen]
  | case2 seen front ih =>
    have hwhole : seen.reverse ++ '\r' :: '\n' :: front =
        (Line.mk seen.reverse .crlf).all ++ front := by simp [Line.all, LineEnd.chars]
    have hrest := @ih (number + 1) (start + byteLength (Line.mk seen.reverse .crlf).all)
      fun hlast => h (getLast?_cons_of_some _ (getLast?_cons_of_some _ hlast))
    rw [hwhole]
    exact (locateFrom_line ..).trans (hrest.trans (locateFrom_line ..).symm)
  | case3 seen front hfront ih =>
    have hwhole : seen.reverse ++ '\r' :: front =
        (Line.mk seen.reverse .cr).all ++ front := by simp [Line.all, LineEnd.chars]
    rw [hwhole]
    cases front with
    | nil =>
      have hhead := h rfl
      by_cases hnewline : rest.head? = some '\n'
      · -- The terminator is of two characters, and the place is between them.
        obtain ⟨more, rfl⟩ := List.head?_eq_some_iff.mp hnewline
        obtain ⟨more', rfl⟩ := List.head?_eq_some_iff.mp (hhead ▸ hnewline)
        have hcrlf : (Line.mk seen.reverse .crlf).all =
            ((Line.mk seen.reverse .cr).all ++ []) ++ ['\n'] := by simp [Line.all, LineEnd.chars]
        exact (locateFrom_within hcrlf (.inl (List.cons_ne_nil _ _))).trans
          (locateFrom_within hcrlf (.inl (List.cons_ne_nil _ _))).symm
      · have hnewline' : rest'.head? ≠ some '\n' := hhead ▸ hnewline
        rw [List.cons_append, List.cons_append, List.nil_append, List.nil_append,
          Line.splitFrom_cr seen hnewline, Line.splitFrom_cr seen hnewline', locateFrom_line,
          locateFrom_line]
        exact (locateFrom_seen [] rest).trans (locateFrom_seen [] rest').symm
    | cons c front =>
      have hc (ds : List Char) : (c :: front ++ ds).head? ≠ some '\n' := by
        rintro ⟨⟩
        exact hfront front rfl
      have hrest := @ih (number + 1) (start + byteLength (Line.mk seen.reverse .cr).all)
        fun hlast => h (getLast?_cons_of_some _ hlast)
      have hsplit (ds : List Char) (h : (c :: front ++ ds).head? ≠ some '\n') :
          splitFrom seen ('\r' :: c :: front ++ ds) =
            ⟨seen.reverse, .cr⟩ :: split (c :: front ++ ds) := Line.splitFrom_cr seen h
      rw [hsplit rest (hc rest), hsplit rest' (hc rest')]
      exact (locateFrom_line ..).trans (hrest.trans (locateFrom_line ..).symm)
  | case4 seen front ih =>
    have hwhole : seen.reverse ++ '\n' :: front =
        (Line.mk seen.reverse .lf).all ++ front := by simp [Line.all, LineEnd.chars]
    have hrest := @ih (number + 1) (start + byteLength (Line.mk seen.reverse .lf).all) fun hlast =>
      h (getLast?_cons_of_some _ hlast)
    rw [hwhole]
    exact (locateFrom_line ..).trans (hrest.trans (locateFrom_line ..).symm)
  | case5 seen c front hcrlf hr hn ih =>
    have hwhole : seen.reverse ++ c :: front = (c :: seen).reverse ++ front := by simp
    rw [hwhole, List.cons_append, List.cons_append, Line.splitFrom_other _ hr hn,
      Line.splitFrom_other _ hr hn]
    exact ih fun hlast => h (getLast?_cons_of_some _ hlast)

/-- The lines of a text and of what comes behind its line end, seen from the start of a line. -/
def BeginsAnew (seen cs ds : List Char) (offset : Nat) : Prop :=
  ∀ number start lines, (splitFrom seen (cs ++ ['\n'])).length = lines + 1 →
    let stop := start + byteLength (seen.reverse ++ (cs ++ ['\n']))
    locateFrom number start (stop + offset) (splitFrom seen (cs ++ '\n' :: ds)) =
      locateFrom (number + lines) stop (stop + offset) (split ds)

namespace BeginsAnew

variable {seen cs ds : List Char} {offset : Nat}

/-- The last line in front. -/
theorem last (line : Line) (hline : line.all = seen.reverse ++ (cs ++ ['\n']))
    (hsplit : ∀ ds, splitFrom seen (cs ++ '\n' :: ds) = line :: split ds) :
    BeginsAnew seen cs ds offset := by
  intro number start lines hlines
  have hone : lines = 1 := by
    rw [hsplit []] at hlines
    exact (Nat.succ.inj hlines).symm
  rw [hsplit ds, hone, ← hline]
  exact locateFrom_skip (Line.splitFrom_ne_nil [] ds) offset

/-- A line more in front. -/
theorem line (line : Line) {front : List Char}
    (hline : line.all ++ front = seen.reverse ++ cs)
    (hsplit : ∀ ds, splitFrom seen (cs ++ '\n' :: ds) = line :: split (front ++ '\n' :: ds))
    (h : BeginsAnew [] front ds offset) : BeginsAnew seen cs ds offset := by
  intro number start lines hlines
  rw [hsplit []] at hlines
  have hlines' : (split (front ++ ['\n'])).length = lines := Nat.succ.inj hlines
  obtain ⟨more, rfl⟩ := Nat.exists_eq_succ_of_ne_zero (fun hzero =>
    Line.splitFrom_ne_nil [] (front ++ ['\n']) (List.length_eq_zero_iff.mp (hlines'.trans hzero)))
  have hrest := h (number + 1) (start + byteLength line.all) more hlines'
  have hbytes : start + byteLength (seen.reverse ++ (cs ++ ['\n'])) =
      start + byteLength line.all + byteLength (front ++ ['\n']) := by
    rw [← List.append_assoc, ← hline, List.append_assoc, byteLength_append, Nat.add_assoc]
  have hnumber : number + (more + 1) = number + 1 + more := by omega
  dsimp only
  rw [hsplit ds, hbytes, Nat.add_assoc (start + byteLength line.all), hnumber]
  refine (locateFrom_skip (Line.splitFrom_ne_nil [] _) _).trans ?_
  rw [← Nat.add_assoc]
  exact hrest

end BeginsAnew

/-- Behind a line end the lines begin anew. -/
theorem beginsAnew (seen cs ds : List Char) (offset : Nat) : BeginsAnew seen cs ds offset := by
  fun_induction splitFrom seen cs with
  | case1 seen => exact .last ⟨seen.reverse, .lf⟩ rfl fun _ => rfl
  | case2 seen cs ih =>
    exact .line ⟨seen.reverse, .crlf⟩ (by simp [Line.all, LineEnd.chars]) (fun _ => rfl) ih
  | case3 seen cs hcs ih =>
    cases cs with
    | nil => exact .last ⟨seen.reverse, .crlf⟩ (by simp [Line.all, LineEnd.chars]) fun _ => rfl
    | cons c cs =>
      refine .line ⟨seen.reverse, .cr⟩ (by simp [Line.all, LineEnd.chars]) (fun ds => ?_) ih
      refine Line.splitFrom_cr seen ?_
      rintro ⟨⟩
      exact hcs cs rfl
  | case4 seen cs ih =>
    exact .line ⟨seen.reverse, .lf⟩ (by simp [Line.all, LineEnd.chars]) (fun _ => rfl) ih
  | case5 seen c cs hcrlf hr hn ih =>
    intro number start lines hlines
    have hwhole : seen.reverse ++ (c :: cs ++ ['\n']) = (c :: seen).reverse ++ (cs ++ ['\n']) := by
      simp
    rw [List.cons_append, Line.splitFrom_other _ hr hn] at hlines
    rw [hwhole, List.cons_append, Line.splitFrom_other _ hr hn]
    exact ih number start lines hlines

namespace Source

variable {first front second whole : Source}

/-- Where a text goes on in a new line, the places of what comes then are told by as many further
lines and bytes as there are in front. -/
theorem locationAt_behind (hfront : front.text = first.text ++ "\n")
    (hwhole : whole.text = front.text ++ second.text) (offset : Nat) :
    whole.locationAt (offset + front.size) =
      (second.locationAt offset).shift (front.lineCount - 1) front.size := by
  have hchars : front.text.toList = first.text.toList ++ ['\n'] := by simp [hfront]
  have hsize : front.size = byteLength (first.text.toList ++ ['\n']) := by
    rw [← hchars, byteLength_toList]
    rfl
  have hsplit : whole.lines = split (first.text.toList ++ '\n' :: second.text.toList) := by
    rw [whole.lines_eq, hwhole, String.toList_append, hchars, List.append_assoc]
    rfl
  have hlines : (split (first.text.toList ++ ['\n'])).length = front.lineCount - 1 + 1 := by
    rw [lineCount, front.lines_eq, hchars, Nat.sub_add_cancel]
    exact List.length_pos_iff.mpr (Line.splitFrom_ne_nil [] _)
  have hbehind := beginsAnew [] first.text.toList second.text.toList offset 1 0 _ hlines
  have hshift := locateFrom_shift 1 0 offset (front.lineCount - 1) front.size second.lines
  rw [locationAt, locationAt, ← hshift, hsplit, second.lines_eq, Nat.zero_add,
    Nat.add_comm offset, hsize]
  simpa [split] using hbehind

/-- A place in a text stays where it is if the text goes on in a new line. Behind a carriage return
there must be something yet. -/
theorem locationAt_before {before after : List Char} (hfirst : first.text.toList = before ++ after)
    (hfront : front.text = first.text ++ "\n") (hwhole : whole.text = front.text ++ second.text)
    (h : before.getLast? = some '\r' → after ≠ []) :
    whole.locationAt (byteLength before) = first.locationAt (byteLength before) := by
  have hchars : whole.text.toList = before ++ (after ++ '\n' :: second.text.toList) := by
    rw [hwhole, hfront]
    simp [hfirst]
  have hsame := @locateFrom_front 1 0 [] before (after ++ '\n' :: second.text.toList) after
    fun hlast => by
      cases after with
      | nil => exact absurd rfl (h hlast)
      | cons c after => rfl
  rw [locationAt, locationAt, whole.lines_eq, first.lines_eq, hchars, hfirst]
  simpa [split] using hsame

end Source

end JavaSyntax
