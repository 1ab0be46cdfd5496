import JavaSyntax.Proofs.Appending
import JavaSyntax.Proofs.Joining
import JavaSyntax.Proofs.Locating

/-!
Two files of forms in one. If each of them is parsed without an error, so is the one text with a
line end and the other text behind it, to the forms of the one and those of the other. What was read
from the first text stands where it stood, and what was read from the second so many lines and bytes
further on.
-/

namespace JavaSyntax

open Diagnostic (Clean)
open Movable (move)

/-! Extents at every depth. -/

/-- All extents in a tree are of this kind, at every depth. -/
def Tree.EveryExtent (P : Extent → Prop) {c : Category} (tree : Tree c) : Prop :=
  tree.Every (fun _ {_} _ => ()) (fun _ {_} t => ∀ e ∈ t.extent?, P e) ()

/-- All extents in a form are of this kind, at every depth. -/
def TopLevel.EveryExtent (P : Extent → Prop) : TopLevel → Prop
  | .type decl => decl.EveryExtent P
  | .empty e | .erroneous e => P e

theorem Read.everyExtent {setting : Setting} {ctx : Context} {s t first last : State}
    {c : Category} {tree : Tree c} (h : Read setting ctx s tree t) {P : Extent → Prop}
    (hP : ∀ e, Stretch setting first e last → P e) (hfirst : Reaches setting first s)
    (hlast : Reaches setting t last) : tree.EveryExtent P := by
  have hhere {s t : State} {ctx : Context} {c : Category} {tree : Tree c}
      (h : Read setting ctx s tree t) (hfirst : Reaches setting first s)
      (hlast : Reaches setting t last) : ∀ e ∈ tree.extent?, P e :=
    fun e he => hP e ((h.stretch he).between hfirst hlast)
  induction h with
  | nil way =>
    exact .mk (hhere (@Read.nil setting .plain _ _ _ way) hfirst hlast) fun p hp => by cases hp
  | cons head rest ih ih' =>
    refine .mk (hhere (.cons head rest) hfirst hlast) fun p hp => ?_
    rcases List.mem_cons.mp hp with rfl | hp
    · exact ih hfirst (rest.reaches.trans hlast)
    · cases List.mem_singleton.mp hp
      exact ih' (hfirst.trans head.reaches) hlast
  | none way =>
    exact .mk (hhere (@Read.none setting .plain _ _ _ way) hfirst hlast) fun p hp => by cases hp
  | some here ih =>
    refine .mk (hhere (.some here) hfirst hlast) fun p hp => ?_
    cases List.mem_singleton.mp hp
    exact ih hfirst hlast
  | node isNode before way after extent fits sits parts ih =>
    exact .mk (hhere (.node isNode before way after extent fits sits parts) hfirst hlast)
      fun p hp => ih p hp (hfirst.trans before) (after.trans hlast)

theorem Listed.everyExtent {setting : Setting} {s t first last : State} {items : List UnitItem}
    (h : Listed setting s items t) {P : Extent → Prop}
    (hP : ∀ e, Stretch setting first e last → P e) (hfirst : Reaches setting first s)
    (hlast : Reaches setting t last) {form : TopLevel} (hform : .form form ∈ items) :
    form.EveryExtent P := by
  induction h with
  | nil atEnd => cases hform
  | @cons s m t item items head rest ih =>
    rcases List.mem_cons.mp hform with rfl | hform
    · have hlast' := rest.reaches.trans hlast
      have hextent := hP _ (head.stretch.between hfirst hlast')
      cases form with
      | type decl =>
        exact (head.parts ⟨_, decl⟩ List.mem_cons_self).everyExtent hP hfirst hlast'
      | empty e | erroneous e => exact hextent
    · exact ih (hfirst.trans head.reaches) hlast hform

/-! Offsets and spans. -/

section Texts

variable {first front second whole : Source} {words : List Word}
  (h : LexesTo false first.text words) (hfront : front.text = first.text ++ "\n")
  (hwhole : whole.text = front.text ++ second.text)

include h hfront hwhole

theorem whole_tokens : tokensOf whole.text =
    tokensOf first.text ++ (tokensOf second.text).map (Token.shift front.size) := by
  have htokens := tokensOf_joined h second.text
  rw [← hfront, ← hwhole] at htokens
  exact htokens

/-- The second text stands behind the first one and its line end. -/
theorem offset_move (m : Mark) : (Layout.bare whole).offset (m.move (tokensOf first.text).length) =
    (Layout.bare second).offset m + front.size := by
  have hsize : whole.size = second.size + front.size := by
    rw [Source.size, hwhole, String.utf8ByteSize_append, Nat.add_comm]
    rfl
  have htokens (i : Nat) : (Layout.bare whole).tokens[i + (tokensOf first.text).length]? =
      (Layout.bare second).tokens[i]?.map (Token.shift front.size) := by
    rw [Layout.bare_tokens, Layout.bare_tokens, whole_tokens h hfront hwhole,
      List.getElem?_append_right (Nat.le_add_left ..), Nat.add_sub_cancel, List.getElem?_map]
  cases m with
  | before i bytes =>
    rw [Mark.move, Layout.offset, Layout.offset, htokens]
    cases (Layout.bare second).tokens[i]? with
    | none => exact hsize
    | some token => exact Nat.add_right_comm ..
  | after i =>
    rw [Mark.move, Layout.offset, Layout.offset, htokens]
    cases (Layout.bare second).tokens[i]? with
    | none => exact hsize
    | some token => rfl
  | eof => exact hsize

theorem span_move (e : Extent) :
    (Layout.bare whole).span (e.move (tokensOf first.text).length) =
      ((Layout.bare second).span e).shift (front.lineCount - 1) front.size := by
  unfold Layout.span
  rw [Extent.move, offset_move h hfront hwhole, offset_move h hfront hwhole]
  have hlocation := Source.locationAt_behind hfront hwhole
  exact congrArg₂ Span.mk (hlocation _) (hlocation _)

/-- The tokens of the first text come first. -/
theorem offset_front {i : Nat} {token : Token}
    (htoken : (Layout.bare first).tokens[i]? = some token) (bytes : Nat) :
    (Layout.bare whole).offset (.before i bytes) = (Layout.bare first).offset (.before i bytes) ∧
      (Layout.bare whole).offset (.after i) = (Layout.bare first).offset (.after i) := by
  have hlt : i < (tokensOf first.text).length := by
    rw [Layout.bare_tokens] at htoken
    exact (List.getElem?_eq_some_iff.mp htoken).1
  have hsame : (Layout.bare whole).tokens[i]? = (Layout.bare first).tokens[i]? := by
    rw [Layout.bare_tokens, Layout.bare_tokens, whole_tokens h hfront hwhole,
      List.getElem?_append_left hlt]
  simp only [Layout.offset, hsame, htoken]
  exact ⟨rfl, rfl⟩

omit h in
/-- A place in the first text that is not its end, or is the end of a token, is where it was. -/
theorem location_front {offset : Nat} (hbound : first.Boundary offset)
    (hplace : offset < first.size ∨ ∃ t ∈ tokensOf first.text, t.stop = offset) :
    whole.locationAt offset = first.locationAt offset := by
  rcases hplace with hlt | ⟨t, ht, rfl⟩
  · obtain ⟨before, after, htext, rfl⟩ := hbound
    refine Source.locationAt_before htext hfront hwhole fun _ hnil => ?_
    rw [Source.size, ← byteLength_toList, htext, hnil, List.append_nil] at hlt
    exact Nat.lt_irrefl _ hlt
  · obtain ⟨before, after, htext, hstart, hstop⟩ := tokensOf_lie ht
    obtain ⟨item, hitem, htoken⟩ := List.mem_filterMap.mp ht
    cases item with
    | flawed _ => cases htoken
    | token t =>
      cases htoken
      obtain ⟨body, d, hbody, hd⟩ := Lexer.items_last hitem
      rw [hstop, hstart, ← byteLength_append]
      refine Source.locationAt_before htext hfront hwhole fun hlast => ?_
      rw [hbody, ← List.append_assoc, List.getLast?_concat] at hlast
      cases hlast
      cases hd

/-- What was taken from the first text stands where it stood. -/
theorem span_front {settings : Settings} {s t : State} {e : Extent}
    (he : Stretch (Session.start settings first).setting s e t)
    (hs : Fine (Session.start settings first).layout s) :
    (Layout.bare whole).span e = (Layout.bare first).span e := by
  have hsound := he.sound hs.placed hs.tiled
  obtain ⟨s₁, s₂, hfirst, hway, -, rfl, hlt⟩ := he
  have hs₁ := hs.placed.reaches hfirst
  have hs₂ := hs₁.reaches hway
  have hcount := hs₁.count
  have hcount' := hs₂.count
  have hmark : s₁.mark = .before s₁.index s₁.taken := by
    cases hahead : s₁.ahead with
    | nil =>
      rw [State.left, hahead, List.length_nil] at hcount
      omega
    | cons x rest => simp [State.mark, State.view, View.mark, hahead]
  have htoken {i : Nat} (hi : i < (Session.start settings first).layout.tokens.size) :
      ∃ token, (Layout.bare first).tokens[i]? = some token := by
    rw [← start_tokens settings first i, Array.getElem?_eq_getElem hi]
    exact ⟨_, rfl⟩
  obtain ⟨a, ha⟩ := htoken (i := s₁.index) (by omega)
  obtain ⟨b, hb⟩ := htoken (i := s₂.index - 1) (by omega)
  rw [State.upTo_eq hs₁ hs₂ hlt, hmark] at hsound ⊢
  obtain ⟨hstart, hstop, hle⟩ := hsound
  rw [offset_start] at hstart hstop
  have hend : (Layout.bare first).offset (.after (s₂.index - 1)) = b.stop := by
    simp [Layout.offset, hb]
  rw [offset_start, offset_start] at hle
  dsimp only at hle
  rw [hend] at hle
  have hmem : b ∈ tokensOf first.text := by
    rw [Layout.bare_tokens] at hb
    exact List.mem_of_getElem? hb
  have hplace : (Layout.bare first).offset (.before s₁.index s₁.taken) < first.size ∨
      ∃ t ∈ tokensOf first.text,
        t.stop = (Layout.bare first).offset (.before s₁.index s₁.taken) := by
    by_cases hsize : (Layout.bare first).offset (.before s₁.index s₁.taken) < first.size
    · exact .inl hsize
    · have hstopLe := stop_le_of_mem hmem
      have hsizeEq : first.size = first.text.utf8ByteSize := rfl
      exact .inr ⟨b, hmem, by omega⟩
  unfold Layout.span
  rw [(offset_front h hfront hwhole ha s₁.taken).1, (offset_front h hfront hwhole hb 0).2]
  exact congrArg₂ Span.mk (location_front hfront hwhole hstart.boundary hplace)
    (location_front hfront hwhole hstop (.inr ⟨b, hmem, hend.symm⟩))

end Texts

namespace Session

variable {settings : Settings} {source : Source}

theorem start_atStart {words : List Word} (h : LexesTo false source.text words) :
    (start settings source).AtStart := by
  have hstate := @start_state settings source words h
  exact ⟨by rw [hstate], by rw [hstate], by rw [hstate]; exact ⟨rfl, rfl⟩⟩

/-- Two files of forms in one. If two texts are parsed without an error, and neither has a package,
an import or a module, then so is the one with a line end and the other behind it. Its forms are
those of the one and then those of the other, moved past the tokens of the first text. Every span in
the forms of the first stays what it was, every span of the second is as many lines and bytes
further on as the first text and the line end take up. -/
theorem unit_composes (settings : Settings) (name first second : String) :
    let one := start settings (.ofText name first)
    let other := start settings (.ofText name second)
    let both := start settings (.ofText name (first ++ "\n" ++ second))
    let front := Source.ofText name (first ++ "\n")
    Clean one.unit.2.diagnostics → one.unit.1.OnlyForms →
    Clean other.unit.2.diagnostics → other.unit.1.OnlyForms →
      Clean both.unit.2.diagnostics ∧ both.unit.1.OnlyForms ∧
      both.unit.1.forms =
        one.unit.1.forms ++ move (tokensOf first).length other.unit.1.forms ∧
      (∀ form ∈ one.unit.1.forms,
        form.EveryExtent fun e => both.layout.span e = one.layout.span e) ∧
      ∀ e, both.layout.span (e.move (tokensOf first).length) =
        (other.layout.span e).shift (front.lineCount - 1) front.size := by
  intro one other both front hclean hforms hclean' hforms'
  obtain ⟨words, hlexes⟩ := lexesTo_of_clean_unit hclean
  obtain ⟨words', hlexes'⟩ := lexesTo_of_clean_unit hclean'
  have hboth : LexesTo false (first ++ "\n" ++ second) (words ++ words') :=
    lexesTo_joined hlexes hlexes'
  have hfine : Fine one.layout one.state := start_fine ..
  have hahead : both.state.ahead = one.state.ahead ++ other.state.ahead := by
    rw [start_ahead, start_ahead, start_ahead]
    exact symbols_joined hlexes second
  have hlength : one.state.ahead.length = (tokensOf first).length := by
    rw [start_ahead]
    exact Layout.length_symbolsFrom ..
  have hone : one.AtStart := start_atStart hlexes
  have hother : other.AtStart := start_atStart hlexes'
  have hwholeStart : both.AtStart := start_atStart hboth
  have hfresh₁ := isFresh_of_clean (after_unit one) hclean
  have hfresh₂ := isFresh_of_clean (after_unit other) hclean'
  obtain ⟨hfresh, hunit⟩ := unit_append hone hother hwholeStart hfine hahead hfresh₁ hfresh₂ hforms
    hforms'
  rw [hlength] at hunit
  have hwhole : (Source.ofText name (first ++ "\n" ++ second)).text =
      front.text ++ (Source.ofText name second).text := rfl
  refine ⟨clean_of_isFresh (after_unit _) hfresh, ?_, ?_, fun form hform => ?_, fun e => ?_⟩
  · rw [hunit]
    exact ⟨rfl, rfl, rfl⟩
  · rw [hunit]
    rfl
  · refine (unit_listed hfine).everyExtent (fun e he => ?_) (.refl _) (.refl _)
      (List.mem_append_right _ (List.mem_map_of_mem hform))
    rw [span_start, span_start]
    exact span_front hlexes rfl hwhole he hfine
  · rw [span_start, span_start]
    exact span_move hlexes rfl hwhole e

/-- Two classes with a carriage return between them, which is one line end with the line feed behind
it. So the second class is one line and 24 bytes further on. -/
theorem unit_composes_classes :
    let one := start .standard (.ofText "A.java" "class A { int x = 1; }\r")
    let other := start .standard (.ofText "A.java" "// next\nclass B { }")
    let both := start .standard (.ofText "A.java"
      ("class A { int x = 1; }\r" ++ "\n" ++ "// next\nclass B { }"))
    let count := (tokensOf "class A { int x = 1; }\r").length
    Clean one.unit.2.diagnostics ∧ one.unit.1.OnlyForms ∧ one.unit.1.forms.length = 1 ∧
      Clean other.unit.2.diagnostics ∧ other.unit.1.OnlyForms ∧ other.unit.1.forms.length = 1 ∧
      Clean both.unit.2.diagnostics ∧
      both.unit.1.forms = one.unit.1.forms ++ move count other.unit.1.forms ∧
      ∀ e, both.layout.span (e.move count) = (other.layout.span e).shift 1 24 := by
  intro one other both count
  have hclean : Clean one.unit.2.diagnostics := by
    unfold Clean
    decide
  have hclean' : Clean other.unit.2.diagnostics := by
    unfold Clean
    decide
  have hforms : one.unit.1.OnlyForms :=
    ⟨Option.isNone_iff_eq_none.mp (by decide), List.isEmpty_iff.mp (by decide),
      Option.isNone_iff_eq_none.mp (by decide)⟩
  have hforms' : other.unit.1.OnlyForms :=
    ⟨Option.isNone_iff_eq_none.mp (by decide), List.isEmpty_iff.mp (by decide),
      Option.isNone_iff_eq_none.mp (by decide)⟩
  have hone : one.unit.1.forms.length = 1 := by decide
  have hother : other.unit.1.forms.length = 1 := by decide
  have hlines :
      (Source.ofText "A.java" ("class A { int x = 1; }\r" ++ "\n")).lineCount - 1 = 1 := by
    decide
  have hsize : (Source.ofText "A.java" ("class A { int x = 1; }\r" ++ "\n")).size = 24 := by
    decide
  obtain ⟨hboth, -, hmoved, -, hspan⟩ := unit_composes .standard "A.java"
    "class A { int x = 1; }\r" "// next\nclass B { }" hclean hforms hclean' hforms'
  rw [hlines, hsize] at hspan
  subst one other both count
  exact ⟨hclean, hforms, hone, hclean', hforms', hother, hboth, hmoved, hspan⟩

end Session

end JavaSyntax
