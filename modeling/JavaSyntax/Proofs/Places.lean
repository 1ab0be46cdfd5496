import JavaSyntax.Proofs.Steps

/-!
Where the marks of a parse lie in its text. The tokens of a layout stand one behind the other on
character boundaries; a state knows which token it is in front of, and how much of it was taken off
already. So the marks that rules make lie on boundaries too, and later states have later marks.
-/

namespace JavaSyntax

theorem byteLength_append (cs ds : List Char) :
    byteLength (cs ++ ds) = byteLength cs + byteLength ds := by
  induction cs with
  | nil => exact (Nat.zero_add _).symm
  | cons c cs ih => simp only [List.cons_append, byteLength, ih, Nat.add_assoc]

theorem byteLength_toList (text : String) : byteLength text.toList = text.utf8ByteSize := by
  have h : ∀ cs : List Char, byteLength cs = (String.ofList cs).utf8ByteSize := by
    intro cs
    induction cs with
    | nil => simp [byteLength]
    | cons c cs ih =>
      rw [byteLength, ih, ← String.utf8ByteSize_singleton, ← String.utf8ByteSize_append]
      congr 1
      simp
  rw [h, String.ofList_toList]

/-- A character of the text starts at this byte, or the text ends there. -/
def Source.Boundary (source : Source) (offset : Nat) : Prop :=
  ∃ before after, source.text.toList = before ++ after ∧ offset = byteLength before

namespace Source.Boundary

variable {source : Source} {offset : Nat}

theorem le_size (h : source.Boundary offset) : offset ≤ source.size := by
  obtain ⟨before, after, htext, rfl⟩ := h
  rw [Source.size, ← byteLength_toList, htext, byteLength_append]
  exact Nat.le_add_right ..

theorem zero (source : Source) : source.Boundary 0 := ⟨[], _, rfl, rfl⟩

theorem size (source : Source) : source.Boundary source.size :=
  ⟨source.text.toList, [], (List.append_nil _).symm, (byteLength_toList _).symm⟩

end Source.Boundary

/-- A caret can stand here: on a boundary that is not between the two halves of a line end. -/
def Source.Visible (source : Source) (offset : Nat) : Prop :=
  ∃ before after, source.text.toList = before ++ after ∧ offset = byteLength before ∧
    (before.getLast? = some '\r' → after.head? ≠ some '\n')

namespace Source.Visible

variable {source : Source} {offset : Nat}

theorem boundary (h : source.Visible offset) : source.Boundary offset := by
  obtain ⟨before, after, htext, hoffset, _⟩ := h
  exact ⟨before, after, htext, hoffset⟩

theorem size (source : Source) : source.Visible source.size :=
  ⟨source.text.toList, [], (List.append_nil _).symm, (byteLength_toList _).symm, fun _ => nofun⟩

end Source.Visible

/-- The kind of a token without its first `n` angle brackets. -/
def afterAngles : Nat → Kind → Option Kind
  | 0, k => some k
  | n + 1, k => (afterAngles n k).bind State.afterAngle

theorem spelling_of_afterAngle {k l : Kind} (h : State.afterAngle k = some l) :
    k.spelling.toList = '>' :: l.spelling.toList := by
  cases k <;> cases h <;> decide

theorem spelling_of_afterAngles {n : Nat} {k l : Kind} (h : afterAngles n k = some l) :
    k.spelling.toList = List.replicate n '>' ++ l.spelling.toList := by
  induction n generalizing l with
  | zero =>
    cases h
    rfl
  | succ n ih =>
    obtain ⟨m, hm, hl⟩ := Option.bind_eq_some_iff.mp h
    rw [ih hm, spelling_of_afterAngle hl, List.replicate_succ', List.append_assoc]
    rfl

theorem isSome_afterAngle_of_afterAngles {n : Nat} {k l : Kind}
    (h : afterAngles (n + 1) k = some l) :
    (State.afterAngle k).isSome = true := by
  induction n generalizing l with
  | zero => exact Option.isSome_iff_exists.mpr ⟨l, h⟩
  | succ n ih =>
    obtain ⟨m, hm, -⟩ := Option.bind_eq_some_iff.mp h
    exact ih hm

theorem byteLength_replicate_angle (n : Nat) : byteLength (List.replicate n '>') = n := by
  induction n with
  | zero => rfl
  | succ n ih =>
    rw [List.replicate_succ, byteLength, ih, Nat.add_comm]
    rfl

/-- The tokens of a layout stand in its text, in order and apart. -/
structure Layout.Tiled (layout : Layout) : Prop where
  cut : ∀ token ∈ layout.tokens.toList, ∃ before after,
    layout.source.text.toList = before ++ token.text.toList ++ after ∧
      token.start = byteLength before ∧ token.stop = token.start + byteLength token.text.toList
  ordered : layout.tokens.toList.Pairwise fun a b => a.stop ≤ b.start
  taking : ∀ token ∈ layout.tokens.toList, token.start < token.stop
  /-- What angle brackets are taken off is written in full. -/
  angles : ∀ token ∈ layout.tokens.toList, (State.afterAngle token.kind).isSome = true →
    token.text = token.kind.spelling
  /-- No line end reaches into a token. -/
  edges : ∀ token ∈ layout.tokens.toList,
    token.text.toList.head? ≠ some '\n' ∧ token.text.toList.getLast? ≠ some '\r'

namespace Layout.Tiled

variable {layout : Layout} {i j : Nat} {a b token : Token}

theorem mem (h : layout.tokens[i]? = some token) : token ∈ layout.tokens.toList := by
  rw [← Array.getElem?_toList] at h
  exact List.mem_of_getElem? h

theorem stop_le_start (ht : layout.Tiled) (ha : layout.tokens[i]? = some a)
    (hb : layout.tokens[j]? = some b) (hij : i < j) : a.stop ≤ b.start := by
  rw [← Array.getElem?_toList] at ha hb
  obtain ⟨hi, rfl⟩ := List.getElem?_eq_some_iff.mp ha
  obtain ⟨hj, rfl⟩ := List.getElem?_eq_some_iff.mp hb
  exact List.pairwise_iff_getElem.mp ht.ordered i j hi hj hij

theorem start_lt_stop (ht : layout.Tiled) (h : layout.tokens[i]? = some token) :
    token.start < token.stop :=
  ht.taking token (mem h)

theorem inside_le_stop (ht : layout.Tiled) (h : layout.tokens[i]? = some token)
    {front back : List Char} (htext : token.text.toList = front ++ back) :
    token.start + byteLength front ≤ token.stop := by
  obtain ⟨_, _, _, _, hstop⟩ := ht.cut token (mem h)
  rw [hstop, htext, byteLength_append]
  omega

theorem text_ne_nil (ht : layout.Tiled) (h : layout.tokens[i]? = some token) :
    token.text.toList ≠ [] := by
  intro hnil
  obtain ⟨_, _, _, _, hstop⟩ := ht.cut token (mem h)
  have hlt := ht.start_lt_stop h
  simp [hstop, hnil, byteLength] at hlt

/-- Inside a token only a line end that it holds could be cut in two. -/
theorem visible_inside (ht : layout.Tiled) (h : layout.tokens[i]? = some token)
    {front back : List Char} (htext : token.text.toList = front ++ back)
    (hends : front.getLast? = some '\r' → back.head? ≠ some '\n') :
    layout.source.Visible (token.start + byteLength front) := by
  obtain ⟨before, after, hcut, hstart, _⟩ := ht.cut token (mem h)
  obtain ⟨hhead, hlast⟩ := ht.edges token (mem h)
  refine ⟨before ++ front, back ++ after, ?_, ?_, fun hbefore => ?_⟩
  · rw [hcut, htext]
    simp
  · rw [byteLength_append, hstart]
  · rcases List.eq_nil_or_concat' front with rfl | ⟨init, c, rfl⟩
    · rw [List.nil_append] at htext
      rw [List.head?_append_of_ne_nil _ (htext ▸ ht.text_ne_nil h), ← htext]
      exact hhead
    · rw [← List.append_assoc, List.getLast?_concat] at hbefore
      rw [List.getLast?_concat] at hends
      cases back with
      | nil =>
        rw [List.append_nil] at htext
        rw [htext, List.getLast?_concat] at hlast
        exact absurd hbefore hlast
      | cons d back => exact hends hbefore

theorem visible_stop (ht : layout.Tiled) (h : layout.tokens[i]? = some token) :
    layout.source.Visible token.stop := by
  obtain ⟨_, _, _, _, hstop⟩ := ht.cut token (mem h)
  rw [hstop]
  exact ht.visible_inside h (List.append_nil _).symm fun _ => nofun

theorem boundary_stop (ht : layout.Tiled) (h : layout.tokens[i]? = some token) :
    layout.source.Boundary token.stop :=
  (ht.visible_stop h).boundary

theorem stop_le_stop (ht : layout.Tiled) (ha : layout.tokens[i]? = some a)
    (hb : layout.tokens[j]? = some b) (hij : i ≤ j) : a.stop ≤ b.stop := by
  rcases Nat.lt_or_eq_of_le hij with hlt | rfl
  · have hstart := ht.stop_le_start ha hb hlt
    have hstop := ht.start_lt_stop hb
    omega
  · cases Option.some.inj (ha.symm.trans hb)
    exact Nat.le_refl _

end Layout.Tiled

namespace Layout

theorem length_symbolsFrom (last : Option Nat) (tokens : List Token) :
    (symbolsFrom last tokens).length = tokens.length := by
  induction tokens generalizing last with
  | nil => rfl
  | cons t rest ih => exact congrArg (· + 1) (ih _)

theorem length_symbols (layout : Layout) : layout.symbols.length = layout.tokens.size :=
  length_symbolsFrom ..

theorem symbolsFrom_getElem? {last : Option Nat} {tokens : List Token} {i : Nat} {symbol : Symbol}
    (h : (symbolsFrom last tokens)[i]? = some symbol) :
    ∃ token, tokens[i]? = some token ∧ token.kind = symbol.kind ∧ token.text = symbol.text := by
  induction tokens generalizing last i with
  | nil => cases h
  | cons t rest ih =>
    cases i with
    | zero =>
      cases h
      exact ⟨t, rfl, rfl, rfl⟩
    | succ i => exact ih h

/-- A stretch between two boundaries that does not run backwards and that a caret can point at. -/
def Sound (layout : Layout) (e : Extent) : Prop :=
  layout.source.Visible (layout.offset e.start) ∧
    layout.source.Boundary (layout.offset e.stop) ∧ layout.offset e.start ≤ layout.offset e.stop

theorem sound_point {layout : Layout} {m : Mark} (h : layout.source.Visible (layout.offset m)) :
    layout.Sound (.point m) :=
  ⟨h, h.boundary, Nat.le_refl _⟩

theorem sound_eof (layout : Layout) : layout.Sound (.point .eof) :=
  sound_point (.size layout.source)

/-- A token has no value for this reason, and the reason is at this offset of the text. -/
def Blames (layout : Layout) (error : LiteralError) (offset : Nat) : Prop :=
  ∃ token ∈ layout.tokens.toList, ∃ joined negated,
    Grammar.literalValue ⟨token.kind, token.text, joined⟩ negated = some (.error error) ∧
      offset = token.start + error.offset?.getD 0

/-- An error that lies in the text; a fault of a literal is at its culprit. -/
structure Told (layout : Layout) (error : SyntaxError) : Prop where
  sound : layout.Sound error.extent
  blames : ∀ e, error.fault = .literal e → layout.Blames e (layout.offset error.extent.start)

theorem Sound.told {layout : Layout} {fault : Fault} {extent : Extent} (h : layout.Sound extent)
    (hplain : ∀ e, fault ≠ .literal e) : layout.Told ⟨fault, extent⟩ :=
  ⟨h, fun e he => absurd he (hplain e)⟩

end Layout

namespace State

@[simp] theorem taken_record (s : State) (source : Source) (fault : Fault) (start stop : Nat) :
    (s.record source fault start stop).taken = s.taken := by
  unfold record
  dsimp only
  split <;> rfl

@[simp] theorem taken_deprecation (s : State) (setting : Setting) (doc : Option Mark)
    (name : Extent) : (s.deprecation setting doc name).taken = s.taken := by
  unfold deprecation
  split <;> rfl

def mark (s : State) : Mark := (s.view false).mark

/-- The token that documentation is taken from. -/
def doc (s : State) : Option Mark := (s.view false).doc

/-- From the mark of a state up to the last token taken at a later one. -/
def upTo (s t : State) : Extent := (t.view false).since s.mark

theorem upTo_congr {s t u : State} (h : t.index = u.index) : s.upTo t = s.upTo u := by
  have hview : (t.view false).index = (u.view false).index := h
  unfold upTo View.since
  rw [hview]

end State

/-- The state is in front of the token it counts, of which some angle brackets may be gone. -/
structure Placed (layout : Layout) (s : State) : Prop where
  count : s.index + s.left = layout.tokens.size
  head : ∀ symbol ∈ s.ahead.head?, ∃ token, layout.tokens[s.index]? = some token ∧
    afterAngles s.taken token.kind = some symbol.kind ∧ (s.taken = 0 → token.text = symbol.text)
  tail : s.ahead.tail = layout.symbols.drop (s.index + 1)

namespace Placed

variable {layout : Layout} {setting : Setting} {s t : State}

/-- Where a whole token comes next, nothing was taken off it. -/
theorem taken_of_startsWhole (h : Placed layout s) (hnext : Lookahead.startsWhole s.ahead = true) :
    s.taken = 0 := by
  cases htaken : s.taken with
  | zero => rfl
  | succ n =>
    obtain ⟨x, hx, hwhole⟩ := (Option.any_eq_true _ _).mp hnext
    obtain ⟨token, _, hkind, _⟩ := h.head x hx
    rw [htaken] at hkind
    obtain ⟨k, _, hk⟩ := Option.bind_eq_some_iff.mp hkind
    simp [isRemainder_of_afterAngle hk] at hwhole

theorem of_fields (h : Placed layout s) (hahead : t.ahead = s.ahead) (hindex : t.index = s.index)
    (htaken : t.taken = s.taken) : Placed layout t := by
  refine ⟨?_, ?_, ?_⟩
  · rw [hindex, State.left, hahead]
    exact h.count
  · rw [hahead, hindex, htaken]
    exact h.head
  · rw [hahead, hindex]
    exact h.tail

theorem advance (h : Placed layout s) (n : Nat) : Placed layout (s.advance n) := by
  cases n with
  | zero => exact h
  | succ n =>
    have hcount := s.moved_advance (n + 1)
    have hdrop : s.ahead.drop (n + 1) = layout.symbols.drop (s.index + 1 + n) := by
      rw [← List.drop_tail, h.tail, List.drop_drop]
    have hlength := h.count
    rw [State.left] at hlength
    by_cases hle : n + 1 ≤ s.ahead.length
    · have hindex : (s.advance (n + 1)).index = s.index + 1 + n := by
        show s.index + min (n + 1) s.ahead.length = _
        omega
      refine ⟨by rw [hcount, h.count], ?_, ?_⟩
      · intro symbol hsymbol
        have hget : layout.symbols[s.index + 1 + n]? = some symbol := by
          rw [← List.head?_drop, ← hdrop]
          exact hsymbol
        obtain ⟨token, htoken, hkind, htext⟩ := Layout.symbolsFrom_getElem? hget
        rw [Array.getElem?_toList] at htoken
        exact ⟨token, hindex ▸ htoken, congrArg some hkind, fun _ => htext⟩
      · show (s.ahead.drop (n + 1)).tail = _
        rw [hindex, hdrop, List.tail_drop]
    · have hnil : s.ahead.drop (n + 1) = [] := List.drop_eq_nil_of_le (by omega)
      have hindex : (s.advance (n + 1)).index = layout.tokens.size := by
        show s.index + min (n + 1) s.ahead.length = _
        omega
      refine ⟨by rw [hcount, h.count], ?_, ?_⟩
      · intro symbol hsymbol
        have hnone : (s.ahead.drop (n + 1)).head? = some symbol := hsymbol
        rw [hnil] at hnone
        cases hnone
      · show (s.ahead.drop (n + 1)).tail = _
        rw [hnil, hindex, List.drop_eq_nil_of_le (by rw [layout.length_symbols]; omega)]
        rfl

theorem splitAngle (h : Placed layout s) : Placed layout s.splitAngle := by
  have hcount : s.splitAngle.index + s.splitAngle.left = layout.tokens.size := by
    rw [State.index_splitAngle, State.left_splitAngle]
    exact h.count
  refine ⟨hcount, ?_, ?_⟩
  · cases hahead : s.ahead with
    | nil => simp [State.splitAngle, hahead]
    | cons x rest =>
      obtain ⟨token, htoken, hkind, htext⟩ := h.head x (by simp [hahead])
      cases hafter : State.afterAngle x.kind with
      | none =>
        have hsame : s.splitAngle = s := by simp [State.splitAngle, hahead, hafter]
        rw [hsame]
        exact h.head
      | some k =>
        simp only [State.splitAngle, hahead, hafter, List.head?_cons, Option.mem_some_iff]
        rintro symbol rfl
        refine ⟨token, htoken, ?_, fun hzero => absurd hzero (Nat.succ_ne_zero _)⟩
        show (afterAngles s.taken token.kind).bind State.afterAngle = some k
        rw [hkind]
        exact hafter
  · have htail : s.splitAngle.ahead.tail = s.ahead.tail := by
      unfold State.splitAngle
      split
      · rfl
      · split
        · rfl
        · rename_i heq _ _ _
          simp [heq]
    rw [htail, State.index_splitAngle]
    exact h.tail

theorem record (h : Placed layout s) (source : Source) (fault : Fault) (start stop : Nat) :
    Placed layout (s.record source fault start stop) :=
  h.of_fields (State.ahead_record ..) (State.index_record ..) (State.taken_record ..)

theorem deprecation (h : Placed layout s) (doc : Option Mark) (name : Extent) :
    Placed layout (s.deprecation setting doc name) :=
  h.of_fields (State.ahead_deprecation ..) (State.index_deprecation ..) (State.taken_deprecation ..)

theorem kept (setting : Setting) (layout : Layout) : Kept setting (Placed layout) where
  advance _ n h := h.advance n
  splitAngle _ h := h.splitAngle
  record _ fault start stop h := h.record _ fault start stop
  deprecation _ doc name h := h.deprecation doc name

theorem reaches (h : Placed layout s) (hr : Reaches setting s t) : Placed layout t :=
  hr.kept (kept setting layout) h

/-- What was taken off the next token is a front part of its text. -/
theorem taken_eq (h : Placed layout s) (ht : layout.Tiled) {x : Symbol} {rest : List Symbol}
    (hahead : s.ahead = x :: rest) :
    ∃ token back, layout.tokens[s.index]? = some token ∧
      token.text.toList = List.replicate s.taken '>' ++ back := by
  obtain ⟨token, htoken, hkind, _⟩ := h.head x (by simp [hahead])
  cases htaken : s.taken with
  | zero => exact ⟨token, token.text.toList, htoken, rfl⟩
  | succ n =>
    rw [htaken] at hkind
    refine ⟨token, x.kind.spelling.toList, htoken, ?_⟩
    rw [ht.angles token (Layout.Tiled.mem htoken) (isSome_afterAngle_of_afterAngles hkind)]
    exact spelling_of_afterAngles hkind

theorem offset_mark (h : Placed layout s) (ht : layout.Tiled) :
    (s.ahead = [] ∧ layout.offset s.mark = layout.source.size) ∨
      ∃ token, layout.tokens[s.index]? = some token ∧
        layout.offset s.mark = token.start + s.taken ∧
        layout.source.Visible (layout.offset s.mark) ∧ layout.offset s.mark ≤ token.stop := by
  cases hahead : s.ahead with
  | nil => exact .inl ⟨rfl, by simp [State.mark, State.view, View.mark, hahead, Layout.offset]⟩
  | cons x rest =>
    obtain ⟨token, back, htoken, htext⟩ := h.taken_eq ht hahead
    have hmark : layout.offset s.mark = token.start + s.taken := by
      simp [State.mark, State.view, View.mark, hahead, Layout.offset, htoken]
    have hangle : (List.replicate s.taken '>').getLast? ≠ some '\r' := fun hlast =>
      absurd (List.eq_of_mem_replicate (List.mem_of_getLast? hlast)) (by decide)
    have hvisible := ht.visible_inside htoken htext fun hlast => absurd hlast hangle
    have hle := ht.inside_le_stop htoken htext
    rw [byteLength_replicate_angle, ← hmark] at hvisible hle
    exact .inr ⟨token, htoken, hmark, hvisible, hle⟩

theorem visible_mark (h : Placed layout s) (ht : layout.Tiled) :
    layout.source.Visible (layout.offset s.mark) := by
  rcases h.offset_mark ht with ⟨_, heof⟩ | ⟨_, _, _, hvisible, _⟩
  · rw [heof]
    exact .size _
  · exact hvisible

theorem boundary_mark (h : Placed layout s) (ht : layout.Tiled) :
    layout.source.Boundary (layout.offset s.mark) :=
  (h.visible_mark ht).boundary

theorem sound_mark (h : Placed layout s) (ht : layout.Tiled) : layout.Sound (.point s.mark) :=
  Layout.sound_point (h.visible_mark ht)

/-- The token that was taken last. -/
theorem last_token (h : Placed layout s) (hindex : 0 < s.index) :
    ∃ token, layout.tokens[s.index - 1]? = some token ∧
      layout.offset (.after (s.index - 1)) = token.stop := by
  have hcount := h.count
  have hlt : s.index - 1 < layout.tokens.size := by omega
  have htoken := Array.getElem?_eq_getElem hlt
  exact ⟨_, htoken, by simp [Layout.offset, htoken]⟩

theorem visible_after (h : Placed layout s) (ht : layout.Tiled) (hindex : 0 < s.index) :
    layout.source.Visible (layout.offset (.after (s.index - 1))) := by
  obtain ⟨token, htoken, hoffset⟩ := h.last_token hindex
  rw [hoffset]
  exact ht.visible_stop htoken

/-- A mark lies behind every token taken before. -/
theorem after_le_mark (h : Placed layout s) (ht : layout.Tiled) (hs : Placed layout t)
    (hindex : 0 < s.index) (hle : s.index ≤ t.index) :
    layout.offset (.after (s.index - 1)) ≤ layout.offset t.mark := by
  obtain ⟨token, htoken, hoffset⟩ := h.last_token hindex
  rw [hoffset]
  rcases hs.offset_mark ht with ⟨_, heof⟩ | ⟨next, hnext, hmark, _, _⟩
  · rw [heof]
    exact (ht.boundary_stop htoken).le_size
  · have hstart := ht.stop_le_start htoken hnext (by omega)
    omega

theorem mark_le_after (h : Placed layout s) (ht : layout.Tiled) (hs : Placed layout t)
    (hlt : s.index < t.index) :
    layout.offset s.mark ≤ layout.offset (.after (t.index - 1)) := by
  obtain ⟨token, htoken, hoffset⟩ := hs.last_token (by omega)
  rcases h.offset_mark ht with ⟨hnil, _⟩ | ⟨first, hfirst, _, _, hstop⟩
  · have hcount := h.count
    have hcount' := hs.count
    simp only [State.left, hnil, List.length_nil] at hcount
    omega
  · have hle := ht.stop_le_stop hfirst htoken (by omega)
    omega

theorem after_le_after (h : Placed layout s) (ht : layout.Tiled) (hs : Placed layout t)
    (hindex : 0 < s.index) (hle : s.index ≤ t.index) :
    layout.offset (.after (s.index - 1)) ≤ layout.offset (.after (t.index - 1)) := by
  obtain ⟨a, ha, hoffset⟩ := h.last_token hindex
  obtain ⟨b, hb, hoffset'⟩ := hs.last_token (by omega)
  rw [hoffset, hoffset']
  exact ht.stop_le_stop ha hb (by omega)

end Placed

section Marks

variable {setting : Setting} {layout : Layout} {s t : State}

theorem mark_eq_of_fields (hahead : t.ahead = s.ahead) (hindex : t.index = s.index)
    (htaken : t.taken = s.taken) : t.mark = s.mark := by
  simp [State.mark, State.view, View.mark, hahead, hindex, htaken]

/-- Each step leads to a mark that is no earlier. -/
theorem Step.mark_le (hstep : Step setting s t) (hs : Placed layout s) (ht : layout.Tiled) :
    layout.offset s.mark ≤ layout.offset t.mark := by
  have hplaced : Placed layout t := hs.reaches (.step hstep)
  rcases hs.offset_mark ht with ⟨hnil, heof⟩ | ⟨token, htoken, hmark, _, hstop⟩
  · -- At the end nothing moves the mark.
    have hend : t.ahead = [] := by
      have hsum := (Reaches.step hstep).beyond
      have hlen : s.left = 0 := by simp [State.left, hnil]
      exact List.eq_nil_of_length_eq_zero (by unfold Beyond State.left at *; omega)
    rcases hplaced.offset_mark ht with ⟨_, heof'⟩ | ⟨token, htoken, _⟩
    · rw [heof, heof']
    · have hcount := hplaced.count
      have hsize := (Array.getElem?_eq_some_iff.mp htoken).1
      simp only [State.left, hend, List.length_nil] at hcount
      omega
  · by_cases hindex : s.index < t.index
    · exact Nat.le_trans (hs.mark_le_after ht hplaced hindex)
        (hplaced.after_le_mark ht hplaced (by omega) (Nat.le_refl _))
    · have hsame : t.index = s.index := Nat.le_antisymm (by omega) (Reaches.step hstep).index_le
      have htaken : s.taken ≤ t.taken ∨ t.mark = s.mark := by
        cases hstep with
        | advance n =>
          cases n with
          | zero => exact .inr rfl
          | succ n =>
            have hsize := (Array.getElem?_eq_some_iff.mp htoken).1
            have hcount := hs.count
            have hmoved : s.index + min (n + 1) s.left = s.index := hsame
            omega
        | splitAngle =>
          left
          unfold State.splitAngle
          split
          · exact Nat.le_refl _
          · split
            · exact Nat.le_refl _
            · exact Nat.le_succ _
        | record fault start stop =>
          exact .inr (mark_eq_of_fields (State.ahead_record ..) (State.index_record ..)
            (State.taken_record ..))
        | deprecation doc name =>
          exact .inr (mark_eq_of_fields (State.ahead_deprecation ..) (State.index_deprecation ..)
            (State.taken_deprecation ..))
      rcases htaken with htaken | hequal
      · rcases hplaced.offset_mark ht with ⟨_, heof⟩ | ⟨token', htoken', hmark', _⟩
        · rw [heof]
          exact (hs.boundary_mark ht).le_size
        · rw [hsame] at htoken'
          cases Option.some.inj (htoken.symm.trans htoken')
          omega
      · rw [hequal]

theorem Reaches.mark_le (hr : Reaches setting s t) (hs : Placed layout s) (ht : layout.Tiled) :
    layout.offset s.mark ≤ layout.offset t.mark := by
  induction hr with
  | refl => exact Nat.le_refl _
  | tail hr hstep ih => exact Nat.le_trans ih (hstep.mark_le (hs.reaches hr) ht)

/-- A state in front of another is in front of a token. -/
theorem Placed.isEmpty_ahead (hs : Placed layout s) (ht : Placed layout t)
    (hlt : s.index < t.index) : s.ahead.isEmpty = false := by
  have hcount := hs.count
  have hcount' := ht.count
  cases hahead : s.ahead with
  | nil =>
    simp only [State.left, hahead, List.length_nil] at hcount
    omega
  | cons x rest => rfl

theorem Placed.mark_eq (hs : Placed layout s) (ht : Placed layout t) (hlt : s.index < t.index) :
    s.mark = .before s.index s.taken := by
  simp [State.mark, State.view, View.mark, hs.isEmpty_ahead ht hlt]

/-- Documentation is taken from that token. -/
theorem Placed.doc_eq (hs : Placed layout s) (ht : Placed layout t) (hlt : s.index < t.index) :
    s.doc = some (.before s.index s.taken) := by
  simp [State.doc, State.view, View.doc, hs.isEmpty_ahead ht hlt]

/-- A stretch with a token in it runs from the first mark to the end of its last token. -/
theorem State.upTo_eq (hs : Placed layout s) (ht : Placed layout t) (hlt : s.index < t.index) :
    s.upTo t = ⟨s.mark, .after (t.index - 1)⟩ := by
  have hmark := hs.mark_eq ht hlt
  unfold State.upTo View.since
  rw [if_pos]
  · rfl
  · rw [hmark]
    refine ⟨show 0 < t.index by omega, ?_⟩
    show decide (s.index ≤ t.index - 1) = true
    rw [decide_eq_true_eq]
    omega

/-- The next token is the stretch that taking it covers. -/
theorem Placed.here_eq (hs : Placed layout s) {x : Symbol} {rest : List Symbol}
    (hahead : s.ahead = x :: rest) (inLabels : Bool) :
    (s.view inLabels).here = s.upTo (s.advance 1) := by
  have hindex : (s.advance 1).index = s.index + 1 := by
    show s.index + min 1 s.ahead.length = s.index + 1
    rw [hahead, List.length_cons]
    omega
  rw [State.upTo_eq hs (hs.advance 1) (by omega), hindex]
  simp [View.here, State.mark, View.mark, State.view, hahead]

theorem State.sound_upTo (hs : Placed layout s) (hr : Reaches setting s t) (ht : layout.Tiled) :
    layout.Sound (s.upTo t) := by
  have hplaced := hs.reaches hr
  by_cases hlt : s.index < t.index
  · rw [State.upTo_eq hs hplaced hlt]
    exact ⟨hs.visible_mark ht, (hplaced.visible_after ht (by omega)).boundary,
      hs.mark_le_after ht hplaced hlt⟩
  · have hpoint : s.upTo t = .point s.mark := by
      unfold State.upTo View.since
      rw [if_neg]
      unfold State.mark View.mark
      split
      · simp [Mark.le]
      · rintro ⟨hpos, hle⟩
        have hpos : 0 < t.index := hpos
        have hle : decide (s.index ≤ t.index - 1) = true := hle
        rw [decide_eq_true_eq] at hle
        omega
    rw [hpoint]
    exact hs.sound_mark ht

theorem Placed.sound_here (h : Placed layout s) (ht : layout.Tiled) (inLabels : Bool) :
    layout.Sound (s.view inLabels).here := by
  unfold View.here
  cases hahead : s.ahead with
  | nil =>
    simp only [State.view, hahead, List.isEmpty_nil, if_true]
    exact layout.sound_eof
  | cons x rest =>
    have hne : (s.view inLabels).ahead.isEmpty = false := by simp [State.view, hahead]
    rw [hne]
    rcases h.offset_mark ht with ⟨hnil, _⟩ | ⟨token, htoken, _, hbound, hstop⟩
    · simp [hahead] at hnil
    · have hmark : s.mark = .before s.index s.taken := by
        simp [State.mark, State.view, View.mark, hahead]
      rw [hmark] at hbound hstop
      have hafter : layout.offset (.after s.index) = token.stop := by
        simp [Layout.offset, htoken]
      refine ⟨hbound, ?_, ?_⟩
      · show layout.source.Boundary (layout.offset (.after s.index))
        rw [hafter]
        exact ht.boundary_stop htoken
      · show layout.offset (.before s.index s.taken) ≤ layout.offset (.after s.index)
        rw [hafter]
        exact hstop

theorem Placed.told_missing (h : Placed layout s) (ht : layout.Tiled) (inLabels : Bool)
    (wanted : Wanted) : layout.Told ((s.view inLabels).missing wanted) := by
  unfold View.missing
  split
  · exact layout.sound_eof.told nofun
  · refine Layout.Sound.told ?_ nofun
    split
    · rename_i hindex
      exact Layout.sound_point (h.visible_after ht hindex)
    · exact h.sound_here ht inLabels

theorem Placed.told_wrong (h : Placed layout s) (ht : layout.Tiled) (inLabels : Bool)
    {fault : Fault} (hplain : ∀ e, fault ≠ .literal e) :
    layout.Told ((s.view inLabels).wrong fault) := by
  unfold View.wrong
  split
  · exact layout.sound_eof.told nofun
  · exact (h.sound_here ht inLabels).told hplain

end Marks

end JavaSyntax
