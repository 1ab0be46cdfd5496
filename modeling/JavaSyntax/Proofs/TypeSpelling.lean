import JavaSyntax.Proofs.Cleanly
import JavaSyntax.Proofs.Printing
import JavaSyntax.Proofs.Soundness

/-!
The words a type is written with. Closing angle brackets that stand together are one word of the
lexer, which the parser takes apart while nested rules return; so types are spelled by pieces, in
which each bracket stands alone. `Spells part ws` says that the pieces spell a type or a part of
one, annotations included as far as they have no arguments.
-/

namespace JavaSyntax

open Grammar

/-- The pieces of a word: closing angle brackets one by one. -/
def Word.pieces (w : Word) : List Word :=
  match w.1 with
  | .shr => [fixed .greater, fixed .greater]
  | .ushr => [fixed .greater, fixed .greater, fixed .greater]
  | .greaterEqual => [fixed .greater, fixed .assign]
  | .shrAssign => [fixed .greater, fixed .greater, fixed .assign]
  | .ushrAssign => [fixed .greater, fixed .greater, fixed .greater, fixed .assign]
  | _ => [w]

def pieces (ws : List Word) : List Word :=
  ws.flatMap Word.pieces

theorem pieces_cons (w : Word) (ws : List Word) : pieces (w :: ws) = w.pieces ++ pieces ws := rfl

theorem pieces_append (ws us : List Word) : pieces (ws ++ us) = pieces ws ++ pieces us :=
  List.flatMap_append

/-- Whether a word of this kind has several pieces. -/
def isFused (k : Kind) : Bool :=
  [.shr, .ushr, .greaterEqual, .shrAssign, .ushrAssign].contains k

theorem Word.pieces_of_not_fused {w : Word} (h : isFused w.1 = false) : w.pieces = [w] := by
  unfold Word.pieces
  split <;> first | rfl | (rename_i hk; rw [hk] at h; cases h)

/-- A word that is not just itself starts with a closing bracket. -/
theorem Word.pieces_cases (w : Word) : w.pieces = [w] ∨ ∃ us, w.pieces = fixed .greater :: us := by
  unfold Word.pieces
  split <;> first | exact .inr ⟨_, rfl⟩ | exact .inl rfl

theorem Word.mem_pieces {w x : Word} (h : x ∈ w.pieces) :
    x = w ∨ x.1 = .greater ∨ x.1 = .assign := by
  unfold Word.pieces at h
  split at h <;> simp only [List.mem_cons, List.not_mem_nil, or_false] at h
  case h_6 => exact .inl h
  all_goals
    right
    rcases h with rfl | rfl | rfl | rfl <;> first | exact .inl rfl | exact .inr rfl

theorem Word.pieces_ne_nil (w : Word) : w.pieces ≠ [] := by
  rcases w.pieces_cases with h | ⟨us, h⟩ <;> simp [h]

theorem pieces_eq_nil {ws : List Word} (h : pieces ws = []) : ws = [] := by
  cases ws with
  | nil => rfl
  | cons w ws => exact absurd (List.append_eq_nil_iff.mp h).1 w.pieces_ne_nil

/-- A piece is a word or was made by splitting one. -/
theorem mem_pieces {x : Word} {ws : List Word} (h : x ∈ pieces ws) :
    x ∈ ws ∨ x.1 = .greater ∨ x.1 = .assign := by
  obtain ⟨w, hw, hx⟩ := List.mem_flatMap.mp h
  rcases Word.mem_pieces hx with rfl | hk
  · exact .inl hw
  · exact .inr hk

/-- Where there is no word that starts an annotation there is no such piece. -/
theorem unmarked_pieces {ws : List Word} (h : ∀ w ∈ ws, w.1 ≠ .atSign) :
    ∀ w ∈ pieces ws, w.1 ≠ .atSign := fun w hw => by
  rcases mem_pieces hw with hw | hk | hk
  · exact h w hw
  all_goals
    rw [hk]
    decide

/-- In front of pieces other than closing brackets stand the same words. -/
theorem words_of_pieces {us : List Word} (hus : ∀ w ∈ us, w.1 ≠ .greater) {ws rest : List Word}
    (h : pieces ws = us ++ rest) : ∃ vs, ws = us ++ vs ∧ pieces vs = rest := by
  induction us generalizing ws with
  | nil => exact ⟨ws, rfl, h⟩
  | cons u us ih =>
    obtain ⟨hu, hmore⟩ := List.forall_mem_cons.mp hus
    cases ws with
    | nil => cases h
    | cons w ws =>
      rw [pieces_cons] at h
      rcases w.pieces_cases with hw | ⟨more, hw⟩
      · rw [hw] at h
        obtain ⟨rfl, htail⟩ := List.cons.inj h
        obtain ⟨vs, rfl, hvs⟩ := ih hmore htail
        exact ⟨vs, rfl, hvs⟩
      · rw [hw] at h
        rw [← (List.cons.inj h).1] at hu
        exact absurd rfl hu

/-- Words that are not fused are their own pieces. -/
theorem pieces_eq_self {ws : List Word} (h : ∀ w ∈ ws, isFused w.1 = false) : pieces ws = ws := by
  induction ws with
  | nil => rfl
  | cons w ws ih =>
    obtain ⟨hw, hws⟩ := List.forall_mem_cons.mp h
    rw [pieces_cons, Word.pieces_of_not_fused hw, ih hws]
    rfl

namespace State

/-- The pieces that are ahead. -/
def pieces (s : State) : List Word :=
  JavaSyntax.pieces s.words

variable {s t : State} {w : Word} {rest : List Word}

theorem pieces_of_words {ws : List Word} (h : s.words = ws) : s.pieces = JavaSyntax.pieces ws :=
  congrArg JavaSyntax.pieces h

/-- A piece that closes nothing is a word. -/
theorem words_of_piece (h : s.pieces = w :: rest) (hw : w.1 ≠ .greater) :
    ∃ ws, s.words = w :: ws ∧ JavaSyntax.pieces ws = rest :=
  @words_of_pieces [w] (List.forall_mem_singleton.mpr hw) _ _ h

theorem suffix_advance (s : State) (n : Nat) : (s.advance n).pieces <:+ s.pieces := by
  unfold pieces
  rw [words_advance]
  refine ⟨JavaSyntax.pieces (s.words.take n), ?_⟩
  rw [← pieces_append, List.take_append_drop]

theorem afterAngle_isSome (k : Kind) : (afterAngle k).isSome = isFused k := by
  cases k <;> rfl

theorem pieces_afterAngle {k l : Kind} (h : afterAngle k = some l) (text : String) :
    Word.pieces (k, text) = fixed .greater :: (fixed l).pieces := by
  unfold afterAngle at h
  split at h <;> cases h <;> rfl

/-- Splitting a fused word takes one closing bracket. -/
theorem pieces_splitAngle {x : Symbol} {more : List Symbol} (h : s.ahead = x :: more)
    (hx : isFused x.kind = true) : s.pieces = fixed .greater :: s.splitAngle.pieces := by
  rw [← afterAngle_isSome] at hx
  obtain ⟨l, hl⟩ := Option.isSome_iff_exists.mp hx
  have hwords := words_of_ahead h
  have hsplit : s.splitAngle.words = fixed l :: more.map Symbol.word := by
    unfold splitAngle words
    simp only [h, hl]
    rfl
  rw [pieces_of_words hwords, pieces_of_words hsplit, pieces_cons, pieces_cons,
    show x.word.pieces = _ from pieces_afterAngle hl x.text]
  rfl

theorem suffix_splitAngle (s : State) : s.splitAngle.pieces <:+ s.pieces := by
  cases hahead : s.ahead with
  | nil =>
    have hsame : s.splitAngle = s := by
      unfold splitAngle
      rw [hahead]
    exact ⟨[], congrArg pieces hsame⟩
  | cons x more =>
    cases hx : isFused x.kind with
    | true =>
      rw [pieces_splitAngle hahead hx]
      exact List.suffix_cons ..
    | false =>
      rw [← afterAngle_isSome, Option.isSome_eq_false_iff, Option.isNone_iff_eq_none] at hx
      have hsame : s.splitAngle = s := by
        unfold splitAngle
        simp only [hahead, hx]
      exact ⟨[], congrArg pieces hsame⟩

/-- The words of the next `n` symbols, and the rest. -/
theorem words_take (s : State) (n : Nat) :
    s.words = (s.ahead.take n).map Symbol.word ++ (s.advance n).words := by
  unfold words
  rw [ahead_advance, ← List.map_append, List.take_append_drop]

end State

/-- Whatever a rule does, the pieces that are left are the last ones. -/
theorem kept_suffix (setting : Setting) (s : State) :
    Kept setting fun t => t.pieces <:+ s.pieces where
  advance t n h := (t.suffix_advance n).trans h
  splitAngle t h := t.suffix_splitAngle.trans h
  record t fault start stop h := by
    unfold State.pieces State.words at h ⊢
    rwa [t.ahead_record]
  deprecation t doc name h := by
    unfold State.pieces State.words at h ⊢
    rwa [t.ahead_deprecation]

/-- From `s` on pieces of this form were taken, up to `t`. -/
def State.Takes (s : State) (P : List Word → Prop) (t : State) : Prop :=
  ∃ us, s.pieces = us ++ t.pieces ∧ P us

namespace State.Takes

variable {s t u : State} {P Q R : List Word → Prop}

theorem trans (h : s.Takes P t) (h' : t.Takes Q u) (hR : ∀ us vs, P us → Q vs → R (us ++ vs)) :
    s.Takes R u := by
  obtain ⟨us, hs, hus⟩ := h
  obtain ⟨vs, ht, hvs⟩ := h'
  exact ⟨us ++ vs, by rw [hs, ht, List.append_assoc], hR us vs hus hvs⟩

theorem mono (h : s.Takes P t) (hPQ : ∀ us, P us → Q us) : s.Takes Q t := by
  obtain ⟨us, hs, hus⟩ := h
  exact ⟨us, hs, hPQ us hus⟩

theorem nothing (h : P []) : s.Takes P s := ⟨[], rfl, h⟩

theorem words {ws : List Word} (h : s.words = ws ++ t.words) (hws : ∀ w ∈ ws, isFused w.1 = false)
    (hP : P ws) : s.Takes P t :=
  ⟨ws, by rw [pieces_of_words h, pieces_append, pieces_eq_self hws]; rfl, hP⟩

/-- One word that is not fused is taken. -/
theorem one {x : Symbol} {rest : List Symbol} (h : s.ahead = x :: rest)
    (hx : isFused x.kind = false) : s.Takes (· = [x.word]) (s.advance 1) := by
  have htake := s.words_take 1
  rw [h] at htake
  exact words htake (List.forall_mem_singleton.mpr hx) rfl

end State.Takes

theorem Reaches.takes {setting : Setting} {s t : State} (h : Reaches setting s t) :
    s.Takes (fun _ => True) t := by
  obtain ⟨us, hus⟩ := h.kept (kept_suffix setting s) List.suffix_rfl
  exact ⟨us, hus.symm, trivial⟩

/-! Names and annotations. -/

/-- The segments of a dotted name and its words. -/
inductive Dotted : List String → List Word → Prop where
  | one {w : Word} (isName : w.1 = .identifier) : Dotted [w.2] [w]
  | more {w dot : Word} {names : List String} {ws : List Word} (isName : w.1 = .identifier)
      (isDot : dot.1 = .dot) (others : Dotted names ws) : Dotted (w.2 :: names) (w :: dot :: ws)

theorem Dotted.kinds {names : List String} {ws : List Word} (h : Dotted names ws) :
    ∀ w ∈ ws, w.1 = .identifier ∨ w.1 = .dot := by
  induction h with
  | one hname => exact List.forall_mem_singleton.mpr (.inl hname)
  | more hname hdot _ ih =>
    exact List.forall_mem_cons.mpr ⟨.inl hname, List.forall_mem_cons.mpr ⟨.inr hdot, ih⟩⟩

theorem Dotted.opens {names : List String} {ws : List Word} (h : Dotted names ws) :
    ∃ w more, ws = w :: more ∧ w.1 = .identifier := by
  cases h with
  | one hname => exact ⟨_, _, rfl, hname⟩
  | more hname => exact ⟨_, _, rfl, hname⟩

theorem Dotted.not_fused {names : List String} {ws : List Word} (h : Dotted names ws) :
    ∀ w ∈ ws, isFused w.1 = false := fun w hw => by
  rcases h.kinds w hw with hk | hk <;> (rw [hk]; rfl)

/-- Annotations without arguments. -/
inductive Markers : Tree (.list .annot) → List Word → Prop where
  | nil : Markers .nil []
  | cons {sign : Word} {names : List String} {extent : Extent} {others : Tree (.list .annot)}
      {ws us : List Word} (isAt : sign.1 = .atSign) (name : Dotted names ws)
      (more : Markers others us) :
      Markers (.cons (.annot (".".intercalate names) .nil extent) others) (sign :: (ws ++ us))

/-- Annotations, of which the words are told as long as none has arguments. -/
structure Annotates (annotations : Tree (.list .annot)) (ws : List Word) : Prop where
  opens : Heads (· == .atSign) ws
  markers : (∀ w ∈ ws, w.1 ≠ .lparen) → Markers annotations ws

theorem Markers.append {annotations others : Tree (.list .annot)} {us vs : List Word}
    (h : Markers annotations us) (h' : Markers others vs) :
    Markers (annotations.append others) (us ++ vs) := by
  induction h with
  | nil => exact h'
  | cons hat hname _ ih =>
    rw [List.cons_append, List.append_assoc]
    exact .cons hat hname ih

theorem Markers.opens {annotations : Tree (.list .annot)} {us : List Word}
    (h : Markers annotations us) : Heads (· == .atSign) us := by
  cases h with
  | nil => exact fun w hw => by cases hw
  | cons hat => exact heads_cons (by rw [hat]; rfl)

theorem Markers.annotates {annotations : Tree (.list .annot)} {us : List Word}
    (h : Markers annotations us) : Annotates annotations us :=
  ⟨h.opens, fun _ => h⟩

theorem Heads.append {p : Kind → Bool} {us vs : List Word} (h : Heads p us) (h' : Heads p vs) :
    Heads p (us ++ vs) := by
  cases us with
  | nil => exact h'
  | cons w us => exact heads_cons (h w rfl)

theorem Annotates.append {annotations others : Tree (.list .annot)} {us vs : List Word}
    (h : Annotates annotations us) (h' : Annotates others vs) :
    Annotates (annotations.append others) (us ++ vs) where
  opens := h.opens.append h'.opens
  markers hus := by
    obtain ⟨hus, hvs⟩ := List.forall_mem_append.mp hus
    exact (h.markers hus).append (h'.markers hvs)

/-- Where no annotation can start there is none. -/
theorem Annotates.eq_nil {annotations : Tree (.list .annot)} {us : List Word}
    (h : Annotates annotations us) (hus : ∀ w ∈ us, w.1 ≠ .atSign) :
    annotations = .nil ∧ us = [] := by
  cases us with
  | nil =>
    cases h.markers (fun w hw => by cases hw)
    exact ⟨rfl, rfl⟩
  | cons w us => exact absurd (beq_iff_eq.mp (h.opens w rfl)) (hus w List.mem_cons_self)

/-- Pairs of brackets. -/
inductive Brackets : Nat → List Word → Prop where
  | zero : Brackets 0 []
  | succ {n : Nat} {l r : Word} {ws : List Word} (opens : l.1 = .lbracket)
      (closes : r.1 = .rbracket) (more : Brackets n ws) : Brackets (n + 1) (l :: r :: ws)

theorem Brackets.kinds {n : Nat} {ws : List Word} (h : Brackets n ws) :
    ∀ w ∈ ws, w.1 = .lbracket ∨ w.1 = .rbracket := by
  induction h with
  | zero => exact fun w hw => by cases hw
  | succ hl hr _ ih =>
    exact List.forall_mem_cons.mpr ⟨.inl hl, List.forall_mem_cons.mpr ⟨.inr hr, ih⟩⟩

theorem Brackets.opens {n : Nat} {ws : List Word} (h : Brackets n ws) :
    ∀ w ∈ ws.head?, w.1 = .lbracket := by
  cases h with
  | zero => exact fun w hw => by cases hw
  | succ hl =>
    rintro _ ⟨⟩
    exact hl

theorem Brackets.not_fused {n : Nat} {ws : List Word} (h : Brackets n ws) :
    ∀ w ∈ ws, isFused w.1 = false := fun w hw => by
  rcases h.kinds w hw with hk | hk <;> (rw [hk]; rfl)

/-! Types. -/

/-- A type or a part of one. -/
inductive TypePart where
  /-- The segments of a class type up to a name, with what was made of those before it. -/
  | segments (outer : Tree (.option .type)) (name : String) (diamond : Bool)
  /-- Arguments in brackets, or none if they are not opened. -/
  | args (opened : Bool) (args : Tree (.list .typeArg))
  | list (args : Tree (.list .typeArg))
  | arg (arg : Tree .typeArg)
  /-- A type without annotations in front of it. -/
  | bare (type : Tree .type)
  | type (type : Tree .type)

inductive Spells : TypePart → List Word → Prop where
  | first {w : Word} (isName : w.1 = .identifier) : Spells (.segments .none w.2 false) [w]
  /-- Segments without arguments fold into one name. -/
  | fold {outer : Tree (.option .type)} {name : String} {diamond opened : Bool}
      {annotations : Tree (.list .annot)} {us gs vs : List Word} {dot w : Word}
      (before : Spells (.segments outer name diamond) us)
      (arguments : Spells (.args opened .nil) gs)
      (isDot : dot.1 = .dot) (annotated : Annotates annotations vs) (isName : w.1 = .identifier) :
      Spells (.segments outer (name ++ "." ++ w.2) (opened || diamond))
        (us ++ (gs ++ dot :: (vs ++ [w])))
  /-- A segment behind arguments starts a type inside the one before it. -/
  | nest {outer : Tree (.option .type)} {name : String} {diamond opened : Bool}
      {args : Tree (.list .typeArg)} {annotations : Tree (.list .annot)} {extent : Extent}
      {us gs vs : List Word} {dot w : Word} (before : Spells (.segments outer name diamond) us)
      (arguments : Spells (.args opened args) gs) (given : args.isNil = false)
      (isDot : dot.1 = .dot) (annotated : Annotates annotations vs) (isName : w.1 = .identifier) :
      Spells (.segments (.some (.type outer name args false .nil 0 extent)) w.2 false)
        (us ++ (gs ++ dot :: (vs ++ [w])))
  | closed : Spells (.args false .nil) []
  | empty {l g : Word} (opens : l.1 = .less) (closes : g.1 = .greater) :
      Spells (.args true .nil) [l, g]
  | listed {args : Tree (.list .typeArg)} {us : List Word} {l g : Word} (opens : l.1 = .less)
      (closes : g.1 = .greater) (list : Spells (.list args) us) :
      Spells (.args true args) (l :: (us ++ [g]))
  | one {arg : Tree .typeArg} {us : List Word} (first : Spells (.arg arg) us) :
      Spells (.list (.cons arg .nil)) us
  | more {arg : Tree .typeArg} {args : Tree (.list .typeArg)} {us vs : List Word} {comma : Word}
      (first : Spells (.arg arg) us) (isComma : comma.1 = .comma)
      (others : Spells (.list args) vs) : Spells (.list (.cons arg args)) (us ++ comma :: vs)
  | typeArg {type : Tree .type} {us : List Word} (spelled : Spells (.type type) us) :
      Spells (.arg (.typeArg type)) us
  | wildcard {annotations : Tree (.list .annot)} {extent : Extent} {vs : List Word} {w : Word}
      (annotated : Annotates annotations vs) (isQuestion : w.1 = .question) :
      Spells (.arg (.wildcard annotations extent)) (vs ++ [w])
  | wildcardExtends {annotations : Tree (.list .annot)} {bound : Tree .type} {extent : Extent}
      {us vs : List Word} {w x : Word} (annotated : Annotates annotations vs)
      (isQuestion : w.1 = .question) (isExtends : x.1 = .extendsKw)
      (spelled : Spells (.type bound) us) :
      Spells (.arg (.wildcardExtends annotations bound extent)) (vs ++ w :: x :: us)
  | wildcardSuper {annotations : Tree (.list .annot)} {bound : Tree .type} {extent : Extent}
      {us vs : List Word} {w x : Word} (annotated : Annotates annotations vs)
      (isQuestion : w.1 = .question) (isSuper : x.1 = .superKw)
      (spelled : Spells (.type bound) us) :
      Spells (.arg (.wildcardSuper annotations bound extent)) (vs ++ w :: x :: us)
  | primitive {n : Nat} {extent : Extent} {bs : List Word} {w : Word}
      (isPrimitive : w.1.isPrimitive = true) (dims : Brackets n bs) :
      Spells (.bare (.type .none w.2 .nil false .nil n extent)) (w :: bs)
  | classType {outer : Tree (.option .type)} {name : String} {diamond opened : Bool}
      {args : Tree (.list .typeArg)} {n : Nat} {extent : Extent} {us gs bs : List Word}
      (before : Spells (.segments outer name diamond) us)
      (arguments : Spells (.args opened args) gs)
      (dims : Brackets n bs) :
      Spells (.bare (.type outer name args (if opened then args.isNil else diamond) .nil n extent))
        (us ++ (gs ++ bs))
  | type {outer : Tree (.option .type)} {name : String} {args : Tree (.list .typeArg)}
      {diamond : Bool} {annotations : Tree (.list .annot)} {n : Nat} {extent extent' : Extent}
      {us vs : List Word} (annotated : Annotates annotations vs)
      (spelled : Spells (.bare (.type outer name args diamond .nil n extent)) us) :
      Spells (.type (.type outer name args diamond annotations n extent')) (vs ++ us)

end JavaSyntax
