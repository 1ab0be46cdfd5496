import JavaSyntax.Proofs.RoundTrip
import JavaSyntax.Proofs.TypeSpelling

/-!
Pieces that spell a type are read as that type. What follows a type must be none of the words that
would go on with it; then each rule is followed along the pieces, wherever a fused word is cut.
-/

namespace JavaSyntax

open Grammar Rule

/-- What heads no piece heads no word either, unless it is fused. -/
theorem heads_of_pieces {k : Kind} {ws : List Word} (h : Heads (· != k) (pieces ws))
    (hk : isFused k = false) : Heads (· != k) ws := by
  intro w hw
  obtain ⟨us, rfl⟩ := List.head?_eq_some_iff.mp hw
  simp only [bne_iff_ne]
  rintro rfl
  rw [pieces_cons, Word.pieces_of_not_fused hk] at h
  exact absurd rfl (bne_iff_ne.mp (h w rfl))

theorem Heads.mono {p q : Kind → Bool} {ws : List Word} (h : Heads p ws)
    (hpq : ∀ k, p k = true → q k = true) : Heads q ws :=
  fun w hw => hpq _ (h w hw)

namespace State

/-- The state `t` lies behind `s`, in front of these pieces, and nothing was reported in between. -/
structure Onto (s t : State) (rest : List Word) : Prop where
  pieces : t.pieces = rest
  budget : t.budget = s.budget
  log : t.log = s.log

variable {s t u : State} {ws rest : List Word} {w x : Word} {k : Kind}

theorem Onto.trans (h : s.Onto t ws) (h' : t.Onto u rest) : s.Onto u rest :=
  ⟨h'.pieces, h'.budget.trans h.budget, h'.log.trans h.log⟩

theorem onto_self (h : s.pieces = rest) : s.Onto s rest := ⟨h, rfl, rfl⟩

theorem Past.onto (h : s.Past t ws) (hws : JavaSyntax.pieces ws = rest) : s.Onto t rest :=
  ⟨(pieces_of_words h.words).trans hws, h.budget, h.log⟩

theorem onto_advance (h : s.pieces = ws ++ rest) (hws : ∀ w ∈ ws, w.1 ≠ .greater) :
    s.Onto (s.advance ws.length) rest := by
  obtain ⟨vs, hwords, hvs⟩ := words_of_pieces hws h
  exact (past_advance ws hwords).onto hvs

theorem onto_one (h : s.pieces = w :: rest) (hw : w.1 ≠ .greater) : s.Onto (s.advance 1) rest :=
  @onto_advance s [w] rest h (List.forall_mem_singleton.mpr hw)

theorem next_of_piece (h : s.pieces = w :: rest) (hw : w.1 ≠ .greater) (hk : w.1 = k) :
    Lookahead.next [k] s.ahead = true := by
  obtain ⟨ws, hwords, -⟩ := words_of_piece h hw
  exact next_eq_true hwords hk

theorem not_next_of_pieces (h : Heads (· != k) s.pieces) (hk : isFused k = false) :
    Lookahead.next [k] s.ahead = false :=
  next_eq_false (heads_of_pieces h hk)

theorem next_two {k l : Kind} (h : s.words = w :: x :: rest) :
    Lookahead.next [k, l] s.ahead = (w.1 == k && x.1 == l) := by
  obtain ⟨a, more, hahead, rfl, hmore⟩ := ahead_of_words h
  obtain ⟨b, others, rfl, rfl, -⟩ := List.map_eq_cons_iff.mp hmore
  rw [hahead]
  simp [Lookahead.next, Symbol.word]

theorem next_two_of_pieces {k l : Kind} (h : s.pieces = w :: x :: rest) (hw : w.1 ≠ .greater)
    (hx : x.1 ≠ .greater) : Lookahead.next [k, l] s.ahead = (w.1 == k && x.1 == l) := by
  obtain ⟨ws, hwords, -⟩ := @words_of_pieces [w, x]
    (List.forall_mem_cons.mpr ⟨hw, List.forall_mem_singleton.mpr hx⟩) _ _ h
  exact next_two hwords

end State

/-- What may follow a type: nothing that goes on with it. -/
def endsType (k : Kind) : Bool :=
  k != .less && k != .dot && k != .lbracket

/-- What follows a type argument. -/
def endsArg (k : Kind) : Bool :=
  k == .comma || k == .greater

theorem endsType_of_endsArg {k : Kind} (h : endsArg k = true) : endsType k = true := by
  simp only [endsArg, Bool.or_eq_true, beq_iff_eq] at h
  rcases h with rfl | rfl <;> rfl

/-- What may follow annotations. -/
def endsAnnotations (k : Kind) : Bool :=
  k != .atSign && k != .dot && k != .lparen

section Names

variable (setting : Setting) (inLabels : Bool) {s : State} {rest : List Word}

/-- No dot with a name behind it comes next. -/
def EndsName (ws : List Word) : Prop :=
  ∀ dot w more, ws = dot :: w :: more → dot.1 = .dot → w.1 ≠ .identifier

theorem endsName_of_heads (h : Heads (· != .dot) rest) : EndsName rest := by
  rintro dot w more rfl hdot
  have hne := h dot rfl
  rw [hdot] at hne
  cases hne

theorem dottedTail_eq_nil {ts : List Symbol} (h : EndsName (ts.map Symbol.word)) :
    Lookahead.dottedTail ts = [] := by
  unfold Lookahead.dottedTail
  split
  · rename_i x y more
    exact if_neg fun hboth => h x.word y.word _ rfl hboth.1 hboth.2
  · rfl

/-- The rest of a dotted name goes as far as a name follows each dot. -/
theorem dottedTail_of_dotted {names : List String} {ws : List Word} (h : Dotted names ws)
    (hrest : EndsName rest) {ts : List Symbol} (hts : ts.map Symbol.word = ws ++ rest) :
    ∃ x more, ts = x :: more ∧ x.kind = .identifier ∧
      names = x.text :: Lookahead.dottedTail more ∧
      ws.length = 1 + 2 * (Lookahead.dottedTail more).length := by
  induction h generalizing ts with
  | one hname =>
    obtain ⟨x, more, rfl, rfl, hmore⟩ := List.map_eq_cons_iff.mp hts
    have hnil : Lookahead.dottedTail more = [] := dottedTail_eq_nil (hmore ▸ hrest)
    exact ⟨x, more, rfl, hname, by rw [hnil]; rfl, by rw [hnil]; rfl⟩
  | more hname hdot _ ih =>
    obtain ⟨x, more, rfl, rfl, hmore⟩ := List.map_eq_cons_iff.mp hts
    obtain ⟨d, others, rfl, rfl, hothers⟩ := List.map_eq_cons_iff.mp hmore
    obtain ⟨y, last, rfl, hy, hnames, hlength⟩ := ih hothers
    have htail : Lookahead.dottedTail (d :: y :: last) = y.text :: Lookahead.dottedTail last := by
      rw [Lookahead.dottedTail, if_pos ⟨hdot, hy⟩]
    refine ⟨x, d :: y :: last, rfl, hname, by rw [htail, hnames]; rfl, ?_⟩
    rw [htail, List.length_cons, List.length_cons, List.length_cons, hlength]
    omega

theorem qualifiedName_reads {names : List String} {ws : List Word} (h : Dotted names ws)
    (hs : s.words = ws ++ rest) (hrest : EndsName rest) :
    ∃ t, s.Past t rest ∧
      ComesTo setting inLabels qualifiedName s (pure (".".intercalate names)) t := by
  obtain ⟨x, more, hahead, hx, rfl, hlength⟩ := dottedTail_of_dotted h hrest hs
  have hwords := State.words_of_ahead hahead
  have hone := State.past_one hwords
  refine ⟨(s.advance 1).advance (2 * (Lookahead.dottedTail more).length), ?_, fun Q hQ => ?_⟩
  · refine ⟨?_, by simp, by simp⟩
    rw [State.words_advance, State.words_advance, hs, List.drop_drop, ← hlength, List.drop_left]
  · unfold qualifiedName
    refine ensures_identifier_yes hwords hx ?_
    rw [ensures_ahead_bind, ensures_advance_bind, State.advance_ahead, hahead]
    exact hQ

/-- A name among pieces. -/
theorem qualifiedName_reads_pieces {names : List String} {ws : List Word} (h : Dotted names ws)
    (hs : s.pieces = ws ++ rest) (hrest : Heads (· != .dot) rest) :
    ∃ t, s.Onto t rest ∧
      ComesTo setting inLabels qualifiedName s (pure (".".intercalate names)) t := by
  have hkinds : ∀ w ∈ ws, w.1 ≠ .greater := fun w hw => by
    rcases h.kinds w hw with hk | hk <;> simp [hk]
  obtain ⟨vs, hwords, rfl⟩ := words_of_pieces hkinds hs
  obtain ⟨t, hpast, hcomes⟩ :=
    qualifiedName_reads setting inLabels h hwords (endsName_of_heads (heads_of_pieces hrest rfl))
  exact ⟨t, hpast.onto rfl, hcomes⟩

end Names

section Annotations

variable (setting : Setting) (inLabels : Bool) {s : State} {rest : List Word}

theorem annot_reads {sign : Word} {names : List String} {ws : List Word}
    (hs : s.pieces = sign :: (ws ++ rest)) (hat : sign.1 = .atSign) (hname : Dotted names ws)
    (hdot : Heads (· != .dot) rest) (hparen : Heads (· != .lparen) rest) :
    ∃ extent t, s.Onto t rest ∧ ComesTo setting inLabels annot s
      (pure (.annot (".".intercalate names) .nil extent)) t := by
  obtain ⟨vs, hwords, -⟩ := State.words_of_piece hs (by simp [hat])
  have hone := State.onto_one hs (by simp [hat])
  obtain ⟨t, honto, hcomes⟩ :=
    qualifiedName_reads_pieces setting inLabels hname hone.pieces hdot
  refine ⟨(t.view inLabels).since (s.view inLabels).mark, t, hone.trans honto, fun Q hQ => ?_⟩
  unfold annot
  rw [ensures_mark_bind]
  refine ensures_expect_yes hwords hat (hcomes.bind _ Q ?_)
  refine ensures_accept_no (heads_of_pieces ?_ rfl) hQ
  rw [show pieces t.words = rest from honto.pieces]
  exact hparen

theorem annotations_none (onType : Bool) (h : Heads (· != .atSign) s.pieces) :
    ComesTo setting inLabels (Grammar.annotations onType) s (pure .nil) s := by
  intro Q hQ
  unfold Grammar.annotations
  rw [ensures_ahead_bind, if_neg (by simp [State.not_next_of_pieces h rfl])]
  exact hQ

theorem annotations_reads (onType : Bool) {annotations : Tree (.list .annot)} {us : List Word}
    (h : Markers annotations us) (hs : s.pieces = us ++ rest) (hrest : Heads endsAnnotations rest) :
    ∃ read t, read.erase = annotations.erase ∧ s.Onto t rest ∧
      ComesTo setting inLabels (Grammar.annotations onType) s (pure read) t := by
  have hat : Heads (· != .atSign) rest := hrest.mono fun k hk => by simp_all [endsAnnotations]
  have hdot : Heads (· != .dot) rest := hrest.mono fun k hk => by simp_all [endsAnnotations]
  have hparen : Heads (· != .lparen) rest := hrest.mono fun k hk => by simp_all [endsAnnotations]
  induction h generalizing s with
  | nil =>
    rw [← show s.pieces = rest from hs] at hat
    exact ⟨.nil, s, rfl, State.onto_self hs, annotations_none setting inLabels onType hat⟩
  | @cons sign names _ others ws us hsign hname hmore ih =>
    rw [List.cons_append, List.append_assoc] at hs
    have hopens : ∀ p : Kind → Bool, p .atSign = true → Heads p us := fun p hp =>
      hmore.opens.mono fun k hk => by rwa [beq_iff_eq.mp hk]
    obtain ⟨extent, t, honto, hcomes⟩ := annot_reads setting inLabels hs
      hsign hname ((hopens _ rfl).append hdot) ((hopens _ rfl).append hparen)
    obtain ⟨read, u, hread, honto', hcomes'⟩ := ih honto.pieces
    refine ⟨.cons (.annot (".".intercalate names) .nil extent) read, u, ?_, honto.trans honto',
      fun Q hQ => ?_⟩
    · show Tree.cons _ read.erase = Tree.cons _ others.erase
      rw [hread]
      rfl
    · have hnext : Lookahead.next [.atSign] s.ahead = true ∧
          Lookahead.next [.atSign, .interfaceKw] s.ahead = false := by
        obtain ⟨w, more, rfl, hw⟩ := hname.opens
        refine ⟨State.next_of_piece hs (by simp [hsign]) hsign, ?_⟩
        rw [State.next_two_of_pieces hs (by simp [hsign]) (by simp [hw]), hw]
        exact Bool.and_false _
      unfold Grammar.annotations
      rw [ensures_ahead_bind, if_pos (by simp [hnext])]
      exact ensures_rule_bind.mpr (hcomes.bind _ Q (ensures_rule_bind.mpr (hcomes'.bind _ Q hQ)))

end Annotations

/-! Types. -/

/-- The rest of a type behind its annotations. -/
def typeBehind (start : Mark) (annotations : Tree (.list .annot)) : Rule (Tree .type) := do
  let v ← view
  let named ←
    if Lookahead.next [.identifier] v.ahead then do
      let name ← takeText
      call (.typeSegments start .none name false)
    else if v.ahead.head?.any fun s => s.kind.isPrimitive then do
      let name ← takeText
      pure (.type .none name .nil false .nil 0 (.point start))
    else raise (v.wrong .illegalStartOfType)
  let n ← dims
  return completeType annotations n (← since start) named

theorem type_eq : Grammar.type =
    mark >>= fun start => call (.annotations true) >>= fun annotations =>
      typeBehind start annotations := rfl

section Reading

variable {setting : Setting} {inLabels : Bool} {s : State} {rest : List Word}

variable (setting inLabels) in
theorem dims_reads {n : Nat} {bs : List Word} (h : Brackets n bs) (hs : s.pieces = bs ++ rest)
    (hrest : Heads (· != .lbracket) rest) :
    ∃ t, s.Onto t rest ∧ ComesTo setting inLabels dims s (pure n) t := by
  have hdims (us : List Word) (hus : Heads (· != .lbracket) us) (ts : List Symbol)
      (hts : ts.map Symbol.word = bs ++ us) : Lookahead.dims ts = n ∧ bs.length = 2 * n := by
    clear hs
    induction h generalizing ts with
    | zero =>
      refine ⟨?_, rfl⟩
      unfold Lookahead.dims
      split
      · rename_i x y more
        refine if_neg fun hboth => ?_
        have hne := hus x.word (by rw [← show _ = us from hts]; rfl)
        rw [show x.word.1 = .lbracket from hboth.1] at hne
        cases hne
      · rfl
    | succ hl hr _ ih =>
      obtain ⟨x, more, rfl, rfl, hmore⟩ := List.map_eq_cons_iff.mp hts
      obtain ⟨y, others, rfl, rfl, hothers⟩ := List.map_eq_cons_iff.mp hmore
      obtain ⟨hdims, hlength⟩ := ih others hothers
      rw [Lookahead.dims, if_pos ⟨hl, hr⟩, hdims]
      exact ⟨rfl, by simp only [List.length_cons]; omega⟩
  have hkinds : ∀ w ∈ bs, w.1 ≠ .greater := fun w hw => by
    rcases h.kinds w hw with hk | hk <;> simp [hk]
  obtain ⟨vs, hwords, rfl⟩ := words_of_pieces hkinds hs
  obtain ⟨hn, hlength⟩ := hdims vs (heads_of_pieces hrest rfl) s.ahead hwords
  refine ⟨s.advance (2 * n), ?_, fun Q hQ => ?_⟩
  · rw [← hlength]
    exact (State.past_advance bs hwords).onto rfl
  · unfold dims
    rw [ensures_ahead_bind, ensures_advance_bind, hn]
    exact hQ

/-- The first piece is the first word, or a closing bracket off a fused one. -/
theorem front_cases {w : Word} (hs : s.pieces = w :: rest) :
    ∃ x more, s.ahead = x :: more ∧ s.words = x.word :: more.map Symbol.word ∧
      (isFused x.kind = true ∧ w.1 = .greater ∧ s.splitAngle.pieces = rest ∨
        isFused x.kind = false ∧ x.word = w ∧ pieces (more.map Symbol.word) = rest) := by
  cases hahead : s.ahead with
  | nil =>
    unfold State.pieces State.words at hs
    rw [hahead] at hs
    cases hs
  | cons x more =>
    have hwords := State.words_of_ahead hahead
    refine ⟨x, more, rfl, hwords, ?_⟩
    cases hx : isFused x.kind with
    | true =>
      rw [State.pieces_splitAngle hahead hx] at hs
      obtain ⟨rfl, hrest⟩ := List.cons.inj hs
      exact .inl ⟨rfl, rfl, hrest⟩
    | false =>
      rw [State.pieces_of_words hwords, pieces_cons, Word.pieces_of_not_fused hx] at hs
      obtain ⟨hword, hrest⟩ := List.cons.inj hs
      exact .inr ⟨rfl, hword, hrest⟩

variable (setting inLabels) in
/-- A closing bracket is taken alone or off a fused word. -/
theorem closeAngle_reads {g : Word} (hs : s.pieces = g :: rest) (hg : g.1 = .greater) :
    ∃ t, s.Onto t rest ∧ ComesTo setting inLabels closeAngle s (pure ()) t := by
  obtain ⟨x, more, -, hwords, ⟨hx, -, hrest⟩ | ⟨-, rfl, hrest⟩⟩ := front_cases hs
  · refine ⟨s.splitAngle, ⟨hrest, by simp, by simp⟩, fun Q hQ => ?_⟩
    have hsingle : Lookahead.next [.greater] s.ahead = false := by
      rw [State.next_eq hwords]
      refine beq_eq_false_iff_ne.mpr fun hk => ?_
      rw [show x.kind = .greater from hk] at hx
      cases hx
    unfold closeAngle
    rw [ensures_view_bind, State.view_ahead, if_neg (by simp [hsingle]),
      if_pos (by rw [State.nextOneOf_eq hwords]; exact hx)]
    exact hQ
  · refine ⟨s.advance 1, (State.past_one hwords).onto hrest, fun Q hQ => ?_⟩
    unfold closeAngle
    rw [ensures_view_bind, State.view_ahead, if_pos (State.next_eq_true hwords hg)]
    exact hQ

theorem closesAngle_eq {w : Word} (hs : s.pieces = w :: rest) :
    closesAngle s.ahead = (w.1 == .greater) := by
  obtain ⟨x, more, -, hwords, hfront⟩ := front_cases hs
  have heq : closesAngle s.ahead = (x.kind == .greater || isFused x.kind) := by
    rw [closesAngle, State.nextOneOf_eq hwords, List.contains_cons]
    rfl
  rw [heq]
  rcases hfront with ⟨hx, hw, -⟩ | ⟨hx, rfl, -⟩
  · rw [hx, hw, Bool.or_true]
    rfl
  · rw [hx, Bool.or_false]
    rfl

/-- The rest of a wildcard behind its question mark. -/
def wildcardBehind (start : Mark) (annotations : Tree (.list .annot)) : Rule (Tree .typeArg) := do
  if ← accept .extendsKw then
    let bound ← call .type
    return .wildcardExtends annotations bound (← since start)
  else if ← accept .superKw then
    let bound ← call .type
    return .wildcardSuper annotations bound (← since start)
  else return .wildcard annotations (← since start)

/-- What each part of a type is read as. A class type is read from its first name on, up to the loop
over its further segments. -/
def TypePart.IsRead (setting : Setting) (inLabels : Bool) : TypePart → List Word → Prop
  | .segments outer name diamond, us => ∀ s rest start, s.pieces = us ++ rest →
      ∃ read t, read.erase = outer.erase ∧ s.Onto t rest ∧ ComesTo setting inLabels
        (takeText >>= fun first => call (.typeSegments start .none first false)) s
        (typeSegments start read name diamond) t
  | .args opened trees, gs => ∀ s rest, s.pieces = gs ++ rest → Heads (· != .less) rest →
      Lookahead.next [.less] s.ahead = opened ∧ ∃ read t, read.erase = trees.erase ∧
        s.Onto t rest ∧ ComesTo setting inLabels (listIf opened (call .typeArgs)) s (pure read) t
  | .list trees, us => ∀ s g rest, s.pieces = us ++ g :: rest → g.1 = .greater →
      ∃ read t, read.erase = trees.erase ∧ s.Onto t (g :: rest) ∧
        ComesTo setting inLabels typeArgList s (pure read) t
  | .arg tree, us => ∀ s rest, s.pieces = us ++ rest → Heads endsArg rest →
      ∃ read t, read.erase = tree.erase ∧ s.Onto t rest ∧
        ComesTo setting inLabels Grammar.typeArg s (pure read) t
  | .bare (.type outer name trees diamond _ n _), us => ∀ s rest start annotations,
      s.pieces = us ++ rest → Heads endsType rest →
      ∃ outer' trees' extent t, outer'.erase = outer.erase ∧ trees'.erase = trees.erase ∧
        s.Onto t rest ∧ ComesTo setting inLabels (typeBehind start annotations) s
          (pure (.type outer' name trees' diamond annotations n extent)) t
  | .type tree, us => ∀ s rest, s.pieces = us ++ rest → Heads endsType rest →
      (∃ read t, read.erase = tree.erase ∧ s.Onto t rest ∧
        ComesTo setting inLabels Grammar.type s (pure read) t) ∧
      ∃ read t, read.erase = tree.erase ∧ s.Onto t rest ∧
        ComesTo setting inLabels Grammar.typeArg s (pure (.typeArg read)) t

/-- What types, and arguments, start with. -/
def opensType (k : Kind) : Bool :=
  k == .identifier || k.isPrimitive

def opensArg (k : Kind) : Bool :=
  opensType k || k == .question || k == .atSign

theorem opensType_facts {k : Kind} (h : opensType k = true) :
    endsAnnotations k = true ∧ k ≠ .question ∧ k ≠ .atSign := by
  revert h
  cases k <;> decide

/-- What the words of a part start with. -/
def TypePart.Opens : TypePart → List Word → Prop
  | .segments _ _ _, us => ∃ w more, us = w :: more ∧ w.1 = .identifier
  | .bare _, us => ∃ w more, us = w :: more ∧ opensType w.1 = true
  | .args _ _, _ => True
  | _, us => ∃ w more, us = w :: more ∧ opensArg w.1 = true

theorem Spells.opens {part : TypePart} {us : List Word} (h : Spells part us) : part.Opens us := by
  have hannotated {annotations : Tree (.list .annot)} {vs ws : List Word} {w : Word}
      (hvs : Annotates annotations vs) (hw : opensArg w.1 = true) :
      ∃ x more, vs ++ w :: ws = x :: more ∧ opensArg x.1 = true := by
    cases vs with
    | nil => exact ⟨w, ws, rfl, hw⟩
    | cons x vs =>
      refine ⟨x, vs ++ w :: ws, rfl, ?_⟩
      rw [beq_iff_eq.mp (hvs.opens x rfl)]
      rfl
  induction h with
  | first hname => exact ⟨_, _, rfl, hname⟩
  | fold _ _ _ _ _ ih | nest _ _ _ _ _ _ ih =>
    obtain ⟨w, more, rfl, hw⟩ := ih
    exact ⟨w, _, rfl, hw⟩
  | closed | empty | listed => trivial
  | one _ ih => exact ih
  | more _ _ _ ih =>
    obtain ⟨w, more, rfl, hw⟩ := ih
    exact ⟨w, _, rfl, hw⟩
  | typeArg _ ih => exact ih
  | wildcard hvs hw | wildcardExtends hvs hw | wildcardSuper hvs hw =>
    exact hannotated hvs (by rw [hw]; rfl)
  | primitive hw => exact ⟨_, _, rfl, by simp [opensType, hw]⟩
  | classType _ _ _ ih =>
    obtain ⟨w, more, rfl, hw⟩ := ih
    exact ⟨w, _, rfl, by rw [hw]; rfl⟩
  | type hvs _ ih =>
    obtain ⟨w, more, rfl, hw⟩ := ih
    exact hannotated hvs (by simp [opensArg, hw])

theorem Lookahead.not_next_of_first {k : Kind} {ks : List Kind} {ts : List Symbol}
    (h : next [k] ts = false) : next (k :: ks) ts = false := by
  cases ts with
  | nil => rfl
  | cons x rest =>
    simp only [next, Bool.and_true] at h
    simp [next, h]

/-! Each way to put the words of a part together. -/

section Parts

variable {outer : Tree (.option .type)} {name : String} {diamond opened : Bool}
  {trees : Tree (.list .typeArg)} {annotations : Tree (.list .annot)} {start : Mark}
  {us gs vs : List Word} {w : Word}

theorem isNil_of_erase_eq {c : Category} {tree other : Tree (.list c)}
    (h : tree.erase = other.erase) : tree.isNil = other.isNil := by
  cases tree <;> cases other <;> first | rfl | cases h

theorem typeSegments_next (start : Mark) (outer : Tree (.option .type)) (name : String)
    (diamond : Bool) {dot : Word}
    (hargs : TypePart.IsRead setting inLabels (.args opened trees) gs) (hdot : dot.1 = .dot)
    (hannotations : Markers annotations vs) (hname : w.1 = .identifier)
    (hs : s.pieces = gs ++ dot :: (vs ++ w :: rest)) :
    ∃ read t extent, read.erase = trees.erase ∧ s.Onto t rest ∧
      ComesTo setting inLabels (typeSegments start outer name diamond) s
        (if trees.isNil then call (.typeSegments start outer (name ++ "." ++ w.2)
            (if opened then trees.isNil else diamond))
          else call (.typeSegments start (.some (.type outer name read
            (if opened then trees.isNil else diamond) .nil 0 extent)) w.2 false)) t := by
  obtain ⟨hopened, read, t, hread, honto, hcomes⟩ := hargs s _ hs (heads_cons (by rw [hdot]; rfl))
  have hone := State.onto_one honto.pieces (by simp [hdot])
  have hends : Heads endsAnnotations (w :: rest) := heads_cons (by rw [hname]; rfl)
  obtain ⟨others, u, -, honto', hcomes'⟩ := annotations_reads setting inLabels false
    hannotations hone.pieces hends
  have hlast := State.onto_one honto'.pieces (by simp [hname])
  refine ⟨read, u.advance 1, ((u.advance 1).view inLabels).since start, hread,
    ((honto.trans hone).trans honto').trans hlast, fun Q hQ => ?_⟩
  have hnext : (Lookahead.next [.dot, .identifier] t.ahead ||
      Lookahead.next [.dot, .atSign] t.ahead) = true := by
    obtain ⟨x, more, hx, hkind⟩ : ∃ x more, vs ++ w :: rest = x :: more ∧
        (x.1 = .identifier ∨ x.1 = .atSign) := by
      cases vs with
      | nil => exact ⟨w, rest, rfl, .inl hname⟩
      | cons x vs =>
        exact ⟨x, vs ++ w :: rest, rfl, .inr (beq_iff_eq.mp (hannotations.opens x rfl))⟩
    have htwo := honto.pieces
    rw [hx] at htwo
    have hother : x.1 ≠ .greater := by rcases hkind with hk | hk <;> simp [hk]
    rw [State.next_two_of_pieces htwo (by simp [hdot]) hother,
      State.next_two_of_pieces htwo (by simp [hdot]) hother, hdot]
    rcases hkind with hk | hk <;> simp [hk]
  unfold typeSegments
  rw [ensures_check_bind, hopened]
  refine hcomes.bind _ Q ?_
  rw [ensures_pure_bind, ensures_ahead_bind, if_pos hnext, ensures_advance_bind]
  refine ensures_rule_bind.mpr (hcomes'.bind _ Q ?_)
  obtain ⟨ws, hwords, -⟩ := State.words_of_piece honto'.pieces (by simp [hname])
  refine ensures_identifier_yes hwords hname ?_
  rw [isNil_of_erase_eq hread]
  split
  · rename_i hnil
    rw [if_pos hnil] at hQ
    exact hQ
  · rename_i hnil
    rw [if_neg hnil] at hQ
    exact hQ

theorem typeSegments_stop (start : Mark) (outer : Tree (.option .type)) (name : String)
    (diamond : Bool)
    (hargs : TypePart.IsRead setting inLabels (.args opened trees) gs) (hs : s.pieces = gs ++ rest)
    (hless : Heads (· != .less) rest) (hdot : Heads (· != .dot) rest) :
    ∃ read t, read.erase = trees.erase ∧ s.Onto t rest ∧
      ComesTo setting inLabels (typeSegments start outer name diamond) s
        (pure (.type outer name read (if opened then trees.isNil else diamond) .nil 0
          (.point start))) t := by
  obtain ⟨hopened, read, t, hread, honto, hcomes⟩ := hargs s _ hs hless
  refine ⟨read, t, hread, honto, fun Q hQ => ?_⟩
  have hdot' : Lookahead.next [.dot] t.ahead = false := by
    rw [← honto.pieces] at hdot
    exact State.not_next_of_pieces hdot rfl
  have hnext : (Lookahead.next [.dot, .identifier] t.ahead ||
      Lookahead.next [.dot, .atSign] t.ahead) = false := by
    rw [Bool.or_eq_false_iff]
    exact ⟨Lookahead.not_next_of_first hdot', Lookahead.not_next_of_first hdot'⟩
  unfold typeSegments
  rw [ensures_check_bind, hopened]
  refine hcomes.bind _ Q ?_
  rw [ensures_pure_bind, ensures_ahead_bind, if_neg (by simp [hnext]), isNil_of_erase_eq hread]
  exact hQ

theorem reads_first (hname : w.1 = .identifier) :
    TypePart.IsRead setting inLabels (.segments .none w.2 false) [w] := by
  intro s rest start hs
  obtain ⟨ws, hwords, -⟩ := State.words_of_piece hs (by simp [hname])
  refine ⟨.none, s.advance 1, rfl, State.onto_one hs (by simp [hname]), fun Q hQ => ?_⟩
  exact ensures_takeText hwords (ensures_rule.mpr hQ)

theorem reads_fold {dot : Word}
    (hbefore : TypePart.IsRead setting inLabels (.segments outer name diamond) us)
    (hargs : TypePart.IsRead setting inLabels (.args opened .nil) gs) (hdot : dot.1 = .dot)
    (hannotations : Markers annotations vs) (hname : w.1 = .identifier) :
    TypePart.IsRead setting inLabels (.segments outer (name ++ "." ++ w.2) (opened || diamond))
      (us ++ (gs ++ dot :: (vs ++ [w]))) := by
  intro s rest start hs
  simp only [List.append_assoc, List.cons_append, List.nil_append] at hs
  obtain ⟨read, t, hread, honto, hcomes⟩ := hbefore s _ start hs
  obtain ⟨_, u, _, -, honto', hcomes'⟩ :=
    typeSegments_next start read name diamond hargs hdot hannotations hname honto.pieces
  refine ⟨read, u, hread, honto.trans honto', hcomes.trans (hcomes'.trans ?_)⟩
  have hdiamond : (if opened then true else diamond) = (opened || diamond) := by
    cases opened <;> rfl
  rw [← hdiamond]
  exact ComesTo.call _

theorem reads_nest {dot : Word} {extent : Extent}
    (hbefore : TypePart.IsRead setting inLabels (.segments outer name diamond) us)
    (hargs : TypePart.IsRead setting inLabels (.args true trees) gs) (hgiven : trees.isNil = false)
    (hdot : dot.1 = .dot) (hannotations : Markers annotations vs) (hname : w.1 = .identifier) :
    TypePart.IsRead setting inLabels
      (.segments (.some (.type outer name trees false .nil 0 extent)) w.2 false)
      (us ++ (gs ++ dot :: (vs ++ [w]))) := by
  intro s rest start hs
  simp only [List.append_assoc, List.cons_append, List.nil_append] at hs
  obtain ⟨read, t, hread, honto, hcomes⟩ := hbefore s _ start hs
  obtain ⟨given, u, extent', hgivens, honto', hcomes'⟩ :=
    typeSegments_next start read name diamond hargs hdot hannotations hname honto.pieces
  refine ⟨.some (.type read name given false .nil 0 extent'), u, ?_, honto.trans honto',
    hcomes.trans (hcomes'.trans ?_)⟩
  · show Tree.some (Tree.type read.erase name given.erase false .nil 0 Tree.nowhere) =
      .some (.type outer.erase name trees.erase false .nil 0 Tree.nowhere)
    rw [hread, hgivens]
  · simp only [hgiven, Bool.false_eq_true, if_false, if_true]
    exact ComesTo.call _

theorem reads_closed : TypePart.IsRead setting inLabels (.args false .nil) [] := by
  intro s rest hs hrest
  rw [← show s.pieces = rest from hs] at hrest
  exact ⟨State.not_next_of_pieces hrest rfl, .nil, s, rfl, State.onto_self hs, ComesTo.rfl⟩

theorem reads_empty {l g : Word} (hl : l.1 = .less) (hg : g.1 = .greater) :
    TypePart.IsRead setting inLabels (.args true .nil) [l, g] := by
  intro s rest hs _
  have hone := State.onto_one (w := l) hs (by simp [hl])
  obtain ⟨t, honto, hcomes⟩ := closeAngle_reads setting inLabels hone.pieces hg
  obtain ⟨ws, hwords, -⟩ := State.words_of_piece (w := l) hs (by simp [hl])
  refine ⟨State.next_eq_true hwords hl, .nil, t, rfl, hone.trans honto, fun Q hQ => ?_⟩
  refine ensures_rule.mpr ?_
  show typeArgs.Ensures _ _ _ _ _
  unfold typeArgs
  refine ensures_expect_yes hwords hl ?_
  rw [ensures_ahead_bind, closesAngle_eq hone.pieces, hg, beq_self_eq_true, Bool.not_true,
    listIf_false, ensures_pure_bind]
  exact hcomes.bind _ Q hQ

theorem reads_listed {l g : Word} (hl : l.1 = .less) (hg : g.1 = .greater)
    (hopens : TypePart.Opens (.list trees) us)
    (hlist : TypePart.IsRead setting inLabels (.list trees) us) :
    TypePart.IsRead setting inLabels (.args true trees) (l :: (us ++ [g])) := by
  intro s rest hs _
  simp only [List.append_assoc, List.cons_append, List.nil_append] at hs
  have hone := State.onto_one hs (by simp [hl])
  obtain ⟨read, t, hread, honto, hcomes⟩ := hlist (s.advance 1) g rest hone.pieces hg
  obtain ⟨u, honto', hcomes'⟩ := closeAngle_reads setting inLabels honto.pieces hg
  obtain ⟨ws, hwords, -⟩ := State.words_of_piece hs (by simp [hl])
  refine ⟨State.next_eq_true hwords hl, read, u, hread, (hone.trans honto).trans honto',
    fun Q hQ => ?_⟩
  have hcloses : closesAngle (s.advance 1).ahead = false := by
    obtain ⟨x, more, rfl, hx⟩ := hopens
    rw [closesAngle_eq hone.pieces, beq_eq_false_iff_ne]
    rintro hk
    rw [hk] at hx
    cases hx
  refine ensures_rule.mpr ?_
  show typeArgs.Ensures _ _ _ _ _
  unfold typeArgs
  refine ensures_expect_yes hwords hl ?_
  rw [ensures_ahead_bind, hcloses]
  exact ensures_rule_bind.mpr (hcomes.bind _ Q (hcomes'.bind _ Q hQ))

theorem reads_one {tree : Tree .typeArg} (harg : TypePart.IsRead setting inLabels (.arg tree) us) :
    TypePart.IsRead setting inLabels (.list (.cons tree .nil)) us := by
  intro s g rest hs hg
  obtain ⟨read, t, hread, honto, hcomes⟩ := harg s _ hs (heads_cons (by rw [hg]; rfl))
  refine ⟨.cons read .nil, t, by rw [Tree.erase_cons, hread]; rfl, honto, fun Q hQ => ?_⟩
  unfold typeArgList
  refine hcomes.bind _ Q (ensures_accept_no (heads_of_pieces ?_ rfl) hQ)
  rw [show pieces t.words = g :: rest from honto.pieces]
  exact heads_cons (by rw [hg]; rfl)

theorem reads_more {tree : Tree .typeArg} {comma : Word}
    (harg : TypePart.IsRead setting inLabels (.arg tree) us) (hcomma : comma.1 = .comma)
    (hlist : TypePart.IsRead setting inLabels (.list trees) vs) :
    TypePart.IsRead setting inLabels (.list (.cons tree trees)) (us ++ comma :: vs) := by
  intro s g rest hs hg
  rw [List.append_assoc, List.cons_append] at hs
  obtain ⟨read, t, hread, honto, hcomes⟩ := harg s _ hs (heads_cons (by rw [hcomma]; rfl))
  have hone := State.onto_one honto.pieces (by simp [hcomma])
  obtain ⟨others, u, hothers, honto', hcomes'⟩ := hlist (t.advance 1) g rest hone.pieces hg
  obtain ⟨ws, hwords, -⟩ := State.words_of_piece honto.pieces (by simp [hcomma])
  refine ⟨.cons read others, u, by rw [Tree.erase_cons, hread, hothers]; rfl,
    (honto.trans hone).trans honto', fun Q hQ => ?_⟩
  unfold typeArgList
  refine hcomes.bind _ Q (ensures_accept_yes hwords hcomma ?_)
  exact ensures_rule_bind.mpr (hcomes'.bind _ Q hQ)

variable (setting inLabels) in
theorem typeArg_question (hannotations : Markers annotations vs) (hquestion : w.1 = .question)
    (hs : s.pieces = vs ++ w :: rest) :
    ∃ read t, read.erase = annotations.erase ∧ s.Onto t rest ∧
      ComesTo setting inLabels Grammar.typeArg s
        (wildcardBehind (s.view inLabels).mark read) t := by
  obtain ⟨read, t, hread, honto, hcomes⟩ := annotations_reads setting inLabels true
    hannotations hs (heads_cons (by rw [hquestion]; rfl))
  have hone := State.onto_one honto.pieces (by simp [hquestion])
  obtain ⟨ws, hwords, -⟩ := State.words_of_piece honto.pieces (by simp [hquestion])
  refine ⟨read, t.advance 1, hread, honto.trans hone, fun Q hQ => ?_⟩
  unfold Grammar.typeArg
  rw [ensures_mark_bind]
  exact ensures_rule_bind.mpr (hcomes.bind _ Q (ensures_accept_yes hwords hquestion hQ))

theorem reads_wildcard {extent : Extent} (hannotations : Markers annotations vs)
    (hquestion : w.1 = .question) :
    TypePart.IsRead setting inLabels (.arg (.wildcard annotations extent)) (vs ++ [w]) := by
  intro s rest hs hrest
  rw [List.append_assoc, List.singleton_append] at hs
  obtain ⟨read, t, hread, honto, hcomes⟩ := typeArg_question setting inLabels
    hannotations hquestion hs
  refine ⟨.wildcard read ((t.view inLabels).since (s.view inLabels).mark), t, ?_, honto,
    hcomes.trans fun Q hQ => ?_⟩
  · show Tree.wildcard read.erase _ = Tree.wildcard annotations.erase _
    rw [hread]
  have hnone {k : Kind} (hk : endsArg k = false) : Heads (· != k) t.pieces := by
    rw [honto.pieces]
    refine hrest.mono fun l hl => bne_iff_ne.mpr fun heq => ?_
    rw [heq, hk] at hl
    cases hl
  unfold wildcardBehind
  refine ensures_accept_no (heads_of_pieces (hnone rfl) rfl) ?_
  exact ensures_accept_no (heads_of_pieces (hnone rfl) rfl) hQ

theorem reads_wildcardExtends {bound : Tree .type} {extent : Extent} {x : Word}
    (hannotations : Markers annotations vs) (hquestion : w.1 = .question)
    (hextends : x.1 = .extendsKw) (hbound : TypePart.IsRead setting inLabels (.type bound) us) :
    TypePart.IsRead setting inLabels (.arg (.wildcardExtends annotations bound extent))
      (vs ++ w :: x :: us) := by
  intro s rest hs hrest
  rw [List.append_assoc, List.cons_append, List.cons_append] at hs
  obtain ⟨read, t, hread, honto, hcomes⟩ := typeArg_question setting inLabels
    hannotations hquestion hs
  have hone := State.onto_one honto.pieces (by simp [hextends])
  obtain ⟨ws, hwords, -⟩ := State.words_of_piece honto.pieces (by simp [hextends])
  obtain ⟨⟨type, u, htype, honto', hcomes'⟩, -⟩ :=
    hbound (t.advance 1) rest hone.pieces (hrest.mono fun _ => endsType_of_endsArg)
  refine ⟨.wildcardExtends read type ((u.view inLabels).since (s.view inLabels).mark), u, ?_,
    (honto.trans hone).trans honto', hcomes.trans fun Q hQ => ?_⟩
  · show Tree.wildcardExtends read.erase type.erase _ =
      Tree.wildcardExtends annotations.erase bound.erase _
    rw [hread, htype]
  unfold wildcardBehind
  refine ensures_accept_yes hwords hextends ?_
  exact ensures_rule_bind.mpr (hcomes'.bind _ Q hQ)

theorem reads_wildcardSuper {bound : Tree .type} {extent : Extent} {x : Word}
    (hannotations : Markers annotations vs) (hquestion : w.1 = .question)
    (hsuper : x.1 = .superKw) (hbound : TypePart.IsRead setting inLabels (.type bound) us) :
    TypePart.IsRead setting inLabels (.arg (.wildcardSuper annotations bound extent))
      (vs ++ w :: x :: us) := by
  intro s rest hs hrest
  rw [List.append_assoc, List.cons_append, List.cons_append] at hs
  obtain ⟨read, t, hread, honto, hcomes⟩ := typeArg_question setting inLabels
    hannotations hquestion hs
  have hone := State.onto_one honto.pieces (by simp [hsuper])
  obtain ⟨ws, hwords, -⟩ := State.words_of_piece honto.pieces (by simp [hsuper])
  obtain ⟨⟨type, u, htype, honto', hcomes'⟩, -⟩ :=
    hbound (t.advance 1) rest hone.pieces (hrest.mono fun _ => endsType_of_endsArg)
  refine ⟨.wildcardSuper read type ((u.view inLabels).since (s.view inLabels).mark), u, ?_,
    (honto.trans hone).trans honto', hcomes.trans fun Q hQ => ?_⟩
  · show Tree.wildcardSuper read.erase type.erase _ =
      Tree.wildcardSuper annotations.erase bound.erase _
    rw [hread, htype]
  have hextends : Heads (· != .extendsKw) t.words := by
    rw [hwords]
    exact heads_cons (by rw [hsuper]; rfl)
  unfold wildcardBehind
  refine ensures_accept_no hextends (ensures_accept_yes hwords hsuper ?_)
  exact ensures_rule_bind.mpr (hcomes'.bind _ Q hQ)

theorem reads_primitive {n : Nat} {extent : Extent} {bs : List Word}
    (hprimitive : w.1.isPrimitive = true) (hdims : Brackets n bs) :
    TypePart.IsRead setting inLabels (.bare (.type .none w.2 .nil false .nil n extent))
      (w :: bs) := by
  intro s rest start annotations hs hrest
  have hother : w.1 ≠ .greater := fun hk => by
    rw [hk] at hprimitive
    cases hprimitive
  obtain ⟨ws, hwords, -⟩ := State.words_of_piece hs hother
  have hone := State.onto_one hs hother
  obtain ⟨t, honto, hcomes⟩ := dims_reads setting inLabels hdims
    hone.pieces (hrest.mono fun k hk => by simp_all [endsType])
  refine ⟨.none, .nil, (t.view inLabels).since start, t, rfl, rfl, hone.trans honto,
    fun Q hQ => ?_⟩
  have hname : Lookahead.next [.identifier] s.ahead = false := by
    rw [State.next_eq hwords]
    refine beq_eq_false_iff_ne.mpr fun hk => ?_
    rw [hk] at hprimitive
    cases hprimitive
  have hkind : (s.ahead.head?.any fun x => x.kind.isPrimitive) = true := by
    obtain ⟨x, more, hahead, rfl, -⟩ := State.ahead_of_words hwords
    rw [hahead]
    exact hprimitive
  unfold typeBehind
  rw [ensures_view_bind, State.view_ahead, if_neg (by simp [hname]), if_pos hkind]
  exact ensures_takeText hwords (hcomes.bind _ Q hQ)

theorem reads_classType {n : Nat} {extent : Extent} {bs : List Word}
    (hopens : TypePart.Opens (.segments outer name diamond) us)
    (hbefore : TypePart.IsRead setting inLabels (.segments outer name diamond) us)
    (hargs : TypePart.IsRead setting inLabels (.args opened trees) gs) (hdims : Brackets n bs) :
    TypePart.IsRead setting inLabels
      (.bare (.type outer name trees (if opened then trees.isNil else diamond) .nil n extent))
      (us ++ (gs ++ bs)) := by
  intro s rest start annotations hs hrest
  rw [List.append_assoc, List.append_assoc] at hs
  obtain ⟨w, more, rfl, hname⟩ := hopens
  obtain ⟨read, t, hread, honto, hcomes⟩ := hbefore s _ start hs
  have hbrackets (k : Kind) (hk : endsType k = false) (hl : k ≠ .lbracket) :
      Heads (· != k) (bs ++ rest) := by
    refine Heads.append ?_ (hrest.mono fun l hl => bne_iff_ne.mpr fun heq => ?_)
    · intro x hx
      rw [hdims.opens x hx]
      exact bne_iff_ne.mpr (Ne.symm hl)
    · rw [heq, hk] at hl
      cases hl
  obtain ⟨given, u, hgiven, honto', hcomes'⟩ := typeSegments_stop start read name diamond hargs
    honto.pieces (hbrackets _ rfl (by decide)) (hbrackets _ rfl (by decide))
  obtain ⟨v, honto'', hcomes''⟩ := dims_reads setting inLabels hdims
    honto'.pieces (hrest.mono fun k hk => by simp_all [endsType])
  refine ⟨read, given, (v.view inLabels).since start, v, hread, hgiven,
    (honto.trans honto').trans honto'', fun Q hQ => ?_⟩
  unfold typeBehind
  rw [ensures_view_bind, State.view_ahead,
    if_pos (State.next_of_piece hs (by simp [hname]) hname)]
  have hnamed := (hcomes.trans hcomes').bind (β := Tree .type)
    (fun named => Grammar.dims >>= fun n => since start >>= fun extent =>
      pure (completeType annotations n extent named))
  exact hnamed Q (hcomes''.bind _ Q hQ)

theorem Tree.append_nil {c : Category} : (tree : Tree (.list c)) → tree.append .nil = tree
  | .nil => rfl
  | .cons head tail => congrArg (Tree.cons head) tail.append_nil

theorem reads_type {n : Nat} {extent extent' : Extent}
    (hopens : TypePart.Opens (.bare (.type outer name trees diamond .nil n extent)) us)
    (hannotations : Markers annotations vs)
    (hbare : TypePart.IsRead setting inLabels
      (.bare (.type outer name trees diamond .nil n extent)) us) :
    TypePart.IsRead setting inLabels
      (.type (.type outer name trees diamond annotations n extent')) (vs ++ us) := by
  intro s rest hs hrest
  obtain ⟨w, more, rfl, hw⟩ := hopens
  obtain ⟨hends, hquestion, hat⟩ := opensType_facts hw
  rw [List.append_assoc] at hs
  obtain ⟨read, t, hread, honto, hcomes⟩ := annotations_reads setting inLabels true
    hannotations hs (heads_cons hends)
  have herase (e : Extent) {outer' : Tree (.option .type)} {trees' : Tree (.list .typeArg)}
      (houter : outer'.erase = outer.erase) (htrees : trees'.erase = trees.erase) :
      (Tree.type outer' name trees' diamond read n e).erase =
        (Tree.type outer name trees diamond annotations n extent').erase := by
    show Tree.type outer'.erase name trees'.erase diamond read.erase n _ =
      Tree.type outer.erase name trees.erase diamond annotations.erase n _
    rw [houter, htrees, hread]
  constructor
  · obtain ⟨outer', trees', e, u, houter, htrees, honto', hcomes'⟩ :=
      hbare t rest (s.view inLabels).mark read honto.pieces hrest
    refine ⟨_, u, herase e houter htrees, honto.trans honto', fun Q hQ => ?_⟩
    rw [type_eq, ensures_mark_bind]
    exact ensures_rule_bind.mpr (hcomes.bind _ Q (hcomes' Q hQ))
  · -- The annotations are taken by the argument, so that its type finds none.
    obtain ⟨outer', trees', e, u, houter, htrees, honto', hcomes'⟩ :=
      hbare t rest (t.view inLabels).mark .nil honto.pieces hrest
    refine ⟨_, u, herase ((u.view inLabels).since (s.view inLabels).mark) houter htrees,
      honto.trans honto', fun Q hQ => ?_⟩
    have hhead {k : Kind} (hk : w.1 ≠ k) : Heads (· != k) t.pieces := by
      rw [honto.pieces]
      exact heads_cons (bne_iff_ne.mpr hk)
    unfold Grammar.typeArg
    rw [ensures_mark_bind]
    refine ensures_rule_bind.mpr (hcomes.bind _ Q (ensures_accept_no
      (heads_of_pieces (hhead hquestion) rfl) (ensures_rule_bind.mpr ?_)))
    show (Grammar.type >>= _).Ensures _ _ _ _ _
    have htype : ComesTo setting inLabels Grammar.type t
        (pure (.type outer' name trees' diamond .nil n e)) u := by
      intro P hP
      rw [type_eq, ensures_mark_bind]
      have hnone := annotations_none setting inLabels true (hhead hat)
      exact ensures_rule_bind.mpr (hnone.bind _ P (hcomes' P hP))
    refine htype.bind _ Q ?_
    show Q (.ok (.typeArg (.type outer' name trees' diamond (read.append .nil) n _))) u
    rw [Tree.append_nil]
    exact hQ

end Parts

/-- Every part of a type that has no arguments in its annotations is read from its words. -/
theorem Spells.isRead {part : TypePart} {us : List Word} (h : Spells part us)
    (hus : ∀ w ∈ us, w.1 ≠ .lparen) : part.IsRead setting inLabels us := by
  induction h with
  | first hname => exact reads_first hname
  | fold _ _ hdot hvs hname ih ih' =>
    simp only [List.forall_mem_append, List.forall_mem_cons] at hus
    exact reads_fold (ih hus.1) (ih' hus.2.1) hdot (hvs.markers hus.2.2.2.1) hname
  | nest _ hargs hgiven hdot hvs hname ih ih' =>
    simp only [List.forall_mem_append, List.forall_mem_cons] at hus
    cases hargs with
    | closed | empty => cases hgiven
    | listed =>
      exact reads_nest (ih hus.1) (ih' hus.2.1) hgiven hdot (hvs.markers hus.2.2.2.1) hname
  | closed => exact reads_closed
  | empty hl hg => exact reads_empty hl hg
  | listed hl hg hlist ih =>
    simp only [List.forall_mem_append, List.forall_mem_cons] at hus
    exact reads_listed hl hg hlist.opens (ih hus.2.1)
  | one _ ih => exact reads_one (ih hus)
  | more _ hcomma _ ih ih' =>
    simp only [List.forall_mem_append, List.forall_mem_cons] at hus
    exact reads_more (ih hus.1) hcomma (ih' hus.2.2)
  | typeArg _ ih =>
    exact fun s rest hs hrest => by
      obtain ⟨-, read, t, hread, honto, hcomes⟩ :=
        ih hus s rest hs (hrest.mono fun _ => endsType_of_endsArg)
      exact ⟨.typeArg read, t, congrArg Tree.typeArg hread, honto, hcomes⟩
  | wildcard hvs hquestion =>
    exact reads_wildcard (hvs.markers (List.forall_mem_append.mp hus).1) hquestion
  | wildcardExtends hvs hquestion hextends _ ih =>
    simp only [List.forall_mem_append, List.forall_mem_cons] at hus
    exact reads_wildcardExtends (hvs.markers hus.1) hquestion hextends (ih hus.2.2.2)
  | wildcardSuper hvs hquestion hsuper _ ih =>
    simp only [List.forall_mem_append, List.forall_mem_cons] at hus
    exact reads_wildcardSuper (hvs.markers hus.1) hquestion hsuper (ih hus.2.2.2)
  | primitive hprimitive hdims => exact reads_primitive hprimitive hdims
  | classType hbefore _ hdims ih ih' =>
    simp only [List.forall_mem_append] at hus
    exact reads_classType hbefore.opens (ih hus.1) (ih' hus.2.1) hdims
  | type hvs hbare ih =>
    obtain ⟨hvs', hus⟩ := List.forall_mem_append.mp hus
    exact reads_type hbare.opens (hvs.markers hvs') (ih hus)

variable (setting inLabels) in
/-- Words that spell a type are read as it, without a report. -/
theorem wholeType_evaluates {type : Tree .type} (h : Spells (.type type) s.pieces)
    (hplain : ∀ w ∈ s.pieces, w.1 ≠ .lparen) :
    ∃ read t, read.erase = type.erase ∧ t.log = s.log ∧
      (whole .type .typeExpr).Ensures setting (evaluates setting) inLabels s
        fun r u => r = .ok (.typeExpr read) ∧ u = t := by
  obtain ⟨⟨read, t, hread, honto, hcomes⟩, -⟩ :=
    h.isRead hplain s [] (List.append_nil _).symm (fun w hw => by cases hw)
  have hcall : (Grammar.call .type).Ensures setting (evaluates setting) inLabels s
      fun r u => r = .ok read ∧ u = t := ensures_rule.mpr (hcomes _ ⟨rfl, rfl⟩)
  obtain ⟨hpre, hpost⟩ := ensures_call.mp hcall
  refine ⟨read, t, hread, honto.log, ?_⟩
  unfold whole
  rw [ensures_attempt_bind]
  refine ⟨hpre, fun r u hu => ?_⟩
  obtain ⟨rfl, rfl⟩ := hpost r u hu
  change Ensures _ _ _ (finish >>= fun _ => pure (Tree.typeExpr read)) _ _
  refine finish_ends.mono fun r v hv => ⟨hv.1, hv.2.1 ?_⟩
  exact List.map_eq_nil_iff.mp (pieces_eq_nil honto.pieces)

end Reading

/-- A source whose words spell a type is read as it. -/
theorem Session.typeUse_of_spelled {settings : Settings} {source : Source} {words : List Word}
    {type : Tree .type} (hlexes : LexesTo settings.keepDocs source.text words)
    (hspelled : Spells (.type type) (pieces words)) (hplain : ∀ w ∈ pieces words, w.1 ≠ .lparen) :
    ∃ read, (start settings source).typeUse.1 = .typeExpr read ∧ read.erase = type.erase ∧
      (start settings source).typeUse.2.diagnostics = [] := by
  let session := start settings source
  obtain ⟨hwords, hlog, -⟩ := start_of_lexesTo hlexes
  have hpieces : session.state.pieces = pieces words := State.pieces_of_words hwords
  obtain ⟨read, t, hread, ht, hwhole⟩ := wholeType_evaluates session.setting false
    (hpieces ▸ hspelled) (hpieces ▸ hplain)
  have hanswer : session.typeUse = (.typeExpr read, { session with state := t }) :=
    enter_of_ensures rfl hwhole
  have hsession : session.typeUse.2 = { session with state := t } := congrArg Prod.snd hanswer
  refine ⟨read, congrArg Prod.fst hanswer, hread, ?_⟩
  exact (congrArg Session.diagnostics hsession).trans (ht.trans hlog)

end JavaSyntax
