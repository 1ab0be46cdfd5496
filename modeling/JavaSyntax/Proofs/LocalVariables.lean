import JavaSyntax.Proofs.Joining
import JavaSyntax.Proofs.Phrasing
import JavaSyntax.Proofs.Succeeding
import JavaSyntax.Proofs.TypeScanning
import JavaSyntax.Proofs.TypeSoundness

/-!
Types in front of names. Inside a method a type with a name behind it declares a variable: the
scanner that looks ahead for the name comes past every type that is written without the annotations
it stops at, and the name keeps the first word of the type from being read as one of the words that
are reserved only in places.
-/

namespace JavaSyntax

open Grammar Rule

/-- Words that go on with a class type behind its first name. -/
def goesOn (k : Kind) : Bool :=
  k == .dot || k == .less || k == .lbracket

section Second

variable {us : List Word}

theorem Spells.second_segments {outer : Tree (.option .type)} {name : String} {diamond : Bool}
    (h : Spells (.segments outer name diamond) us) :
    ∃ w more, us = w :: more ∧ w.1 = .identifier ∧ Heads goesOn more := by
  have hbehind {opened : Bool} {args : Tree (.list .typeArg)} {gs rest : List Word} {dot : Word}
      (hargs : Spells (.args opened args) gs) (hdot : dot.1 = .dot) :
      Heads goesOn (gs ++ dot :: rest) := by
    cases hargs with
    | closed => exact heads_cons (by rw [hdot]; rfl)
    | empty hl | listed hl => exact heads_cons (by rw [hl]; rfl)
  generalize hpart : TypePart.segments outer name diamond = part at h
  induction h generalizing outer name diamond with
  | @first w hname => exact ⟨w, [], rfl, hname, fun x hx => by cases hx⟩
  | fold _ hargs hdot _ _ ih | nest _ hargs _ hdot _ _ ih =>
    obtain ⟨w, more, rfl, hw, hmore⟩ := ih rfl
    exact ⟨w, _, rfl, hw, hmore.append (hbehind hargs hdot)⟩
  | _ => cases hpart

/-- A type that no annotation stands in front of opens with its name or keyword, and what follows
that goes on with the type. -/
theorem Spells.second {type : Tree .type} (h : Spells (.type type) us)
    (hat : ∀ w ∈ us.head?, w.1 ≠ .atSign) :
    ∃ w more, us = w :: more ∧ (w.1 = .identifier ∨ w.1.isPrimitive = true) ∧
      Heads goesOn more := by
  have hdims {n : Nat} {bs : List Word} (h : Brackets n bs) : Heads goesOn bs :=
    fun w hw => by rw [h.opens w hw]; rfl
  cases h with
  | @type _ _ _ _ _ _ _ _ us vs hannotated hbare =>
    obtain rfl : vs = [] := by
      cases vs with
      | nil => rfl
      | cons w vs => exact absurd (beq_iff_eq.mp (hannotated.opens w rfl)) (hat w rfl)
    cases hbare with
    | primitive hprimitive hbs => exact ⟨_, _, rfl, .inr hprimitive, hdims hbs⟩
    | classType hbefore hargs hbs =>
      obtain ⟨w, more, rfl, hw, hmore⟩ := hbefore.second_segments
      refine ⟨w, _, rfl, .inl hw, hmore.append ?_⟩
      cases hargs with
      | closed => exact hdims hbs
      | empty hl | listed hl => exact heads_cons (by rw [hl]; rfl)

end Second

/-- How a declaration of a variable without modifiers comes next: behind its first word goes on the
type or stands the name, which the semicolon follows. -/
structure DeclaresAhead (name : String) (a b : Symbol) (more : List Symbol) : Prop where
  first : a.kind = .identifier ∨ a.kind.isPrimitive = true
  notVoid : a.kind ≠ .voidKw
  notYield : a.isWord "yield" = false
  second : goesOn b.kind = true ∨
    b.kind = .identifier ∧ b.text = name ∧ Lookahead.next [.semicolon] more = true

/-- What the type of a variable starts with. -/
def variableStarts : List Kind :=
  [.identifier, .intKw, .longKw, .shortKw, .byteKw, .charKw, .booleanKw, .floatKw, .doubleKw]

/-- Names that in front of them make `sealed` or `non` no modifiers. -/
def isPlainName (name : String) : Bool :=
  !(["sealed", "record", "non"].contains name)

namespace DeclaresAhead

variable {name : String} {a b : Symbol} {more : List Symbol}

theorem goesOn_cases {k : Kind} (h : goesOn k = true) : k = .dot ∨ k = .less ∨ k = .lbracket := by
  simp only [goesOn, Bool.or_eq_true, beq_iff_eq] at h
  tauto

theorem first_cases (h : DeclaresAhead name a b more) : a.kind ∈ variableStarts := by
  have hfirst := h.first
  have hvoid := h.notVoid
  revert hfirst hvoid
  cases a.kind <;> decide

theorem isSealed (h : DeclaresAhead name a b more) (hname : isPlainName name = true) :
    Lookahead.isSealed (a :: b :: more) = false := by
  simp only [isPlainName, Bool.not_eq_true', List.contains_cons, List.contains_nil, Bool.or_false,
    Bool.or_eq_false_iff, beq_eq_false_iff_ne] at hname
  rcases h.second with hk | ⟨hk, rfl, -⟩
  · rcases goesOn_cases hk with hk | hk | hk <;>
      simp [Lookahead.isSealed, Symbol.isWord, hk, Kind.isModifier]
  · simp [Lookahead.isSealed, Symbol.isWord, hk, Kind.isModifier, hname]

theorem isNonSealed (h : DeclaresAhead name a b more) :
    Lookahead.isNonSealed (a :: b :: more) = false := by
  have hminus : b.kind ≠ .minus := by
    rcases h.second with hk | ⟨hk, -⟩
    · rcases goesOn_cases hk with hk | hk | hk <;> simp [hk]
    · simp [hk]
  cases more <;> simp [Lookahead.isNonSealed, hminus]

theorem isRecord (h : DeclaresAhead name a b more) :
    Lookahead.isRecord (a :: b :: more) = false := by
  rcases h.second with hk | ⟨hk, -, hmore⟩
  · rcases goesOn_cases hk with hk | hk | hk <;> simp [Lookahead.isRecord, Lookahead.next, hk]
  · cases more with
    | nil => cases hmore
    | cons c more =>
      have hc : c.kind = .semicolon := by simpa [Lookahead.next] using hmore
      simp [Lookahead.isRecord, Lookahead.next, hc]

theorem isYield (h : DeclaresAhead name a b more) : Lookahead.isYield (a :: b :: more) = false := by
  simp [Lookahead.isYield, h.notYield]

theorem nextModifier (h : DeclaresAhead name a b more) (hname : isPlainName name = true) :
    Grammar.nextModifier (a :: b :: more) = none := by
  have hnone : Grammar.lookup modifier? (a :: b :: more) = none := by
    have hall : ∀ k ∈ variableStarts, modifier? k = none := by decide
    exact hall _ h.first_cases
  unfold Grammar.nextModifier
  rw [hnone]
  simp [h.isSealed hname, h.isNonSealed]

end DeclaresAhead

/-- The pieces are those of a type that a variable of this name may have. -/
structure Declares (type : Tree .type) (name : String) (us : List Word) : Prop
    extends Scannable us where
  spelled : Spells (.type type) us
  notYield : ∀ w ∈ us.head?, w ≠ (.identifier, "yield")
  plainName : isPlainName name = true

/-- The declaration of a variable of this type. -/
def variableOf (type : Tree .type) (name : String) : Tree .stmt :=
  .localVariables (.varDecl ⟨[], none⟩ .nil type
    (.cons (.declarator name 0 .none Tree.nowhere) .nil) Tree.nowhere)

section Statement

variable {type : Tree .type} {us rest : List Word} {name : String} {s : State}

theorem Declares.ahead (h : Declares type name us)
    (hs : s.pieces = us ++ (.identifier, name) :: fixed .semicolon :: rest) :
    ∃ a b more, s.ahead = a :: b :: more ∧ DeclaresAhead name a b more := by
  obtain ⟨w, more, rfl, hw, hgo⟩ := h.spelled.second fun w hw => (h.opens w hw).1
  have hopens := h.opens w rfl
  have hfirst : w.1 ≠ .greater := by
    rcases hw with hw | hw
    · simp [hw]
    · exact fun hk => by rw [hk] at hw; cases hw
  have hnot (a : Symbol) (ha : a.word = w) : a.isWord "yield" = false := by
    refine Bool.eq_false_iff.mpr fun hword => h.notYield w rfl ?_
    simp only [Symbol.isWord, Bool.and_eq_true, beq_iff_eq] at hword
    rw [← ha]
    exact Prod.ext hword.1 hword.2
  cases more with
  | nil =>
    obtain ⟨ws, hwords, -⟩ := @words_of_pieces [w, (.identifier, name), fixed .semicolon]
      (by simp [hfirst, fixed]) _ _ hs
    obtain ⟨a, _, hahead, rfl, htail⟩ := List.map_eq_cons_iff.mp hwords
    obtain ⟨b, _, rfl, hb, hmore⟩ := List.map_eq_cons_iff.mp htail
    obtain ⟨c, _, rfl, hc, -⟩ := List.map_eq_cons_iff.mp hmore
    exact ⟨a, b, _, hahead, hw, hopens.2, hnot a rfl,
      .inr ⟨congrArg Prod.fst hb, congrArg Prod.snd hb,
        by simp [Lookahead.next, show c.kind = .semicolon from congrArg Prod.fst hc]⟩⟩
  | cons y ys =>
    have hy : goesOn y.1 = true := hgo y rfl
    obtain ⟨ws, hwords, -⟩ := @words_of_pieces [w, y] (List.forall_mem_cons.mpr ⟨hfirst,
      List.forall_mem_singleton.mpr fun hk => by rw [hk] at hy; cases hy⟩) _ _ hs
    obtain ⟨a, _, hahead, rfl, htail⟩ := List.map_eq_cons_iff.mp hwords
    obtain ⟨b, _, rfl, rfl, -⟩ := List.map_eq_cons_iff.mp htail
    exact ⟨a, b, _, hahead, hw, hopens.2, hnot a rfl, .inl hy⟩

theorem Spells.isLocalVariable (h : Spells (.type type) us) (hus : Scannable us)
    (hs : s.pieces = us ++ (.identifier, name) :: rest) :
    Lookahead.isLocalVariable s.ahead = true := by
  obtain ⟨more, hskip, -, hmore⟩ := h.skipType hus rfl hs
  obtain ⟨x, others, rfl, hx⟩ : ∃ x others, more = x :: others ∧ x.kind = .identifier := by
    obtain ⟨ws, hwords, -⟩ := @words_of_pieces [(.identifier, name)]
      (List.forall_mem_singleton.mpr nofun) _ _ hmore
    obtain ⟨x, others, rfl, hx, -⟩ := List.map_eq_cons_iff.mp hwords
    exact ⟨x, others, rfl, congrArg Prod.fst hx⟩
  have hstop : Lookahead.skipAnnotations true .outside s.ahead = some s.ahead := by
    obtain ⟨w, more, rfl, hw, -⟩ := h.second fun w hw => (hus.opens w hw).1
    have hfirst : w.1 ≠ .greater ∧ w.1 ≠ .finalKw := by
      rcases hw with hw | hw
      · simp [hw]
      · constructor <;> (intro hk; rw [hk] at hw; cases hw)
    obtain ⟨ws, hwords, -⟩ := State.words_of_piece hs hfirst.1
    obtain ⟨a, _, hahead, rfl, -⟩ := State.ahead_of_words hwords
    rw [hahead]
    exact Lookahead.skipAnnotations_stop (hus.opens _ rfl).1 hfirst.2
  unfold Lookahead.isLocalVariable
  rw [Lookahead.localVariable_eq, hstop, Option.bind_some, hskip, Option.bind_some,
    if_pos (by simp [Lookahead.next, hx])]
  rfl

variable {setting : Setting} {inLabels : Bool}

/-- A name that a semicolon follows is a variable without dimensions and value. -/
theorem variableNames_reads (hs : s.pieces = (.identifier, name) :: fixed .semicolon :: rest) :
    variableNames.Ensures setting (evaluates setting) inLabels s (Succeeds fun names t =>
      names.erase = .cons (.declarator name 0 .none Tree.nowhere) .nil ∧
        s.Onto t (fixed .semicolon :: rest)) := by
  obtain ⟨ws, hwords, -⟩ := State.words_of_piece hs nofun
  have hone := State.onto_one hs nofun
  obtain ⟨t, honto, hcomes⟩ := dims_reads setting inLabels .zero hone.pieces
    (heads_cons (by decide))
  have hnone {k : Kind} (hk : fixed .semicolon ≠ fixed k) (hfused : isFused k = false) :
      Heads (· != k) t.words := by
    refine heads_of_pieces ?_ hfused
    rw [show pieces t.words = _ from honto.pieces]
    exact heads_cons (bne_iff_ne.mpr fun heq => hk (congrArg fixed heq))
  unfold variableNames
  rw [ensures_mark_bind]
  refine ensures_identifier_yes hwords rfl (ensures_rule.mpr ?_)
  show (declarators _ _).Ensures _ _ _ _ _
  unfold declarators declarator
  rw [ensures_bind]
  refine hcomes.bind _ _ (ensures_accept_no (hnone (by decide) rfl) ?_)
  show (since _ >>= _).Ensures _ _ _ _ _
  rw [ensures_since_bind]
  refine ensures_accept_no (hnone (by decide) rfl) ⟨rfl, hone.trans honto⟩

/-- A type, a name and a semicolon. -/
theorem localVariables_reads {start : Mark} {doc : Option Mark} (h : Spells (.type type) us)
    (hus : ∀ w ∈ us, w.1 ≠ .lparen)
    (hs : s.pieces = us ++ (.identifier, name) :: fixed .semicolon :: rest) :
    (localVariables ⟨[], .nil, start, doc⟩).Ensures setting (evaluates setting) inLabels s
      (Succeeds fun stmt t => stmt.erase = (variableOf type name).erase ∧ s.Onto t rest) := by
  obtain ⟨⟨read, t, hread, honto, hcomes⟩, -⟩ := h.isRead hus s _ hs (heads_cons rfl)
  unfold localVariables
  refine succeeds_bind (succeeds_call (hcomes.succeeds (P := fun type' u => type' = read ∧ u = t)
    ⟨rfl, rfl⟩)) ?_
  rintro _ _ ⟨rfl, rfl⟩
  refine succeeds_bind (variableNames_reads honto.pieces) fun names u ⟨hnames, honto'⟩ => ?_
  obtain ⟨ws, hwords, -⟩ := State.words_of_piece honto'.pieces (by decide)
  have hone := State.onto_one honto'.pieces (by decide)
  refine ensures_require_yes hwords rfl ?_
  rw [ensures_since_bind]
  refine ⟨?_, (honto.trans honto').trans hone⟩
  show Tree.localVariables (.varDecl ⟨[], none⟩ .nil _ names.erase _) = _
  rw [hnames, hread]
  rfl

/-- A type in front of a name is taken for a declaration and not for an expression. -/
theorem stmt_reads (h : Declares type name us)
    (hs : s.pieces = us ++ (.identifier, name) :: fixed .semicolon :: rest) :
    stmt.Ensures setting (evaluates setting) inLabels s
      (Succeeds fun stmt t => stmt.erase = (variableOf type name).erase ∧ s.Onto t rest) := by
  obtain ⟨a, b, more, hahead, hdeclares⟩ := h.ahead hs
  have hplain (start : Mark) : (plainStatement start).Ensures setting (evaluates setting) inLabels s
      (Succeeds fun stmt t => stmt.erase = (variableOf type name).erase ∧ s.Onto t rest) := by
    unfold plainStatement
    rw [ensures_ahead_bind, if_pos (h.spelled.isLocalVariable h.toScannable hs)]
    refine ensures_modifiers_none ?_ ?_ (localVariables_reads h.spelled h.plain hs)
    · have hall : ∀ k ∈ variableStarts, k ≠ .atSign := by decide
      simp [hahead, Lookahead.next, hall _ hdeclares.first_cases]
    · rw [hahead]
      exact hdeclares.nextModifier h.plainName
  unfold stmt
  rw [ensures_view_bind, State.view_ahead, hahead]
  simp only [List.head?_cons, Option.map_some]
  have hkind := hdeclares.first_cases
  simp only [variableStarts, List.mem_cons, List.not_mem_nil, or_false] at hkind
  rcases hkind with hk | hk | hk | hk | hk | hk | hk | hk | hk
  case inl =>
    have hcolon : Lookahead.next [.identifier, .colon] (a :: b :: more) = false := by
      rcases hdeclares.second with hb | ⟨hb, -⟩
      · rcases DeclaresAhead.goesOn_cases hb with hb | hb | hb <;> simp [Lookahead.next, hb]
      · simp [Lookahead.next, hb]
    rw [hk]
    show (namedStatement _ (a :: b :: more)).Ensures _ _ _ _ _
    unfold namedStatement
    rw [if_neg (by simp [hdeclares.isYield]), if_neg (by simp [hcolon]),
      if_neg (by simp [hdeclares.isRecord, hdeclares.isSealed h.plainName])]
    exact hplain _
  all_goals
    rw [hk]
    exact hplain _

end Statement

/-! The method around the declaration. -/

/-- The state `t` lies behind `s`, in front of these words, and nothing was taken from the budget in
between; a warning takes nothing from it. -/
structure State.Beyond (s t : State) (rest : List Word) : Prop where
  words : t.words = rest
  budget : t.budget = s.budget

section Around

variable {setting : Setting} {inLabels : Bool} {s t u : State} {ws rest : List Word} {w : Word}
  {β : Type} {Q : Except SyntaxError β → State → Prop}

theorem State.Past.beyond (h : s.Past t rest) : s.Beyond t rest :=
  ⟨h.words, h.budget⟩

theorem State.Beyond.trans (h : s.Beyond t ws) (h' : t.Beyond u rest) : s.Beyond u rest :=
  ⟨h'.words, h'.budget.trans h.budget⟩

theorem State.beyond_deprecation (h : s.words = rest) (setting : Setting) (doc : Option Mark)
    (name : Extent) : s.Beyond (s.deprecation setting doc name) rest := by
  unfold State.deprecation
  split <;> exact ⟨h, rfl⟩

theorem ensures_checkDeprecation_bind {mods : Modifiers} {name : Extent} {f : Unit → Rule β}
    (h : s.words = rest) (hf : ∀ t, s.Beyond t rest →
      (f ()).Ensures setting (evaluates setting) inLabels t Q) :
    (checkDeprecation mods name >>= f).Ensures setting (evaluates setting) inLabels s Q := by
  unfold checkDeprecation
  split
  · exact hf s ⟨h, rfl⟩
  · exact hf _ (State.beyond_deprecation h setting mods.doc name)

theorem ensures_typeParams_none {f : Tree (.list .typeParam) → Rule β}
    (h : Heads (· != .less) s.words)
    (hf : (f .nil).Ensures setting (evaluates setting) inLabels s Q) :
    (typeParams >>= f).Ensures setting (evaluates setting) inLabels s Q := by
  unfold typeParams
  rw [ensures_bind]
  exact ensures_accept_no h hf

theorem ensures_listAfter_none {k : Kind} {f : Tree (.list .type) → Rule β}
    (h : Heads (· != k) s.words)
    (hf : (f .nil).Ensures setting (evaluates setting) inLabels s Q) :
    (listAfter k >>= f).Ensures setting (evaluates setting) inLabels s Q := by
  unfold listAfter
  rw [ensures_bind]
  exact ensures_accept_no h hf

theorem ensures_dims_none {f : Nat → Rule β} (h : Heads (· != .lbracket) s.words)
    (hf : (f 0).Ensures setting (evaluates setting) inLabels s Q) :
    (dims >>= f).Ensures setting (evaluates setting) inLabels s Q := by
  have hzero : Lookahead.dims s.ahead = 0 := by
    have hnext := State.next_eq_false h
    cases hahead : s.ahead with
    | nil => rfl
    | cons a more =>
      rw [hahead] at hnext
      have hk : a.kind ≠ .lbracket := by simpa [Lookahead.next] using hnext
      rw [Lookahead.dims_cons, if_neg fun hboth => hk hboth.1]
  unfold dims
  rw [ensures_bind, ensures_ahead_bind, ensures_advance_bind, hzero]
  exact hf

end Around

section Method

variable {setting : Setting} {inLabels : Bool} {type : Tree .type} {us vs rest : List Word}
  {name : String} {s : State}

/-- The block in which only this variable is declared. -/
def blockOf (type : Tree .type) (name : String) : Tree .block :=
  .block (.cons (variableOf type name) .nil) Tree.nowhere

/-- The method without parameters and result that has this block. -/
def methodOf (method : String) (type : Tree .type) (name : String) : Tree .member :=
  .method ⟨[], none⟩ .nil .nil .none method .nil .nil (.some (blockOf type name)) .none Tree.nowhere

/-- Statements end in front of a closing brace. -/
theorem statements_end {inSwitch : Bool} (hs : s.words = fixed .rbrace :: rest) :
    (statements inSwitch).Ensures setting (evaluates setting) inLabels s
      (Succeeds fun trees t => trees = .nil ∧ t = s) := by
  have hclose : Lookahead.next [.rbrace] s.ahead = true := State.next_eq_true hs rfl
  have hends : endsStatements inSwitch s.ahead = true := by simp [endsStatements, hclose]
  unfold statements
  rw [ensures_view_bind, State.view_ahead, if_pos (by simp [hends])]
  exact ⟨rfl, rfl⟩

theorem statements_reads (h : Declares type name us)
    (hs : s.pieces = us ++ (.identifier, name) :: fixed .semicolon :: fixed .rbrace :: rest)
    (hrest : ∀ w ∈ rest, w.1 ≠ .greater) (hrunning : s.budget.halted = false) :
    (statements false).Ensures setting (evaluates setting) inLabels s (Succeeds fun trees t =>
      trees.erase = .cons (variableOf type name).erase .nil ∧
        s.Past t (fixed .rbrace :: rest)) := by
  obtain ⟨a, b, more, hahead, hdeclares⟩ := h.ahead hs
  have hgoes : endsStatements false s.ahead = false := by
    have hall : ∀ k ∈ variableStarts, k ≠ .rbrace := by decide
    rw [hahead]
    simp [endsStatements, Lookahead.next, hall _ hdeclares.first_cases]
  unfold statements
  rw [ensures_view_bind, State.view_ahead, if_neg (by simp [hgoes, State.view, hrunning])]
  refine @succeeds_attempt_bind setting inLabels _ _ _ _ _ .stmt _
    (stmt_reads h hs) ?_
  rintro stmt t ⟨hstmt, honto⟩
  obtain ⟨words, hwords, hend⟩ := @words_of_pieces (fixed .rbrace :: rest)
    (List.forall_mem_cons.mpr ⟨by decide, hrest⟩) _ _ (honto.pieces.trans (List.append_nil _).symm)
  rw [pieces_eq_nil hend, List.append_nil] at hwords
  refine succeeds_bind (succeeds_call (statements_end hwords)) ?_
  rintro _ _ ⟨rfl, rfl⟩
  refine ⟨?_, hwords, honto.budget, honto.log⟩
  show Tree.cons stmt.erase _ = _
  rw [hstmt]
  rfl

theorem block_reads (h : Declares type name us)
    (hs : s.words = fixed .lbrace :: vs)
    (hvs : pieces vs = us ++ (.identifier, name) :: fixed .semicolon :: fixed .rbrace :: rest)
    (hrest : ∀ w ∈ rest, w.1 ≠ .greater) (hrunning : s.budget.halted = false) :
    block.Ensures setting (evaluates setting) inLabels s (Succeeds fun tree t =>
      tree.erase = (blockOf type name).erase ∧ s.Past t rest) := by
  have hone := State.past_one hs
  unfold block
  rw [ensures_mark_bind]
  refine ensures_expect_yes hs rfl ?_
  refine succeeds_bind (succeeds_call (statements_reads h
    ((State.pieces_of_words hone.words).trans hvs) hrest (hone.budget ▸ hrunning))) ?_
  rintro trees t ⟨htrees, hpast⟩
  have hlast := State.past_one hpast.words
  refine ensures_require_yes hpast.words rfl ?_
  rw [ensures_since_bind]
  refine ⟨?_, (hone.trans hpast).trans hlast⟩
  show Tree.block trees.erase _ = _
  rw [htrees]
  rfl

theorem params_reads (hs : s.words = fixed .lparen :: fixed .rparen :: rest) :
    params.Ensures setting (evaluates setting) inLabels s
      (Succeeds fun trees t => trees = .nil ∧ s.Past t rest) := by
  have hone := State.past_one hs
  unfold params
  refine ensures_expect_yes hs rfl ?_
  rw [ensures_check_bind, State.next_eq_true (k := .rparen) hone.words rfl]
  exact ensures_expect_yes hone.words rfl ⟨rfl, hone.trans (State.past_one hone.words)⟩

theorem methodRest_reads {start : Mark} {doc : Option Mark} {method : String}
    (h : Declares type name us)
    (hs : s.words = fixed .lparen :: fixed .rparen :: fixed .lbrace :: vs)
    (hvs : pieces vs = us ++ (.identifier, name) :: fixed .semicolon :: fixed .rbrace :: rest)
    (hrest : ∀ w ∈ rest, w.1 ≠ .greater) (hrunning : s.budget.halted = false) :
    (methodRest ⟨[], .nil, start, doc⟩ .nil .none method).Ensures setting (evaluates setting)
      inLabels s (Succeeds fun tree t => tree.erase = (methodOf method type name).erase ∧
        s.Past t rest) := by
  unfold methodRest
  refine succeeds_bind (params_reads hs) ?_
  rintro _ t ⟨rfl, hpast⟩
  have hnone {k : Kind} (hk : k ≠ .lbrace) : Heads (· != k) t.words := by
    rw [hpast.words]
    exact heads_cons (bne_iff_ne.mpr hk.symm)
  refine ensures_dims_none (hnone (by decide)) ?_
  refine ensures_listAfter_none (hnone (by decide)) ?_
  refine ensures_accept_no (hnone (by decide)) ?_
  show (check .lbrace >>= _).Ensures _ _ _ _ _
  rw [ensures_check_bind, State.next_eq_true (k := .lbrace) hpast.words rfl]
  refine succeeds_bind (succeeds_bind (succeeds_call (block_reads h hpast.words hvs hrest
    (hpast.budget ▸ hrunning))) (Q := fun body u => ∃ block : Tree .block, body = .some block ∧
      block.erase = (blockOf type name).erase ∧ s.Past u rest) ?_) ?_
  · rintro block u ⟨hblock, hpast'⟩
    exact ⟨block, rfl, hblock, hpast.trans hpast'⟩
  · rintro _ u ⟨block, rfl, hblock, hpast'⟩
    refine ⟨?_, hpast'⟩
    show Tree.method _ _ _ _ _ _ _ (Tree.some block.erase) _ _ = _
    rw [hblock]
    rfl

theorem isTypeDecl_void (hs : s.words = fixed .voidKw :: rest) :
    Lookahead.isTypeDecl s.ahead = false := by
  obtain ⟨a, more, hahead, ha, -⟩ := State.ahead_of_words hs
  have hk : a.kind = .voidKw := congrArg Prod.fst ha
  rw [hahead]
  simp [Lookahead.isTypeDecl, Lookahead.nextOneOf, Lookahead.next, Lookahead.isRecord,
    Lookahead.nextWord, Symbol.isWord, hk]

/-- A member that opens with `void`. -/
theorem member_reads {owner method : String} (h : Declares type name us)
    (hs : s.words = fixed .voidKw :: (.identifier, method) :: fixed .lparen :: fixed .rparen ::
      fixed .lbrace :: vs)
    (hvs : pieces vs = us ++ (.identifier, name) :: fixed .semicolon :: fixed .rbrace :: rest)
    (hrest : ∀ w ∈ rest, w.1 ≠ .greater) (hrunning : s.budget.halted = false) :
    (member owner).Ensures setting (evaluates setting) inLabels s (Succeeds fun tree t =>
      tree.erase = (methodOf method type name).erase ∧ s.Beyond t rest) := by
  have hnone {k : Kind} (hk : k ≠ .voidKw) : Heads (· != k) s.words := by
    rw [hs]
    exact heads_cons (bne_iff_ne.mpr hk.symm)
  have hother (ks : List Kind) {k : Kind} (hk : k ≠ .voidKw) :
      Lookahead.next (k :: ks) s.ahead = false := by
    obtain ⟨a, more, hahead, ha, -⟩ := State.ahead_of_words hs
    have ha' : a.kind = .voidKw := congrArg Prod.fst ha
    rw [hahead]
    simp [Lookahead.next, ha', hk.symm]
  have hone := State.past_one hs
  have htwo := State.past_one hone.words
  unfold member
  refine ensures_modifiers_other hs (by decide) rfl (by decide) ?_
  rw [ensures_ahead_bind, if_neg (by simp [hother]), if_neg (by simp [isTypeDecl_void hs])]
  refine ensures_typeParams_none (hnone (by decide)) ?_
  rw [ensures_ahead_bind, if_neg (by simp [hother]), if_neg (by simp [hother])]
  unfold typedMember
  refine ensures_accept_yes hs rfl ?_
  show (view >>= _).Ensures _ _ _ _ _
  rw [ensures_view_bind]
  unfold memberName
  rw [ensures_bind, ensures_view_bind, State.view_ahead,
    if_pos (State.next_eq_true (k := .identifier) hone.words rfl), ← ensures_bind]
  refine ensures_takeText hone.words ?_
  refine ensures_checkDeprecation_bind htwo.words fun t ht => ?_
  rw [ensures_view_bind, State.view_ahead,
    if_pos (State.next_eq_true (k := .lparen) ht.words rfl)]
  have hbudget : t.budget = s.budget := ht.budget.trans (htwo.budget.trans hone.budget)
  refine (methodRest_reads h ht.words hvs hrest (hbudget ▸ hrunning)).mono fun r u hr => ?_
  cases r with
  | error error => exact hr
  | ok tree => exact ⟨hr.1, hr.2.words, hr.2.budget.trans hbudget⟩

/-- Members end in front of a closing brace. -/
theorem members_end {owner : String} (hs : s.words = fixed .rbrace :: rest) :
    (members owner).Ensures setting (evaluates setting) inLabels s
      (Succeeds fun trees t => trees = .nil ∧ t = s) := by
  have hclose : Lookahead.next [.rbrace] s.ahead = true := State.next_eq_true hs rfl
  unfold members
  rw [ensures_view_bind, State.view_ahead, if_pos (by simp [hclose])]
  exact ⟨rfl, rfl⟩

theorem members_reads {owner method : String} (h : Declares type name us)
    (hs : s.words = fixed .voidKw :: (.identifier, method) :: fixed .lparen :: fixed .rparen ::
      fixed .lbrace :: vs)
    (hvs : pieces vs = us ++ (.identifier, name) :: fixed .semicolon :: fixed .rbrace ::
      fixed .rbrace :: rest)
    (hrest : ∀ w ∈ rest, w.1 ≠ .greater) (hrunning : s.budget.halted = false) :
    (members owner).Ensures setting (evaluates setting) inLabels s (Succeeds fun trees t =>
      trees.erase = .cons (methodOf method type name).erase .nil ∧
        s.Beyond t (fixed .rbrace :: rest)) := by
  obtain ⟨a, more, hahead, ha, -⟩ := State.ahead_of_words hs
  have hk : a.kind = .voidKw := congrArg Prod.fst ha
  unfold members
  rw [ensures_view_bind, State.view_ahead,
    if_neg (by simp [hahead, Lookahead.next, hk, State.view, hrunning]),
    if_neg (by simp [hahead, Lookahead.next, hk])]
  refine @succeeds_attempt_bind setting inLabels _ _ _ _ _ (.member owner) _ (member_reads h hs hvs
    (List.forall_mem_cons.mpr ⟨by decide, hrest⟩) hrunning) ?_
  rintro tree t ⟨htree, hbeyond⟩
  refine succeeds_bind (succeeds_call (members_end hbeyond.words)) ?_
  rintro _ _ ⟨rfl, rfl⟩
  refine ⟨?_, hbeyond⟩
  show Tree.cons tree.erase _ = _
  rw [htree]
  rfl

theorem classBody_reads {owner method : String} (h : Declares type name us)
    (hs : s.words = fixed .lbrace :: fixed .voidKw :: (.identifier, method) :: fixed .lparen ::
      fixed .rparen :: fixed .lbrace :: vs)
    (hvs : pieces vs = us ++ (.identifier, name) :: fixed .semicolon :: fixed .rbrace ::
      fixed .rbrace :: rest)
    (hrest : ∀ w ∈ rest, w.1 ≠ .greater) (hrunning : s.budget.halted = false) :
    (classBody owner).Ensures setting (evaluates setting) inLabels s (Succeeds fun trees t =>
      trees.erase = .cons (methodOf method type name).erase .nil ∧ s.Beyond t rest) := by
  have hone := State.past_one hs
  unfold classBody
  refine ensures_expect_yes hs rfl ?_
  refine succeeds_bind (@succeeds_call setting inLabels _ _ _ (.members owner)
    (members_reads h hone.words hvs hrest (hone.budget ▸ hrunning))) ?_
  rintro trees t ⟨htrees, hbeyond⟩
  have hlast := State.past_one hbeyond.words
  exact ensures_require_yes hbeyond.words rfl
    ⟨htrees, (hone.beyond.trans hbeyond).trans hlast.beyond⟩

/-- The class with this method only. -/
def classOf (owner method : String) (type : Tree .type) (name : String) : Tree .typeDecl :=
  .typeDecl ⟨[], none⟩ .nil owner (.classForm .nil .none .nil .nil)
    (.cons (methodOf method type name) .nil) Tree.nowhere

theorem permits_none {β : Type} {f : Tree (.list .type) → Rule β} {w : Word}
    {Q : Except SyntaxError β → State → Prop} (hs : s.words = w :: rest) (hw : w.1 ≠ .identifier)
    (hf : (f .nil).Ensures setting (evaluates setting) inLabels s Q) :
    (permits >>= f).Ensures setting (evaluates setting) inLabels s Q := by
  obtain ⟨a, more, hahead, rfl, -⟩ := State.ahead_of_words hs
  have hk : a.kind ≠ .identifier := hw
  unfold permits
  rw [ensures_bind, ensures_ahead_bind, hahead,
    if_neg (by simp [Lookahead.nextWord, Symbol.isWord, hk])]
  exact hf

theorem classDecl_reads {owner method : String} {start : Mark} {doc : Option Mark}
    (h : Declares type name us)
    (hs : s.words = fixed .classKw :: (.identifier, owner) :: fixed .lbrace :: fixed .voidKw ::
      (.identifier, method) :: fixed .lparen :: fixed .rparen :: fixed .lbrace :: vs)
    (hvs : pieces vs = us ++ (.identifier, name) :: fixed .semicolon :: fixed .rbrace ::
      fixed .rbrace :: rest)
    (hrest : ∀ w ∈ rest, w.1 ≠ .greater) (hrunning : s.budget.halted = false) :
    (classDecl ⟨[], .nil, start, doc⟩).Ensures setting (evaluates setting) inLabels s
      (Succeeds fun tree t => tree.erase = (classOf owner method type name).erase ∧
        s.Beyond t rest) := by
  have hone := State.past_one hs
  have htwo := State.past_one hone.words
  unfold classDecl
  refine ensures_expect_yes hs rfl ?_
  unfold declName
  rw [ensures_bind, ensures_view_bind]
  refine ensures_identifier_yes hone.words rfl ?_
  refine ensures_checkDeprecation_bind htwo.words fun t ht => ?_
  have hnone {k : Kind} (hk : k ≠ .lbrace) : Heads (· != k) t.words := by
    rw [ht.words]
    exact heads_cons (bne_iff_ne.mpr hk.symm)
  show (typeParams >>= _).Ensures _ _ _ _ _
  refine ensures_typeParams_none (hnone (by decide)) ?_
  refine ensures_accept_no (hnone (by decide)) ?_
  refine ensures_listAfter_none (hnone (by decide)) ?_
  refine permits_none ht.words (by decide) ?_
  have hbefore : s.Beyond t _ := (hone.beyond.trans htwo.beyond).trans ht
  refine succeeds_bind (classBody_reads h ht.words hvs hrest (hbefore.budget ▸ hrunning)) ?_
  rintro trees u ⟨htrees, hbeyond⟩
  unfold finishDecl
  rw [ensures_since_bind]
  refine ⟨?_, hbefore.trans hbeyond⟩
  show Tree.typeDecl _ _ _ _ trees.erase _ = _
  rw [htrees]
  rfl

/-- The file with this class only. -/
def unitOf (owner method : String) (type : Tree .type) (name : String) : CompilationUnit :=
  ⟨none, [], none, [.type (classOf owner method type name)]⟩

theorem items_reads {owner method : String} (h : Declares type name us)
    (hs : s.words = fixed .classKw :: (.identifier, owner) :: fixed .lbrace :: fixed .voidKw ::
      (.identifier, method) :: fixed .lparen :: fixed .rparen :: fixed .lbrace :: vs)
    (hvs : pieces vs = us ++ [(.identifier, name), fixed .semicolon, fixed .rbrace, fixed .rbrace])
    (hrunning : s.budget.halted = false) :
    (items .empty).Ensures setting (evaluates setting) inLabels s (Succeeds fun unit t =>
      unit.erase = (unitOf owner method type name).erase ∧ s.Beyond t []) := by
  obtain ⟨a, more, hahead, ha, -⟩ := State.ahead_of_words hs
  have hk : a.kind = .classKw := congrArg Prod.fst ha
  have hitem : item.Ensures setting (evaluates setting) inLabels s (Succeeds fun item t =>
      ∃ decl : Tree .typeDecl, item = .form (.type decl) ∧
        decl.erase = (classOf owner method type name).erase ∧ s.Beyond t []) := by
    unfold item
    rw [ensures_view_bind, State.view_ahead, if_neg (by simp [hahead, Lookahead.next, hk]),
      if_neg (by simp [hahead, Lookahead.next, hk])]
    refine ensures_modifiers_other hs (by decide) rfl (by decide) ?_
    rw [ensures_view_bind, State.view_ahead, if_neg (by simp [hahead, Lookahead.next, hk]),
      if_neg (by simp [hahead, Lookahead.next, Lookahead.isModule, Lookahead.nextWord,
        Symbol.isWord, hk]),
      if_pos (by simp [hahead, Lookahead.isTypeDecl, Lookahead.nextOneOf, hk])]
    refine succeeds_bind (succeeds_call ?_) fun decl t h => ⟨decl, rfl, h⟩
    show (typeDecl _).Ensures _ _ _ _ _
    unfold typeDecl
    rw [ensures_view_bind, State.view_ahead, if_pos (by simp [hahead, Lookahead.next, hk])]
    exact classDecl_reads h hs hvs (List.forall_mem_nil _) hrunning
  refine items_next (by simp [hs]) hrunning hitem ?_
  rintro _ t ⟨decl, rfl, hdecl, hbeyond⟩
  refine succeeds_call (items_end hbeyond.words ⟨?_, hbeyond⟩)
  show (⟨none, [], none, [.type decl.erase]⟩ : CompilationUnit) = _
  rw [hdecl]
  rfl

end Method

/-! The text of the file. -/

/-- What stands in front of a line end is cut into its own words. -/
theorem LexesTo.cuts_line {keepDocs : Bool} {text : String} {words us : List Word}
    {more : List Char} (h : LexesTo keepDocs text words) (h' : Cuts more us) :
    Cuts (text.toList ++ '\n' :: more) (words ++ us) := by
  intro keepDocs' fuel start waiting hfuel
  have hbare (items : List Item) : (items.map Item.bare).map Item.word? = items.map Item.word? := by
    rw [List.map_map]
    congr 1
    funext item
    cases item <;> rfl
  have hshift : Lexer.items Lexer.piece false text.toList.length start none text.toList =
      (lex false text).map (Item.shift start) := by
    have hzero := Lexer.items_shift Lexer.piece false text.toList.length 0 start none text.toList
    rwa [Nat.zero_add] at hzero
  have hfirst : ((lex false text).map (Item.shift start)).map Item.word? = words.map some := by
    rw [List.map_map, show Item.word? ∘ Item.shift start = Item.word? from
      funext fun item => item.word?_shift start]
    exact lexesTo_bare h
  have hsound : ∀ item ∈ Lexer.items Lexer.piece false text.toList.length start none text.toList,
      item.flawed? = none := by
    rw [hshift]
    refine List.filterMap_eq_nil_iff.mp (flawless_iff.mpr ?_)
    rw [words_of_map hfirst]
    exact hfirst
  rw [← hbare, Lexer.items_bare, Lexer.items_joined (Nat.le_refl _) (by simpa using hfuel) hsound,
    List.map_append, List.map_append, hshift, hfirst]
  exact congrArg _ (h' false _ _ none (Nat.le_refl _))

/-- A file in which a method declares a variable of this type and name. -/
def declaringText (type name : String) : String :=
  "class C \x7b void m() \x7b " ++ type ++ "\n" ++ name ++ "; \x7d \x7d"

/-- The words in front of the type. -/
def headWords : List Word := [fixed .classKw, (.identifier, "C"), fixed .lbrace, fixed .voidKw,
  (.identifier, "m"), fixed .lparen, fixed .rparen, fixed .lbrace]

theorem cutsAs_head : CutsAs "class C \x7b void m() \x7b".toList headWords := by
  have hblank : Lexer.isSkipped ' ' = true := rfl
  have hmark {cs : List Char} : Follows endsWord (' ' :: cs) := follows_mark (by decide)
  have hopen : CutsAs [' ', '\x7b'] [fixed .lbrace] := .blank hblank (.separator (by decide) rfl)
  have hC : CutsAs "C".toList [(.identifier, "C")] := .name (by decide) rfl
  have hm : CutsAs "m".toList [(.identifier, "m")] := .name (by decide) rfl
  have hparens : CutsAs (['('] ++ [')']) ([fixed .lparen] ++ [fixed .rparen]) :=
    (CutsAs.separator (by decide) rfl).append (.separator (by decide) rfl)
      (follows_cons (by decide))
  have hclass := (CutsAs.keyword (k := .classKw) (by decide)).append
    ((hC.blank hblank).append hopen hmark) hmark
  have hmethod := ((CutsAs.keyword (k := .voidKw) (by decide)).blank hblank).append
    ((hm.blank hblank).append (hparens.append hopen hmark) (follows_mark (by decide))) hmark
  exact hclass.append hmethod hmark

/-- The pieces of the file are those of the type with the rest around them. -/
theorem cuts_declaringText {keepDocs : Bool} {type name : String} {words : List Word}
    (h : LexesTo keepDocs type words) (hname : IsWordText name) (hfree : isReserved name = false) :
    ∃ vs, Cuts (declaringText type name).toList (headWords ++ vs) ∧ pieces vs = pieces words ++
      [(.identifier, name), fixed .semicolon, fixed .rbrace, fixed .rbrace] := by
  have hclose : CutsAs [' ', '\x7d'] [fixed .rbrace] :=
    .blank rfl (.separator (by decide) rfl)
  have hend : CutsAs (name.toList ++ ([';'] ++ ([' ', '\x7d'] ++ [' ', '\x7d'])))
      ([(.identifier, name)] ++ ([fixed .semicolon] ++ ([fixed .rbrace] ++ [fixed .rbrace]))) :=
    (CutsAs.name hname hfree).append ((CutsAs.separator (by decide) rfl).append
      (hclose.append hclose (follows_mark (by decide))) (follows_mark (by decide)))
      (follows_mark (by decide))
  have htype := h.cuts_line (hend.cuts_words (by simp [fixed]))
  have hblank : CutsTo (' ' :: _) _ := (Cuts.skip rfl htype).cutsTo (follows_cons rfl)
  obtain ⟨ws, hcuts, hws⟩ := cutsAs_head _ _ hblank (follows_mark (by decide)) 0
  obtain ⟨vs, rfl, hvs⟩ := @words_of_pieces headWords (by decide) ws _ hws
  refine ⟨vs, ?_, ?_⟩
  · have hhead : "class C \x7b void m() \x7b ".toList =
        "class C \x7b void m() \x7b".toList ++ [' '] := by decide
    have hline : "\n".toList = ['\n'] := by decide
    have hlast : "; \x7d \x7d".toList = [';', ' ', '\x7d', ' ', '\x7d'] := by decide
    have htext : (declaringText type name).toList = "class C \x7b void m() \x7b".toList ++
        ' ' :: (type.toList ++ '\n' :: (name.toList ++
          ([';'] ++ ([' ', '\x7d'] ++ [' ', '\x7d'])))) := by
      unfold declaringText
      rw [String.toList_append, String.toList_append, String.toList_append, String.toList_append,
        hhead, hline, hlast]
      generalize "class C \x7b void m() \x7b".toList = front
      simp
    rw [htext]
    exact hcuts
  · rw [hvs, pieces_append]
    exact congrArg _ (pieces_eq_self (by simp [isFused, fixed]))

/-- Of two ends of the same symbols those with the same pieces are the same. -/
theorem eq_of_suffix {ts us vs : List Symbol} (hus : us <:+ ts) (hvs : vs <:+ ts)
    (h : pieces (us.map Symbol.word) = pieces (vs.map Symbol.word)) : us = vs := by
  have hnone {front : List Symbol} (more : List Symbol)
      (h : pieces ((front ++ more).map Symbol.word) = pieces (more.map Symbol.word)) :
      front = [] := by
    rw [List.map_append, pieces_append] at h
    exact List.map_eq_nil_iff.mp (pieces_eq_nil (List.append_left_eq_self.mp h))
  rcases List.suffix_or_suffix_of_suffix hus hvs with ⟨front, rfl⟩ | ⟨front, rfl⟩
  · rw [hnone us h.symm]
    rfl
  · rw [hnone vs h]
    rfl

namespace Session

open Diagnostic (Clean)

theorem unit_of_declares {settings : Settings} {source : Source} {type : Tree .type}
    {name : String} {us vs : List Word} (h : Declares type name us)
    (hlexes : LexesTo settings.keepDocs source.text (headWords ++ vs))
    (hvs : pieces vs =
      us ++ [(.identifier, name), fixed .semicolon, fixed .rbrace, fixed .rbrace]) :
    Clean (start settings source).unit.2.diagnostics ∧
      (start settings source).unit.1.erase = (unitOf "C" "m" type name).erase := by
  obtain ⟨hwords, -, hfresh⟩ := start_of_lexesTo hlexes
  obtain ⟨hunit, hend⟩ := @enter_of_succeeds _ (start settings source) (.items .empty) .empty _ rfl
    (items_reads h hwords hvs hfresh.1)
  refine ⟨clean_of_isFresh (after_unit _) ?_, hunit⟩
  unfold State.IsFresh
  rw [show (start settings source).unit.2.state.budget = _ from hend.budget]
  exact hfresh

/-- Every type declares a local variable. A text that is read as a type without an error is taken,
in front of a name inside a method, for the type of a variable of this name, and nothing is
reported; the scanner that looks past a type goes up to a name behind it. Excluded are the result
type `void`, words that open another statement or modifiers, and annotations at which the scanner
stops: those with arguments, and those behind a dot outside of type arguments. -/
theorem unit_declares (settings : Settings) (file file' type name : String)
    (hclean : Clean (start settings (.ofText file type)).typeUse.2.diagnostics)
    (hopens : ∀ w ∈ (start settings (.ofText file type)).state.words.head?,
      w.1 ≠ .atSign ∧ w.1 ≠ .voidKw ∧ w ≠ (.identifier, "yield"))
    (hplain : ∀ w ∈ (start settings (.ofText file type)).state.words, w.1 ≠ .lparen)
    (hinside : AnnotatesInside ((start settings (.ofText file type)).state.pieces.map Prod.fst))
    (hname : IsWordText name) (hfree : isReserved name = false)
    (hplainName : isPlainName name = true) :
    ∃ tree : Tree .type, (start settings (.ofText file type)).typeUse.1 = .typeExpr tree ∧
      (let session := start settings (.ofText file' (declaringText type name))
       Clean session.unit.2.diagnostics ∧
        session.unit.1.erase = (unitOf "C" "m" tree name).erase) ∧
      ∀ x more, x.kind = .identifier →
        Lookahead.skipType ((start settings (.ofText file type)).state.ahead ++ x :: more) =
          some (x :: more) := by
  obtain ⟨tree, htree, hspelled⟩ := typeUse_spelled hclean
  let one := start settings (.ofText file type)
  have hpieces : one.state.pieces = pieces one.state.words := rfl
  have hhead : ∀ w ∈ one.state.pieces.head?,
      w.1 ≠ .atSign ∧ w.1 ≠ .voidKw ∧ w ≠ (.identifier, "yield") := by
    rw [hpieces]
    cases hwords : one.state.words with
    | nil => exact fun w hw => by cases hw
    | cons v vs =>
      rw [pieces_cons]
      rcases v.pieces_cases with hv | ⟨us, hv⟩
      · rw [hv]
        rintro _ ⟨⟩
        exact hopens v (congrArg List.head? hwords)
      · rw [hv]
        rintro _ ⟨⟩
        exact ⟨nofun, nofun, nofun⟩
  have hnone : ∀ w ∈ one.state.pieces, w.1 ≠ .lparen := fun w hw => by
    rcases mem_pieces hw with hw | hk | hk
    · exact hplain w hw
    · simp [hk]
    · simp [hk]
  have hscannable : Scannable one.state.pieces :=
    ⟨hnone, hinside, fun w hw => ⟨(hhead w hw).1, (hhead w hw).2.1⟩⟩
  have hdeclares : Declares tree name one.state.pieces :=
    ⟨hscannable, hspelled, fun w hw => (hhead w hw).2.2, hplainName⟩
  refine ⟨tree, htree, ?_, fun x more hx => ?_⟩
  · obtain ⟨vs, hcuts, hvs⟩ := cuts_declaringText (lexesTo_of_clean_typeUse hclean) hname hfree
    exact unit_of_declares hdeclares hcuts.lexesTo hvs
  · obtain ⟨others, hskip, hsuffix, hothers⟩ := hspelled.skipType hscannable
      (show x.word.1 = .identifier from hx)
      (show pieces ((one.state.ahead ++ x :: more).map Symbol.word) = _ from by
        rw [List.map_append, pieces_append, List.map_cons, pieces_cons,
          Word.pieces_of_not_fused (by rw [show x.word.1 = .identifier from hx]; rfl)]
        rfl)
    have hsame : others = x :: more := eq_of_suffix hsuffix (List.suffix_append ..) (by
      rw [hothers, List.map_cons, pieces_cons,
        Word.pieces_of_not_fused (by rw [show x.word.1 = .identifier from hx]; rfl)]
      rfl)
    exact hsame ▸ hskip

/-- Arguments two deep with an annotated segment among them, and a segment behind them. -/
theorem unit_declares_annotated :
    let session := start .standard (.ofText "A.java" "Map<String, List<a.@N B[]>>.Entry<>[]")
    let other := start .standard (.ofText "B.java"
      (declaringText "Map<String, List<a.@N B[]>>.Entry<>[]" "entries"))
    ∃ tree : Tree .type, session.typeUse.1 = .typeExpr tree ∧
      (Clean other.unit.2.diagnostics ∧
        other.unit.1.erase = (unitOf "C" "m" tree "entries").erase) ∧
      ∀ x more, x.kind = .identifier →
        Lookahead.skipType (session.state.ahead ++ x :: more) = some (x :: more) := by
  intro session other
  have hclean : Clean session.typeUse.2.diagnostics := by
    unfold Clean
    decide
  exact unit_declares .standard "A.java" "B.java" _ "entries" hclean (by decide)
    (by decide) (by decide) (by decide) (by decide) rfl

/-- An array of `void` is read as a type, but no variable has it. -/
theorem unit_declares_not_void :
    Clean (start .standard (.ofText "A.java" "void[]")).typeUse.2.diagnostics ∧
      ¬Clean (start .standard
        (.ofText "A.java" (declaringText "void[]" "v"))).unit.2.diagnostics := by
  unfold Clean
  decide

end Session

end JavaSyntax
