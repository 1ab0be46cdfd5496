import JavaSyntax.Proofs.TypeReading
import JavaSyntax.Proofs.TypeSoundness

/-!
The grammar of types. `Derives` gives its sentences over the kinds of tokens, with closing angle
brackets one by one. Without annotations a text is read as a type exactly if its tokens are such a
sentence: a sentence is spelled by some tree, and what spells a tree is a sentence.
-/

namespace JavaSyntax

/-- The nonterminal symbols of the grammar of types. -/
inductive TypeSymbol where
  | type
  | segments
  | segment
  | args
  | list
  | arg

/-- The kinds of `n` pairs of brackets. -/
def bracketPairs (n : Nat) : List Kind :=
  (List.replicate n [.lbracket, .rbracket]).flatten

inductive Derives : TypeSymbol → List Kind → Prop where
  | primitive {k : Kind} (isPrimitive : k.isPrimitive = true) (n : Nat) :
      Derives .type (k :: bracketPairs n)
  | named {ks : List Kind} (segments : Derives .segments ks) (n : Nat) :
      Derives .type (ks ++ bracketPairs n)
  | first {ks : List Kind} (segment : Derives .segment ks) : Derives .segments ks
  | next {ks ls : List Kind} (before : Derives .segments ks) (segment : Derives .segment ls) :
      Derives .segments (ks ++ .dot :: ls)
  | plain : Derives .segment [.identifier]
  | generic {ks : List Kind} (args : Derives .args ks) : Derives .segment (.identifier :: ks)
  | diamond : Derives .args [.less, .greater]
  | given {ks : List Kind} (list : Derives .list ks) : Derives .args (.less :: (ks ++ [.greater]))
  | one {ks : List Kind} (arg : Derives .arg ks) : Derives .list ks
  | more {ks ls : List Kind} (arg : Derives .arg ks) (others : Derives .list ls) :
      Derives .list (ks ++ .comma :: ls)
  | typed {ks : List Kind} (type : Derives .type ks) : Derives .arg ks
  | wildcard : Derives .arg [.question]
  | wildcardExtends {ks : List Kind} (bound : Derives .type ks) :
      Derives .arg (.question :: .extendsKw :: ks)
  | wildcardSuper {ks : List Kind} (bound : Derives .type ks) :
      Derives .arg (.question :: .superKw :: ks)

/-- The kinds of token that stand in types without annotations. -/
def isTypeKind (k : Kind) : Bool :=
  k.isPrimitive || [.identifier, .dot, .comma, .question, .extendsKw, .superKw, .less, .greater,
    .lbracket, .rbracket].contains k

theorem bracketPairs_kinds (n : Nat) : ∀ k ∈ bracketPairs n, isTypeKind k = true := by
  intro k hk
  obtain ⟨ks, hks, hmem⟩ := List.mem_flatten.mp hk
  rw [List.eq_of_mem_replicate hks] at hmem
  rcases List.mem_pair.mp hmem with rfl | rfl <;> rfl

theorem Derives.kinds {symbol : TypeSymbol} {ks : List Kind} (h : Derives symbol ks) :
    ∀ k ∈ ks, isTypeKind k = true := by
  induction h with
  | primitive hk n =>
    exact List.forall_mem_cons.mpr ⟨by simp [isTypeKind, hk], bracketPairs_kinds n⟩
  | named _ n ih => exact List.forall_mem_append.mpr ⟨ih, bracketPairs_kinds n⟩
  | first _ ih | one _ ih | typed _ ih => exact ih
  | next _ _ ih ih' | more _ _ ih ih' =>
    exact List.forall_mem_append.mpr ⟨ih, List.forall_mem_cons.mpr ⟨rfl, ih'⟩⟩
  | plain | diamond | wildcard => decide
  | generic _ ih => exact List.forall_mem_cons.mpr ⟨rfl, ih⟩
  | given _ ih =>
    exact List.forall_mem_cons.mpr ⟨rfl, List.forall_mem_append.mpr ⟨ih, by decide⟩⟩
  | wildcardExtends _ ih | wildcardSuper _ ih =>
    exact List.forall_mem_cons.mpr ⟨rfl, List.forall_mem_cons.mpr ⟨rfl, ih⟩⟩

/-! What spells a type is a sentence. -/

/-- The sentences that the words of a part can be, or can be made with arguments behind them. -/
def TypePart.IsSentence : TypePart → List Kind → Prop
  | .segments _ _ _, ks => ∀ gs, gs = [] ∨ Derives .args gs → Derives .segments (ks ++ gs)
  | .args _ _, ks => ks = [] ∨ Derives .args ks
  | .list _, ks => Derives .list ks
  | .arg _, ks => Derives .arg ks
  | .bare _, ks => Derives .type ks
  | .type _, ks => Derives .type ks

theorem Brackets.kinds_eq {n : Nat} {ws : List Word} (h : Brackets n ws) :
    ws.map Prod.fst = bracketPairs n := by
  induction h with
  | zero => rfl
  | succ hl hr _ ih =>
    rw [List.map_cons, List.map_cons, hl, hr, ih]
    rfl

theorem derives_segment {gs : List Kind} (h : gs = [] ∨ Derives .args gs) :
    Derives .segment (.identifier :: gs) := by
  rcases h with rfl | h
  · exact .plain
  · exact .generic h

theorem Spells.isSentence {part : TypePart} {us : List Word} (h : Spells part us)
    (hus : ∀ w ∈ us, w.1 ≠ .atSign) : part.IsSentence (us.map Prod.fst) := by
  induction h with
  | @first w hname =>
    intro gs hgs
    rw [List.map_singleton, hname]
    exact .first (derives_segment hgs)
  | fold _ _ hdot hvs hname ih ih' | nest _ _ _ hdot hvs hname ih ih' =>
    simp only [List.forall_mem_append, List.forall_mem_cons] at hus
    obtain ⟨-, rfl⟩ := hvs.eq_nil hus.2.2.2.1
    intro gs hgs
    have hbefore := ih hus.1 _ (ih' hus.2.1)
    simp only [List.map_append, List.map_cons, List.map_nil, List.nil_append, List.append_assoc,
      List.cons_append, hdot, hname]
    rw [← List.append_assoc]
    exact .next hbefore (derives_segment hgs)
  | closed => exact .inl rfl
  | empty hl hg =>
    rw [List.map_cons, List.map_singleton, hl, hg]
    exact .inr .diamond
  | listed hl hg _ ih =>
    simp only [List.forall_mem_append, List.forall_mem_cons] at hus
    rw [List.map_cons, List.map_append, List.map_singleton, hl, hg]
    exact .inr (.given (ih hus.2.1))
  | one _ ih => exact .one (ih hus)
  | more _ hcomma _ ih ih' =>
    simp only [List.forall_mem_append, List.forall_mem_cons] at hus
    rw [List.map_append, List.map_cons, hcomma]
    exact .more (ih hus.1) (ih' hus.2.2)
  | typeArg _ ih => exact .typed (ih hus)
  | wildcard hvs hquestion =>
    obtain ⟨-, rfl⟩ := hvs.eq_nil (List.forall_mem_append.mp hus).1
    rw [List.nil_append, List.map_singleton, hquestion]
    exact .wildcard
  | wildcardExtends hvs hquestion hextends _ ih =>
    simp only [List.forall_mem_append, List.forall_mem_cons] at hus
    obtain ⟨-, rfl⟩ := hvs.eq_nil hus.1
    rw [List.nil_append, List.map_cons, List.map_cons, hquestion, hextends]
    exact .wildcardExtends (ih hus.2.2.2)
  | wildcardSuper hvs hquestion hsuper _ ih =>
    simp only [List.forall_mem_append, List.forall_mem_cons] at hus
    obtain ⟨-, rfl⟩ := hvs.eq_nil hus.1
    rw [List.nil_append, List.map_cons, List.map_cons, hquestion, hsuper]
    exact .wildcardSuper (ih hus.2.2.2)
  | primitive hprimitive hdims =>
    rw [List.map_cons, hdims.kinds_eq]
    exact .primitive hprimitive _
  | classType _ _ hdims ih ih' =>
    simp only [List.forall_mem_append] at hus
    rw [List.map_append, List.map_append, hdims.kinds_eq, ← List.append_assoc]
    exact .named (ih hus.1 _ (ih' hus.2.1)) _
  | type hvs _ ih =>
    obtain ⟨hvs', hus⟩ := List.forall_mem_append.mp hus
    obtain ⟨-, rfl⟩ := hvs.eq_nil hvs'
    exact ih hus

/-! A sentence spells some tree. -/

/-- The words spell a part of a type, of the form that the symbol stands for. -/
def TypeSymbol.Spelled : TypeSymbol → List Word → Prop
  | .type, us => ∃ tree, Spells (.type tree) us
  | .segments, us => ∃ outer name diamond opened trees vs gs, us = vs ++ gs ∧
      Spells (.segments outer name diamond) vs ∧ Spells (.args opened trees) gs
  | .segment, us => ∃ w gs opened trees, us = w :: gs ∧ w.1 = .identifier ∧
      Spells (.args opened trees) gs
  | .args, us => ∃ trees, Spells (.args true trees) us
  | .list, us => ∃ trees, Spells (.list trees) us
  | .arg, us => ∃ tree, Spells (.arg tree) us

theorem brackets_of_kinds {n : Nat} {ws : List Word} (h : ws.map Prod.fst = bracketPairs n) :
    Brackets n ws := by
  induction n generalizing ws with
  | zero =>
    rw [List.map_eq_nil_iff.mp h]
    exact .zero
  | succ n ih =>
    obtain ⟨l, more, rfl, hl, hmore⟩ := List.map_eq_cons_iff.mp h
    obtain ⟨r, others, rfl, hr, hothers⟩ := List.map_eq_cons_iff.mp hmore
    exact .succ hl hr (ih hothers)

theorem Spells.unannotated {outer : Tree (.option .type)} {name : String}
    {trees : Tree (.list .typeArg)} {diamond : Bool} {n : Nat} {us : List Word}
    (h : Spells (.bare (.type outer name trees diamond .nil n Tree.nowhere)) us) :
    Spells (.type (.type outer name trees diamond .nil n Tree.nowhere)) us :=
  .type Markers.nil.annotates h

theorem Derives.spelled {symbol : TypeSymbol} {ks : List Kind} (h : Derives symbol ks) :
    ∀ us : List Word, us.map Prod.fst = ks → symbol.Spelled us := by
  induction h with
  | primitive hprimitive n =>
    intro us hus
    obtain ⟨w, bs, rfl, rfl, hbs⟩ := List.map_eq_cons_iff.mp hus
    exact ⟨_, .unannotated (.primitive hprimitive (brackets_of_kinds hbs))⟩
  | named _ n ih =>
    intro us hus
    obtain ⟨vs, bs, rfl, hvs, hbs⟩ := List.map_eq_append_iff.mp hus
    obtain ⟨outer, name, diamond, opened, trees, ws, gs, rfl, hws, hgs⟩ := ih vs hvs
    rw [List.append_assoc]
    exact ⟨_, .unannotated (.classType hws hgs (brackets_of_kinds hbs))⟩
  | first _ ih =>
    intro us hus
    obtain ⟨w, gs, opened, trees, rfl, hw, hgs⟩ := ih us hus
    exact ⟨_, _, _, _, _, [w], gs, rfl, .first hw, hgs⟩
  | next _ _ ih ih' =>
    intro us hus
    obtain ⟨vs, rest, rfl, hvs, hrest⟩ := List.map_eq_append_iff.mp hus
    obtain ⟨dot, ls, rfl, hdot, hls⟩ := List.map_eq_cons_iff.mp hrest
    obtain ⟨outer, name, diamond, opened, trees, ws, gs, rfl, hws, hgs⟩ := ih vs hvs
    obtain ⟨w, hs, opened', trees', rfl, hw, hhs⟩ := ih' ls hls
    have hwords : ws ++ gs ++ dot :: w :: hs = ws ++ (gs ++ dot :: ([] ++ [w])) ++ hs := by simp
    rw [hwords]
    cases hgiven : trees.isNil with
    | true =>
      cases trees with
      | cons => cases hgiven
      | nil =>
        exact ⟨_, _, _, _, _, _, hs, rfl, .fold hws hgs hdot Markers.nil.annotates hw, hhs⟩
    | false =>
      exact ⟨.some (.type outer name trees false .nil 0 Tree.nowhere), _, _, _, _, _, hs, rfl,
        .nest hws hgs hgiven hdot Markers.nil.annotates hw, hhs⟩
  | plain =>
    intro us hus
    obtain ⟨w, gs, rfl, hw, hgs⟩ := List.map_eq_cons_iff.mp hus
    rw [List.map_eq_nil_iff.mp hgs]
    exact ⟨w, [], false, .nil, rfl, hw, .closed⟩
  | generic _ ih =>
    intro us hus
    obtain ⟨w, gs, rfl, hw, hgs⟩ := List.map_eq_cons_iff.mp hus
    obtain ⟨trees, htrees⟩ := ih gs hgs
    exact ⟨w, gs, true, trees, rfl, hw, htrees⟩
  | diamond =>
    intro us hus
    obtain ⟨l, rest, rfl, hl, hrest⟩ := List.map_eq_cons_iff.mp hus
    obtain ⟨g, last, rfl, hg, hlast⟩ := List.map_eq_cons_iff.mp hrest
    rw [List.map_eq_nil_iff.mp hlast]
    exact ⟨.nil, .empty hl hg⟩
  | given _ ih =>
    intro us hus
    obtain ⟨l, rest, rfl, hl, hrest⟩ := List.map_eq_cons_iff.mp hus
    obtain ⟨vs, last, rfl, hvs, hlast⟩ := List.map_eq_append_iff.mp hrest
    obtain ⟨g, none, rfl, hg, hnone⟩ := List.map_eq_cons_iff.mp hlast
    rw [List.map_eq_nil_iff.mp hnone]
    obtain ⟨trees, htrees⟩ := ih vs hvs
    exact ⟨trees, .listed hl hg htrees⟩
  | one _ ih =>
    intro us hus
    obtain ⟨tree, htree⟩ := ih us hus
    exact ⟨.cons tree .nil, .one htree⟩
  | more _ _ ih ih' =>
    intro us hus
    obtain ⟨vs, rest, rfl, hvs, hrest⟩ := List.map_eq_append_iff.mp hus
    obtain ⟨comma, ls, rfl, hcomma, hls⟩ := List.map_eq_cons_iff.mp hrest
    obtain ⟨tree, htree⟩ := ih vs hvs
    obtain ⟨trees, htrees⟩ := ih' ls hls
    exact ⟨.cons tree trees, .more htree hcomma htrees⟩
  | typed _ ih =>
    intro us hus
    obtain ⟨tree, htree⟩ := ih us hus
    exact ⟨.typeArg tree, .typeArg htree⟩
  | wildcard =>
    intro us hus
    obtain ⟨w, rest, rfl, hw, hrest⟩ := List.map_eq_cons_iff.mp hus
    rw [List.map_eq_nil_iff.mp hrest]
    exact ⟨.wildcard .nil Tree.nowhere, .wildcard Markers.nil.annotates hw⟩
  | wildcardExtends _ ih =>
    intro us hus
    obtain ⟨w, rest, rfl, hw, hrest⟩ := List.map_eq_cons_iff.mp hus
    obtain ⟨x, vs, rfl, hx, hvs⟩ := List.map_eq_cons_iff.mp hrest
    obtain ⟨tree, htree⟩ := ih vs hvs
    exact ⟨.wildcardExtends .nil tree Tree.nowhere,
      .wildcardExtends Markers.nil.annotates hw hx htree⟩
  | wildcardSuper _ ih =>
    intro us hus
    obtain ⟨w, rest, rfl, hw, hrest⟩ := List.map_eq_cons_iff.mp hus
    obtain ⟨x, vs, rfl, hx, hvs⟩ := List.map_eq_cons_iff.mp hrest
    obtain ⟨tree, htree⟩ := ih vs hvs
    exact ⟨.wildcardSuper .nil tree Tree.nowhere,
      .wildcardSuper Markers.nil.annotates hw hx htree⟩

/-! From words to the kinds of their pieces. -/

/-- The kind of a token with closing angle brackets apart; a bracket that stands in front of an
equals sign is no closing one. -/
def splitClosers : Kind → List Kind
  | .shr => [.greater, .greater]
  | .ushr => [.greater, .greater, .greater]
  | k => [k]

theorem Word.kinds_pieces (w : Word) : w.pieces.map Prod.fst = splitClosers w.1 ∨
    (∃ k ∈ w.pieces.map Prod.fst, isTypeKind k = false) ∧
      ∃ k ∈ splitClosers w.1, isTypeKind k = false := by
  obtain ⟨k, text⟩ := w
  cases k
  case greaterEqual | shrAssign | ushrAssign =>
    exact .inr ⟨⟨.assign, by simp [Word.pieces, fixed], rfl⟩, _, List.mem_singleton_self _, rfl⟩
  all_goals exact .inl rfl

theorem kinds_pieces {ws : List Word} (h : (∀ k ∈ (pieces ws).map Prod.fst, isTypeKind k = true) ∨
      ∀ k ∈ ws.flatMap fun w => splitClosers w.1, isTypeKind k = true) :
    (pieces ws).map Prod.fst = ws.flatMap fun w => splitClosers w.1 := by
  unfold pieces at h ⊢
  rw [List.map_flatMap] at h ⊢
  refine List.flatMap_congr fun w hw => ?_
  rcases w.kinds_pieces with heq | ⟨⟨k, hk, hnot⟩, l, hl, hnot'⟩
  · exact heq
  · rcases h with h | h
    · rw [h k (List.mem_flatMap.mpr ⟨w, hw, hk⟩)] at hnot
      cases hnot
    · rw [h l (List.mem_flatMap.mpr ⟨w, hw, hl⟩)] at hnot'
      cases hnot'

theorem words_of_tokens (items : List Item) : items.filterMap Item.word? =
    (items.filterMap Item.token?).map fun t => (t.kind, t.text) := by
  rw [List.map_filterMap]
  congr 1
  funext item
  cases item <;> rfl

namespace Session

/-- The kinds of the tokens of a text, with closing angle brackets one by one. -/
def tokenKinds (settings : Settings) (source : Source) : List Kind :=
  ((lex settings.keepDocs source.text).filterMap Item.token?).flatMap fun t => splitClosers t.kind

/-- Without lexical errors and annotations, a text is read as a type without an error exactly if its
tokens are a sentence of the grammar of types. -/
theorem typeUse_clean_iff (settings : Settings) (source : Source)
    (hflawless : ∀ item ∈ lex settings.keepDocs source.text, item.flawed? = none)
    (hplain : ∀ t ∈ (lex settings.keepDocs source.text).filterMap Item.token?, t.kind ≠ .atSign) :
    Diagnostic.Clean (start settings source).typeUse.2.diagnostics ↔
      Derives .type (tokenKinds settings source) := by
  let words := (lex settings.keepDocs source.text).filterMap Item.word?
  have hlexes : LexesTo settings.keepDocs source.text words :=
    flawless_iff.mp (List.filterMap_eq_nil_iff.mpr hflawless)
  have htokens : words = ((lex settings.keepDocs source.text).filterMap Item.token?).map
      fun t => (t.kind, t.text) := words_of_tokens _
  have hkinds : tokenKinds settings source = words.flatMap fun w => splitClosers w.1 := by
    rw [htokens, List.flatMap_map]
    rfl
  have hwords : (start settings source).state.pieces = pieces words :=
    State.pieces_of_words start_words
  rw [hkinds]
  constructor
  · intro hclean
    obtain ⟨tree, -, hspelled⟩ := typeUse_spelled hclean
    rw [hwords] at hspelled
    have hsentence : Derives .type ((pieces words).map Prod.fst) :=
      hspelled.isSentence fun x hx => by
        rcases mem_pieces hx with hx | hk | hk
        · rw [htokens] at hx
          obtain ⟨t, ht, rfl⟩ := List.mem_map.mp hx
          exact hplain t ht
        · simp [hk]
        · simp [hk]
    rwa [← kinds_pieces (.inl hsentence.kinds)]
  · intro hsentence
    have heq := kinds_pieces (.inr hsentence.kinds)
    obtain ⟨tree, hspelled⟩ := hsentence.spelled (pieces words) heq
    obtain ⟨read, -, -, hlog⟩ := typeUse_of_spelled hlexes hspelled fun w hw hk => by
      have hkind := hsentence.kinds w.1 (heq ▸ List.mem_map_of_mem hw)
      rw [hk] at hkind
      cases hkind
    intro d hd
    rw [hlog] at hd
    cases hd

/-- Arguments three deep, whose brackets are closed by one token, and segments behind them. -/
theorem typeUse_clean_iff_nested :
    let source := Source.ofText "A.java" "Map<String, List<? extends A.B<int[]>>>.Entry<>[]"
    Diagnostic.Clean (start .standard source).typeUse.2.diagnostics ∧
      Derives .type (tokenKinds .standard source) := by
  intro source
  have hflawless : ∀ item ∈ lex Settings.standard.keepDocs source.text, item.flawed? = none := by
    decide
  have hplain : ∀ t ∈ (lex Settings.standard.keepDocs source.text).filterMap Item.token?,
      t.kind ≠ .atSign := by
    decide
  have hkinds : tokenKinds .standard source = [.identifier, .less, .identifier, .comma, .identifier,
      .less, .question, .extendsKw, .identifier, .dot, .identifier, .less, .intKw, .lbracket,
      .rbracket, .greater, .greater, .greater, .dot, .identifier, .less, .greater, .lbracket,
      .rbracket] := by
    decide
  have hname : Derives .segments [.identifier] := .first .plain
  have hint : Derives .list [.intKw, .lbracket, .rbracket] := .one (.typed (.primitive rfl 1))
  have hbound : Derives .segments
      [.identifier, .dot, .identifier, .less, .intKw, .lbracket, .rbracket, .greater] :=
    .next hname (.generic (.given hint))
  have hlist : Derives .segments [.identifier, .less, .question, .extendsKw, .identifier, .dot,
      .identifier, .less, .intKw, .lbracket, .rbracket, .greater, .greater] :=
    .first (.generic (.given (.one (.wildcardExtends (.named hbound 0)))))
  have hsentence : Derives .type (tokenKinds .standard source) := by
    rw [hkinds]
    exact .named (.next (.first (.generic (.given (.more (.typed (.named hname 0))
      (.one (.typed (.named hlist 0))))))) (.generic .diamond)) 1
  exact ⟨(typeUse_clean_iff .standard source hflawless hplain).mpr hsentence, hsentence⟩

end Session

end JavaSyntax
