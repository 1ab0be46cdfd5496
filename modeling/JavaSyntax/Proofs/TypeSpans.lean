import JavaSyntax.Proofs.Respacing
import JavaSyntax.Proofs.Slicing
import JavaSyntax.Proofs.TypeGrammar
import JavaSyntax.Proofs.TypeStretches

/-!
The text in the span of a type. It is cut into the words that were taken for the type; what it may
lack are closing brackets, which were taken off a longer token behind it. With these it reads as the
type. The span of a type around another one goes on to the name of the other.
-/

namespace JavaSyntax

open Grammar Rule

/-! Brackets. -/

/-- How many angle brackets are opened and not closed. -/
def openBrackets (ws : List Word) : Nat :=
  ws.countP (·.1 == .less) - ws.countP (·.1 == .greater)

/-- All angle brackets are closed, and there are no parentheses. -/
structure Balanced (us : List Word) : Prop where
  counts : us.countP (·.1 == .less) = us.countP (·.1 == .greater)
  plain : ∀ w ∈ us, w.1 ≠ .lparen

namespace Balanced

variable {us vs : List Word}

theorem append (h : Balanced us) (h' : Balanced vs) : Balanced (us ++ vs) where
  counts := by rw [List.countP_append, List.countP_append, h.counts, h'.counts]
  plain := List.forall_mem_append.mpr ⟨h.plain, h'.plain⟩

theorem nil : Balanced [] := ⟨rfl, nofun⟩

theorem of_neutral (h : ∀ w ∈ us, w.1 ∉ [.less, .greater, .lparen]) : Balanced us where
  counts := by
    have hnone {k : Kind} (hk : k ∈ [.less, .greater, .lparen]) :
        us.countP (·.1 == k) = 0 :=
      List.countP_eq_zero.mpr fun w hw heq => h w hw (by rwa [beq_iff_eq.mp heq])
    rw [hnone (by decide), hnone (by decide)]
  plain w hw heq := h w hw (by simp [heq])

theorem cons {w : Word} (hw : w.1 ∉ [.less, .greater, .lparen]) (h : Balanced us) :
    Balanced (w :: us) :=
  (of_neutral (List.forall_mem_singleton.mpr hw)).append h

theorem enclosed {l g : Word} (hl : l.1 = .less) (hg : g.1 = .greater) (h : Balanced us) :
    Balanced (l :: (us ++ [g])) where
  counts := by simp [h.counts, hl, hg]
  plain := List.forall_mem_cons.mpr ⟨by rw [hl]; decide,
    List.forall_mem_append.mpr ⟨h.plain, List.forall_mem_singleton.mpr (by rw [hg]; decide)⟩⟩

/-- What is missing at the end are as many closing brackets as are not closed. -/
theorem openBrackets_eq {n : Nat} (h : Balanced (us ++ List.replicate n (fixed .greater))) :
    openBrackets us = n := by
  have hcounts := h.counts
  simp only [List.countP_append, List.countP_replicate] at hcounts
  simp [fixed] at hcounts
  unfold openBrackets
  omega

end Balanced

theorem Brackets.balanced {n : Nat} {ws : List Word} (h : Brackets n ws) : Balanced ws :=
  .of_neutral fun w hw => by
    rcases h.kinds w hw with hk | hk <;> (rw [hk]; decide)

/-- Without annotations a type closes what it opens. -/
theorem Spells.balanced {part : TypePart} {us : List Word} (h : Spells part us)
    (hus : ∀ w ∈ us, w.1 ≠ .atSign) : Balanced us := by
  have hnone {annotations : Tree (.list .annot)} {vs : List Word}
      (hvs : Annotates annotations vs) (h : ∀ w ∈ vs, w.1 ≠ .atSign) : Balanced vs := by
    obtain ⟨-, rfl⟩ := hvs.eq_nil h
    exact .nil
  have hneutral {w : Word} {k : Kind} (hw : w.1 = k) (hk : k ∉ [.less, .greater, .lparen]) :
      w.1 ∉ [.less, .greater, .lparen] := hw ▸ hk
  induction h with
  | first hname => exact .cons (hneutral hname (by decide)) .nil
  | fold _ _ hdot hvs hname ih ih' | nest _ _ _ hdot hvs hname ih ih' =>
    simp only [List.forall_mem_append, List.forall_mem_cons] at hus
    exact (ih hus.1).append ((ih' hus.2.1).append (.cons (hneutral hdot (by decide))
      ((hnone hvs hus.2.2.2.1).append (.cons (hneutral hname (by decide)) .nil))))
  | closed => exact .nil
  | @empty l g hl hg =>
    have hempty : Balanced (l :: ([] ++ [g])) := .enclosed hl hg .nil
    exact hempty
  | listed hl hg _ ih =>
    simp only [List.forall_mem_append, List.forall_mem_cons] at hus
    exact .enclosed hl hg (ih hus.2.1)
  | one _ ih | typeArg _ ih => exact ih hus
  | more _ hcomma _ ih ih' =>
    simp only [List.forall_mem_append, List.forall_mem_cons] at hus
    exact (ih hus.1).append (.cons (hneutral hcomma (by decide)) (ih' hus.2.2))
  | wildcard hvs hquestion =>
    obtain ⟨hvs', -⟩ := List.forall_mem_append.mp hus
    exact (hnone hvs hvs').append (.cons (hneutral hquestion (by decide)) .nil)
  | wildcardExtends hvs hquestion hbound _ ih | wildcardSuper hvs hquestion hbound _ ih =>
    simp only [List.forall_mem_append, List.forall_mem_cons] at hus
    exact (hnone hvs hus.1).append (.cons (hneutral hquestion (by decide))
      (.cons (hneutral hbound (by decide)) (ih hus.2.2.2)))
  | primitive hprimitive hdims =>
    refine .cons (fun hmem => ?_) hdims.balanced
    simp only [List.mem_cons, List.not_mem_nil, or_false] at hmem
    rcases hmem with hk | hk | hk <;> (rw [hk] at hprimitive; cases hprimitive)
  | classType _ _ hdims ih ih' =>
    simp only [List.forall_mem_append] at hus
    exact (ih hus.1).append ((ih' hus.2.1).append hdims.balanced)
  | type hvs _ ih =>
    obtain ⟨hvs', hus⟩ := List.forall_mem_append.mp hus
    exact (hnone hvs hvs').append (ih hus)

/-! Tokens. -/

theorem pieces_afterAngles {n : Nat} {k l : Kind} (h : afterAngles n k = some l) (text : String) :
    ∃ text', Word.pieces (k, text) = List.replicate n (fixed .greater) ++ Word.pieces (l, text') ∧
      (n = 0 → text' = text) := by
  induction n generalizing l with
  | zero =>
    cases h
    exact ⟨text, rfl, fun _ => rfl⟩
  | succ n ih =>
    obtain ⟨m, hm, hl⟩ := Option.bind_eq_some_iff.mp h
    obtain ⟨text', hpieces, -⟩ := ih hm
    refine ⟨l.spelling, ?_, nofun⟩
    rw [hpieces, State.pieces_afterAngle hl, List.replicate_succ', List.append_assoc]
    rfl

theorem length_pieces (k : Kind) (text text' : String) :
    (Word.pieces (k, text)).length = (Word.pieces (k, text')).length := by
  cases k <;> rfl

theorem wordsOf_eq (text : String) : wordsOf text = (tokensOf text).map Token.word :=
  words_of_tokens _

variable {layout : Layout} {setting : Setting} {s t : State}

/-- The pieces that are ahead are those of the tokens that are ahead, less the closing brackets that
are gone. -/
theorem Placed.pieces (h : Placed layout s) : ∃ b ≤ s.taken, ∃ vs,
    JavaSyntax.pieces ((layout.tokens.toList.drop s.index).map Token.word) =
      List.replicate b (fixed .greater) ++ vs ∧
    vs.length = s.pieces.length ∧ (s.taken = 0 → vs = s.pieces) := by
  have hcount := h.count
  cases hahead : s.ahead with
  | nil =>
    simp only [State.left, hahead, List.length_nil, Nat.add_zero] at hcount
    have hpieces : s.pieces = [] := State.pieces_of_words (congrArg (List.map Symbol.word) hahead)
    have hdrop : layout.tokens.toList.drop s.index = [] :=
      List.drop_eq_nil_of_le (by rw [Array.length_toList, hcount])
    rw [hdrop, hpieces]
    exact ⟨0, Nat.zero_le _, [], rfl, rfl, fun _ => rfl⟩
  | cons x rest =>
    obtain ⟨token, htoken, hkind, htext⟩ := h.head x (by rw [hahead]; rfl)
    have hrest : rest.map Symbol.word =
        (layout.tokens.toList.drop (s.index + 1)).map Token.word := by
      have htail := h.tail
      rw [hahead, List.tail_cons] at htail
      rw [htail, List.map_drop, List.map_drop]
      exact congrArg (List.drop _) (words_symbolsFrom none _)
    have hdrop : layout.tokens.toList.drop s.index =
        token :: layout.tokens.toList.drop (s.index + 1) := by
      rw [← Array.getElem?_toList] at htoken
      obtain ⟨hlt, rfl⟩ := List.getElem?_eq_some_iff.mp htoken
      exact List.drop_eq_getElem_cons hlt
    have hpieces : s.pieces = x.word.pieces ++ JavaSyntax.pieces (rest.map Symbol.word) :=
      State.pieces_of_words (congrArg (List.map Symbol.word) hahead)
    obtain ⟨text, hword, hsame⟩ := pieces_afterAngles hkind token.text
    refine ⟨s.taken, Nat.le_refl _,
      Word.pieces (x.kind, text) ++ JavaSyntax.pieces (rest.map Symbol.word), ?_, ?_, ?_⟩
    · rw [hdrop, List.map_cons, pieces_cons, ← hrest, ← List.append_assoc, ← hword]
      rfl
    · rw [hpieces, List.length_append, List.length_append, length_pieces x.kind text x.text]
      rfl
    · intro hzero
      rw [hpieces, hsame hzero, htext hzero]
      rfl

/-- What is left of a token starts no type. -/
theorem opensArg_of_afterAngle {k l : Kind} (h : State.afterAngle k = some l) :
    opensArg l = false := by
  cases k <;> cases h <;> rfl

/-- In front of what can start a type nothing is taken off the next token. -/
theorem Placed.whole (h : Placed layout s) {w : Word} {rest : List Word}
    (hs : s.pieces = w :: rest) (hw : opensArg w.1 = true) : s.taken = 0 ∧ s.ahead ≠ [] := by
  have hgreater : w.1 ≠ .greater := fun hk => by
    rw [hk] at hw
    cases hw
  obtain ⟨ws, hwords, -⟩ := State.words_of_piece hs hgreater
  obtain ⟨x, more, hahead, rfl, -⟩ := List.map_eq_cons_iff.mp hwords
  refine ⟨?_, hahead ▸ List.cons_ne_nil x more⟩
  obtain ⟨token, -, hkind, -⟩ := h.head x (by rw [hahead]; rfl)
  cases htaken : s.taken with
  | zero => rfl
  | succ n =>
    rw [htaken] at hkind
    obtain ⟨m, -, hx⟩ := Option.bind_eq_some_iff.mp hkind
    exact absurd ((opensArg_of_afterAngle hx).symm.trans hw) Bool.false_ne_true

/-- The tokens between two states. -/
theorem Placed.between (ht : Placed layout t) (hlt : s.index < t.index) :
    ∃ before taken after first last, layout.tokens.toList = before ++ taken ++ after ∧
      before.length = s.index ∧ before.length + taken.length = t.index ∧
      taken.head? = some first ∧ taken.getLast? = some last ∧
      layout.tokens[s.index]? = some first ∧ layout.tokens[t.index - 1]? = some last := by
  have hcount := ht.count
  have hsize : layout.tokens.toList.length = layout.tokens.size := Array.length_toList
  have hsplit : layout.tokens.toList = layout.tokens.toList.take s.index ++
      (layout.tokens.toList.drop s.index).take (t.index - s.index) ++
      layout.tokens.toList.drop t.index := by
    rw [List.append_assoc, ← Nat.add_sub_cancel' hlt.le, ← List.drop_drop, Nat.add_sub_cancel_left,
      List.take_append_drop, List.take_append_drop]
  have hlength : ((layout.tokens.toList.drop s.index).take (t.index - s.index)).length =
      t.index - s.index := by
    rw [List.length_take, List.length_drop]
    omega
  have hget (k : Nat) (hk : k < t.index - s.index) :
      ((layout.tokens.toList.drop s.index).take (t.index - s.index))[k]? =
        layout.tokens[s.index + k]? := by
    rw [List.getElem?_take_of_lt hk, List.getElem?_drop, Array.getElem?_toList]
  obtain ⟨first, hfirst⟩ : ∃ first, layout.tokens[s.index]? = some first :=
    ⟨_, Array.getElem?_eq_getElem (by omega)⟩
  obtain ⟨last, hlast⟩ : ∃ last, layout.tokens[t.index - 1]? = some last :=
    ⟨_, Array.getElem?_eq_getElem (by omega)⟩
  refine ⟨_, _, _, first, last, hsplit, ?_, ?_, ?_, ?_, hfirst, hlast⟩
  · rw [List.length_take]
    omega
  · rw [List.length_take, hlength]
    omega
  · rw [List.head?_eq_getElem?, hget 0 (by omega)]
    exact hfirst
  · rw [List.getLast?_eq_getElem?, hlength, hget _ (by omega), ← hlast]
    congr 1
    omega

/-- What lies between two states, as tokens and what is closed behind them. -/
theorem Covers.tokens {e : Extent} {n : Nat} {P : List Word → Prop} (h : Covers setting e n P)
    (ht : setting.layout.Tiled)
    (hopens : ∀ us, P us → ∃ w more, us = w :: more ∧ opensArg w.1 = true) :
    ∃ before taken after first last b, setting.layout.tokens.toList = before ++ taken ++ after ∧
      taken.head? = some first ∧ taken.getLast? = some last ∧
      setting.layout.offset e.start = first.start ∧ setting.layout.offset e.stop = last.stop ∧
      b ≤ n ∧ P (pieces (taken.map Token.word) ++ List.replicate b (fixed .greater)) := by
  obtain ⟨s, t, hs, hr, rfl, rfl, us, hus, hP⟩ := h
  have hplaced := hs.reaches hr
  obtain ⟨w, more, rfl, hopen⟩ := hopens us hP
  obtain ⟨hzero, hne⟩ := hs.whole hus hopen
  obtain ⟨a, ha, vs, hfirst, -, hvs⟩ := hs.pieces
  obtain ⟨b, hb, rest, hsecond, hlength, -⟩ := hplaced.pieces
  obtain rfl : a = 0 := by omega
  obtain rfl : vs = s.pieces := hvs hzero
  rw [List.replicate_zero, List.nil_append, hus] at hfirst
  have hlt : s.index < t.index := by
    refine Nat.lt_of_le_of_ne hr.index_le fun heq => ?_
    -- Only closing brackets could have been taken.
    rw [heq, hsecond] at hfirst
    have hclosing := (List.append_inj' hfirst hlength).1
    have hw : w ∈ List.replicate b (fixed .greater) := hclosing ▸ List.mem_cons_self
    rw [List.eq_of_mem_replicate hw] at hopen
    cases hopen
  obtain ⟨before, taken, after, first, last, htokens, hbefore, htaken, hhead, hlast, hi, hj⟩ :=
    hplaced.between hlt
  rw [htokens, ← hbefore, List.append_assoc, List.drop_left, List.map_append,
    pieces_append] at hfirst
  rw [htokens, ← htaken, ← List.length_append, List.drop_left] at hsecond
  rw [hsecond, ← List.append_assoc] at hfirst
  refine ⟨before, taken, after, first, last, b, htokens, hhead, hlast, ?_, ?_, hb, ?_⟩
  · rcases hs.offset_mark ht with ⟨hnil, -⟩ | ⟨token, htoken, hmark, -⟩
    · exact absurd hnil hne
    · cases Option.some.inj (hi.symm.trans htoken)
      rw [State.upTo_eq hs hplaced hlt]
      exact hmark.trans (by rw [hzero, Nat.add_zero])
  · obtain ⟨token, htoken, hoffset⟩ := hplaced.last_token (by omega)
    cases Option.some.inj (hj.symm.trans htoken)
    rw [State.upTo_eq hs hplaced hlt]
    exact hoffset
  · exact (List.append_inj' hfirst hlength).1 ▸ hP

/-! Texts. -/

/-- The text in a span that covers pieces is cut into their words, but for closing brackets behind
it. -/
theorem Covers.text {settings : Settings} {source : Source} {e : Extent} {n : Nat}
    {P : List Word → Prop} (h : Covers (Session.start settings source).setting e n P)
    (hopens : ∀ us, P us → ∃ w more, us = w :: more ∧ opensArg w.1 = true)
    (hsound : ∀ item ∈ lex false source.text, item.flawed? = none)
    (hfree : ∀ w ∈ wordsOf source.text, w.1 = .identifier → isReserved w.2 = false) :
    let text := ((Session.start settings source).layout.span e).textIn source.text
    ∃ words b, b ≤ n ∧ P (pieces words ++ List.replicate b (fixed .greater)) ∧
      (∀ w ∈ words, w ∈ wordsOf source.text) ∧ ∀ rest more, Lexer.Spaced rest → Cuts rest more →
        Cuts (text.toList ++ rest) (words ++ more) := by
  intro text
  have hfine := Session.start_fine settings source
  obtain ⟨before, taken, after, first, last, b, htokens, hfirst, hlast, hstart, hstop, hb, hP⟩ :=
    h.tokens hfine.tiled hopens
  have hbare : tokensOf source.text =
      before.map Token.bare ++ taken.map Token.bare ++ after.map Token.bare := by
    rw [← bare_tokens settings.keepDocs, ← List.map_append, ← List.map_append, ← htokens]
    rfl
  have hwords : (taken.map Token.bare).map Token.word = taken.map Token.word := by
    rw [List.map_map]
    rfl
  have hmem : ∀ w ∈ taken.map Token.word, w ∈ wordsOf source.text := fun w hw => by
    rw [wordsOf_eq, hbare, List.map_append, List.map_append, hwords]
    exact List.mem_append_left _ (List.mem_append_right _ hw)
  obtain ⟨pre, slice, post, htext, hpre, hslice, hcuts⟩ := Lexer.lex_slice hsound hbare
    (by rw [List.head?_map, hfirst]; rfl) (by rw [List.getLast?_map, hlast]; rfl)
    fun t ht hk => hfree t.word (hmem _ (hwords ▸ List.mem_map_of_mem ht)) hk
  have hin : text = String.ofList slice := by
    have hspan : (Session.start settings source).layout.span e =
        source.spanOf (byteLength pre) (byteLength pre + byteLength slice) := by
      rw [hslice, hpre]
      exact congrArg₂ source.spanOf hstart hstop
    exact (congrArg (Span.textIn · source.text) hspan).trans (Source.textIn_spanOf htext)
  rw [hin, String.toList_ofList]
  exact ⟨_, b, hb, hP, hmem, fun rest more hrest hmore => hwords ▸ hcuts rest more hrest hmore⟩

/-- Closing brackets, each with a blank in front of it. -/
def closing (n : Nat) : String :=
  String.join (List.replicate n " >")

theorem toList_closing (n : Nat) :
    (closing (n + 1)).toList = ' ' :: '>' :: (closing n).toList := by
  simp [closing, List.replicate_succ]

theorem spaced_closing (n : Nat) : Lexer.Spaced (closing n).toList := by
  cases n with
  | zero => exact .nil
  | succ n =>
    rw [toList_closing]
    rintro c ⟨⟩
    rfl

theorem cuts_closing (n : Nat) : Cuts (closing n).toList (List.replicate n (fixed .greater)) := by
  induction n with
  | zero => exact .nil
  | succ n ih =>
    have hstarts : Starts (fixed .greater) (closing n).toList :=
      starts_operator (by decide) ((spaced_closing n).mono fun c hc => by
        simpa using Lexer.not_of_isSpacing (p := (extensions .greater).contains) hc
          (by decide)) nofun nofun
    rw [toList_closing]
    exact .skip rfl (.cons hstarts ih)

/-- The text with the brackets closed that it opens. -/
def closed (text : String) : String :=
  text ++ closing (openBrackets (pieces (wordsOf text)))

/-- The text is taken for the type, without a diagnostic. -/
def ReadsAs (settings : Settings) (text : String) (type : Tree .type) : Prop :=
  let session := Session.start settings (.ofText Source.unnamed text)
  ∃ read, session.typeUse.1 = .typeExpr read ∧ read.erase = type.erase ∧
    session.typeUse.2.diagnostics = []

/-- The span of a type holds a text that is closed to one of the type, or if it is around another
type, a text of one that goes on with the name of the other. -/
def Tree.HoldsItself (settings : Settings) (layout : Layout) (isOuter : Bool) :
    {c : Category} → Tree c → Prop
  | .type, tree@(.type _ _ _ _ _ _ e) =>
    let text := (layout.span e).textIn layout.source.text
    if isOuter then ∃ next, ReadsAs settings text (.type (.some tree) next .nil false .nil 0 e)
    else ReadsAs settings (closed text) tree
  | _, _ => True

/-- A text that is cut into the words of a type reads as it. -/
theorem reads_of_cuts {settings : Settings} {text : String} {words : List Word} {type : Tree .type}
    (hcuts : Cuts text.toList words) (hspelled : Spells (.type type) (pieces words))
    (hplain : ∀ w ∈ words, w.1 ≠ .atSign) : ReadsAs settings text type :=
  Session.typeUse_of_spelled hcuts.lexesTo hspelled
    (hspelled.balanced (unmarked_pieces hplain)).plain

section Reading

variable {settings : Settings} {source : Source} {e : Extent} {n : Nat} {type : Tree .type}
  (hsound : ∀ item ∈ lex false source.text, item.flawed? = none)
  (hfree : ∀ w ∈ wordsOf source.text, w.1 = .identifier → isReserved w.2 = false)
  (hplain : ∀ w ∈ wordsOf source.text, w.1 ≠ .atSign)

include hsound hfree hplain

/-- Where a type is covered its text reads as it when the brackets are closed, and if nothing was
taken off the token behind it, as it stands. -/
theorem Covers.reads (chosen : Settings)
    (h : Covers (Session.start settings source).setting e n (Spells (.type type) ·)) :
    let text := ((Session.start settings source).layout.span e).textIn source.text
    ReadsAs chosen (closed text) type ∧ (n = 0 → ReadsAs chosen text type) := by
  intro text
  obtain ⟨words, b, hb, hspelled, hmem, hcuts⟩ := h.text (fun us hus => hus.opens) hsound hfree
  have hunmarked : ∀ w ∈ words ++ List.replicate b (fixed .greater), w.1 ≠ .atSign :=
    List.forall_mem_append.mpr ⟨fun w hw => hplain w (hmem w hw), fun w hw => by
      rw [List.eq_of_mem_replicate hw]
      decide⟩
  have hpieces : pieces (words ++ List.replicate b (fixed .greater)) =
      pieces words ++ List.replicate b (fixed .greater) := by
    rw [pieces_append]
    congr 1
    exact pieces_eq_self fun w hw => by rw [List.eq_of_mem_replicate hw]; rfl
  rw [← hpieces] at hspelled
  have hwords : wordsOf text = words := by
    have htext := hcuts [] [] .nil .nil
    rw [List.append_nil, List.append_nil] at htext
    exact words_of_map htext.lexesTo
  constructor
  · have hb : openBrackets (pieces (wordsOf text)) = b := by
      rw [hwords]
      exact Balanced.openBrackets_eq (hpieces ▸ hspelled.balanced (unmarked_pieces hunmarked))
    refine reads_of_cuts ?_ hspelled hunmarked
    rw [closed, hb, String.toList_append]
    exact hcuts _ _ (spaced_closing b) (cuts_closing b)
  · intro hn
    obtain rfl : b = 0 := by omega
    refine reads_of_cuts ?_ hspelled hunmarked
    rw [← List.append_nil text.toList]
    exact hcuts [] [] .nil .nil

theorem Tree.Located.holdsItself (chosen : Settings) {isOuter : Bool} {c : Category}
    {tree : Tree c} (h : tree.Located (Session.start settings source).setting isOuter) :
    tree.HoldsItself chosen (Session.start settings source).layout isOuter := by
  unfold Tree.HoldsItself
  split
  · cases isOuter with
    | true =>
      obtain ⟨next, hcovers⟩ := h
      exact ⟨next, (hcovers.reads hsound hfree hplain chosen).2 rfl⟩
    | false =>
      obtain ⟨n, hcovers⟩ := h
      exact (hcovers.reads hsound hfree hplain chosen).1
  · trivial

end Reading

/-- In a type that is read without an error and without annotations, the text in the span of each
type inside reads as that type once the brackets are closed that were taken off a longer token
behind it; the text of a type around another one goes on with the name of the other. A reserved word
that the lexer took for a name must not be among its names. -/
theorem Session.typeUse_spans (settings chosen : Settings) (source : Source)
    (hclean : Diagnostic.Clean (start settings source).typeUse.2.diagnostics)
    (hplain : ∀ w ∈ wordsOf source.text, w.1 ≠ .atSign)
    (hfree : ∀ w ∈ wordsOf source.text, w.1 = .identifier → isReserved w.2 = false) :
    ∃ type, (start settings source).typeUse.1 = .typeExpr type ∧
      type.Every (fun _ {_} tree => tree.isOption) (fun isOuter {_} tree =>
        tree.HoldsItself chosen (start settings source).layout isOuter) false := by
  have hlexes : LexesTo false source.text (wordsOf source.text) := by
    have hbare := lexesTo_bare (lexesTo_of_clean_typeUse hclean)
    rwa [← words_of_map hbare] at hbare
  have hsound : ∀ item ∈ lex false source.text, item.flawed? = none :=
    List.filterMap_eq_nil_iff.mp (flawless_iff.mpr hlexes)
  have hwords : (start settings source).state.words = wordsOf source.text :=
    (start_of_lexesTo (lexesTo_keepDocs hlexes)).1
  obtain ⟨type, htype, hspanned⟩ := typeUse_spanned hclean
    (State.pieces_of_words hwords ▸ unmarked_pieces hplain)
  exact ⟨type, htype,
    hspanned.mono fun isOuter _ tree h => h.holdsItself hsound hfree hplain chosen⟩

/-- The closing bracket that `B<C>` shares with the type it is an argument of is not in its span. -/
example :
    let session := Session.start .standard (.ofText Source.unnamed "A<B<C>>")
    let text (e : Extent) := (session.layout.span e).textIn session.layout.source.text
    (match session.typeUse.1 with
      | .typeExpr (.type _ _ (.cons (.typeArg (.type _ _ _ _ _ _ e)) _) _ _ _ _) => text e
      | _ => "") = "B<C" ∧ closed "B<C" = "B<C >" := by
  decide

end JavaSyntax
