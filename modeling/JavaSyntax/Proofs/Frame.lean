import JavaSyntax.Proofs.Buffer
import JavaSyntax.Proofs.Coverage
import JavaSyntax.Proofs.TypeSpans

/-!
What the call of a nonterminal leaves alone, whether it succeeds or fails, however deep. The flag
for labels is what it was, and so are the tokens in front of where the call started. From there on a
token changes only when closing angle brackets are taken off it; what is left is the text of its
span again, and is lexed as what it is now.
-/

namespace JavaSyntax

namespace Token

variable {t u : Token} {n : Nat}

/-- A token that an angle bracket can be taken off is written in full. -/
def Spelled (t : Token) : Prop :=
  (State.afterAngle t.kind).isSome = true → t.text = t.kind.spelling

theorem Spelled.afterAngles (ht : t.Spelled) (h : t.afterAngles n = some u) : u.Spelled := by
  cases n with
  | zero =>
    cases h
    exact ht
  | succ n => exact fun _ => (rest_afterAngles h).1

theorem text_afterAngles (ht : t.Spelled) (h : t.afterAngles n = some u) :
    t.text.toList = List.replicate n '>' ++ u.text.toList := by
  cases n with
  | zero =>
    cases h
    rfl
  | succ n =>
    have hkind := kind_afterAngles h
    rw [ht (isSome_afterAngle_of_afterAngles hkind), (rest_afterAngles h).1]
    exact spelling_of_afterAngles hkind

/-- The second token is the first without this many angle brackets at its front. -/
structure Closed (t : Token) (n : Nat) (u : Token) : Prop where
  text : t.text.toList = List.replicate n '>' ++ u.text.toList
  kind : JavaSyntax.afterAngles n t.kind = some u.kind
  start : u.start = t.start + n
  stop : u.stop = t.stop
  doc : 0 < n → u.doc = none

theorem closed_of_afterAngles (ht : t.Spelled) (h : t.afterAngles n = some u) : t.Closed n u where
  text := text_afterAngles ht h
  kind := kind_afterAngles h
  start := (place_afterAngles h).1
  stop := (place_afterAngles h).2
  doc hpos := by
    obtain ⟨m, rfl⟩ := Nat.exists_eq_succ_of_ne_zero (Nat.pos_iff_ne_zero.mp hpos)
    exact (rest_afterAngles h).2

/-- A token is the text of its span, and that text is lexed as the token: only a name that is
spelled like a reserved word is lexed as that word. -/
structure Legible (source : Source) (t : Token) : Prop where
  spanned : (source.spanOf t.start t.stop).textIn source.text = t.text
  lexed : LexesTo false t.text [t.word.alone]
  kind : LexesTo false t.text [t.word] ↔ (t.kind = .identifier → isReserved t.text = false)

end Token

/-- A text that is lexed as a word alone is lexed as the word if that is the same. -/
theorem lexesTo_word_iff {w : Word} (h : LexesTo false w.2 [w.alone]) :
    LexesTo false w.2 [w] ↔ (w.1 = .identifier → isReserved w.2 = false) := by
  rw [← Word.alone_eq_iff]
  refine ⟨fun hword => ?_, fun hsame => by rwa [hsame] at h⟩
  have hwords : [w.alone].map some = [w].map some := h.symm.trans hword
  simpa using hwords

/-- Each token of a text is found again in its own text. -/
theorem lexesTo_token {keepDocs : Bool} {text : String} {t : Token}
    (h : t ∈ (lex keepDocs text).filterMap Item.token?) : LexesTo false t.text [t.word.alone] := by
  have hbare : t.bare ∈ tokensOf text := by
    rw [← bare_tokens keepDocs]
    exact List.mem_map_of_mem h
  have hword : t.word ∈ wordsOf text := by
    rw [wordsOf_eq]
    exact List.mem_map.mpr ⟨t.bare, hbare, rfl⟩
  have hcuts : Cuts (t.word.alone.2.toList ++ []) [t.word.alone] :=
    .cons (starts_alone hword .nil) .nil
  rw [List.append_nil, Word.snd_alone] at hcuts
  exact hcuts.lexesTo

/-- What is left behind an angle bracket is a symbol, too. -/
theorem lexesTo_afterAngle {k l : Kind} (h : State.afterAngle k = some l) :
    LexesTo false l.spelling [(l, l.spelling)] := by
  unfold LexesTo
  cases k <;> cases h <;> decide

namespace Buffer

variable {setting : Setting} {layout : Layout} {b c d : Buffer} {t : Token} {i : Nat}

namespace Faithful

theorem spelled (h : b.Faithful layout) (hl : layout.Tiled) (ht : b.tokens[i]? = some t) :
    t.Spelled := by
  obtain ⟨whole, n, hwhole, hn⟩ := h.worn.whole ht
  exact Token.Spelled.afterAngles (hl.angles whole (List.mem_of_getElem? hwhole)) hn

theorem spanned (h : b.Faithful layout) (hl : layout.Tiled) (ht : b.tokens[i]? = some t) :
    (layout.source.spanOf t.start t.stop).textIn layout.source.text = t.text := by
  obtain ⟨whole, n, hwhole, hn⟩ := h.worn.whole ht
  have hmem := List.mem_of_getElem? hwhole
  obtain ⟨before, after, hcut, hstart, hstop⟩ := hl.cut whole hmem
  have hclosed := Token.closed_of_afterAngles (hl.angles whole hmem) hn
  have hcut' : layout.source.text.toList =
      before ++ List.replicate n '>' ++ t.text.toList ++ after := by
    rw [hcut, hclosed.text]
    simp only [List.append_assoc]
  have hstart' : t.start = byteLength (before ++ List.replicate n '>') := by
    rw [hclosed.start, hstart, byteLength_append, byteLength_replicate_angle]
  have hstop' : t.stop = t.start + byteLength t.text.toList := by
    rw [hclosed.stop, hstop, hclosed.text, hclosed.start, byteLength_append,
      byteLength_replicate_angle, Nat.add_assoc]
  rw [hstop', hstart', Source.textIn_spanOf hcut', String.ofList_toList]

end Faithful

/-! What one step does. -/

/-- What a rule can do to a buffer at once. -/
inductive Step (setting : Setting) (b : Buffer) : Buffer → Prop where
  | advance (n : Nat) : Step setting b (b.advance n)
  | splitAngle : Step setting b b.splitAngle
  | record (fault : Fault) (start stop : Nat) :
      Step setting b (b.record setting.layout fault start stop)
  | deprecation (doc : Option Mark) (name : Extent) :
      Step setting b (b.deprecation setting doc name)
  | calling (asLabels : Bool) : Step setting b (b.calling asLabels)
  | called (asLabels saved : Bool) : Step setting b (b.called asLabels saved)

/-- Steps lead from one buffer to the other, in whatever order. -/
def Reaches (setting : Setting) : Buffer → Buffer → Prop :=
  Relation.ReflTransGen (Step setting)

/-- The tokens of the second buffer are those of the first, but for angle brackets that were taken
off where the first one stood or behind it. -/
structure Onward (b c : Buffer) : Prop where
  worn : Worn b.tokens c.tokens
  current_le : b.current ≤ c.current
  before : ∀ i, i < b.current → c.tokens[i]? = b.tokens[i]?

namespace Onward

theorem of_tokens (htokens : c.tokens = b.tokens) (hle : b.current ≤ c.current) : Onward b c :=
  ⟨htokens ▸ .refl _, hle, fun _ _ => htokens ▸ rfl⟩

theorem trans (h : Onward b c) (h' : Onward c d) : Onward b d where
  worn := h.worn.trans h'.worn
  current_le := Nat.le_trans h.current_le h'.current_le
  before i hi := (h'.before i (Nat.lt_of_lt_of_le hi h.current_le)).trans (h.before i hi)

theorem splitAngle (b : Buffer) : Onward b b.splitAngle := by
  rcases b.splitAngle_cases with hsame | ⟨t, u, ht, hu, hsplit⟩
  · rw [hsame]
    exact .of_tokens rfl (Nat.le_refl _)
  · rw [hsplit]
    exact ⟨.set ht hu, Nat.le_refl _, fun i hi => List.getElem?_set_ne (Nat.ne_of_gt hi)⟩

end Onward

namespace Step

theorem faithful (h : Step setting b c) (hb : b.Faithful layout) : c.Faithful layout := by
  cases h with
  | advance n => exact hb.advance n
  | splitAngle => exact hb.splitAngle
  | record fault start stop => exact hb.told _
  | deprecation doc name => exact hb.told _
  | calling asLabels => exact hb.calling asLabels
  | called asLabels saved => exact hb.called asLabels saved

theorem onward (h : Step setting b c) (hb : b.Faithful layout) : Onward b c := by
  cases h with
  | advance n => exact .of_tokens rfl (Nat.le_min.mpr ⟨Nat.le_add_right .., hb.current_le⟩)
  | splitAngle => exact .splitAngle b
  | record fault start stop => exact .of_tokens rfl (Nat.le_refl _)
  | deprecation doc name => exact .of_tokens rfl (Nat.le_refl _)
  | calling asLabels => cases asLabels <;> exact .of_tokens rfl (Nat.le_refl _)
  | called asLabels saved => cases asLabels <;> exact .of_tokens rfl (Nat.le_refl _)

end Step

/-! What a whole run does. -/

theorem Reaches.onward (h : Reaches setting b c) (hb : b.Faithful layout) :
    c.Faithful layout ∧ Onward b c := by
  induction h with
  | refl => exact ⟨hb, .of_tokens rfl (Nat.le_refl _)⟩
  | tail _ hstep ih => exact ⟨hstep.faithful ih.1, ih.2.trans (hstep.onward ih.1)⟩

theorem exec_reaches {caller : Caller}
    (hc : ∀ {β : Type} (nonterminal : Nonterminal β) (b : Buffer) (r : Except SyntaxError β)
      (c : Buffer), caller nonterminal b = some (r, c) → Reaches setting b c)
    {α : Type} (rule : Rule α) {r : Except SyntaxError α}
    (h : exec setting caller rule b = some (r, c)) : Reaches setting b c := by
  induction rule generalizing b with
  | done value =>
    cases h
    exact .refl
  | fail error =>
    cases h
    exact .refl
  | look rest ih => exact ih _ h
  | advance n rest ih => exact .head (.advance n) (ih h)
  | splitAngle rest ih => exact .head .splitAngle (ih h)
  | report error rest ih => exact .head (.record error.fault _ _) (ih h)
  | deprecation doc name rest ih => exact .head (.deprecation doc name) (ih h)
  | call nonterminal asLabels rest ih =>
    cases hcall : caller nonterminal (b.calling asLabels) with
    | none => simp [exec, hcall] at h
    | some answer =>
      obtain ⟨result, d⟩ := answer
      simp only [exec, hcall] at h
      have hinside := hc nonterminal _ result d hcall
      exact .head (.calling asLabels) (hinside.trans (.head (.called asLabels b.inLabels) (ih _ h)))

theorem run_reaches (fuel : Nat) {β : Type} (nonterminal : Nonterminal β)
    {r : Except SyntaxError β} (h : run setting fuel nonterminal b = some (r, c)) :
    Reaches setting b c := by
  induction fuel generalizing β b c with
  | zero => cases h
  | succ fuel ih => exact exec_reaches (fun nonterminal _ _ _ => ih nonterminal) _ h

/-! The parse of a source. -/

/-- The buffer that a parse starts with. -/
def start (settings : Settings) (source : Source) : Buffer :=
  let session := Session.start settings source
  ⟨session.layout.tokens.toList, 0, false, session.state.budget, session.state.log⟩

section Start

variable (settings : Settings) (source : Source)

theorem start_faithful : (start settings source).Faithful (Session.start settings source).layout :=
  ⟨.refl _, Nat.zero_le _, fun _ _ => rfl⟩

theorem start_state : (start settings source).state (Session.start settings source).layout =
    (Session.start settings source).state := by
  obtain ⟨hindex, hahead⟩ := Session.start_position settings source
  refine told_state (b := start settings source) hahead hindex ?_
  rw [Session.start_taken, taken_whole rfl]

/-- Whatever state the parse may get to, and with the flag set or not, a buffer gets there too. -/
theorem exists_reaches {s : State} (hs : JavaSyntax.Reaches (Session.start settings source).setting
      (Session.start settings source).state s) (inLabels : Bool) :
    ∃ b, Reaches (Session.start settings source).setting (start settings source) b ∧
      b.state (Session.start settings source).layout = s ∧ b.inLabels = inLabels := by
  let session := Session.start settings source
  have hl : session.layout.Tiled := tiled_ofItems settings.keepDocs source
  suffices h : ∃ b, Reaches session.setting (start settings source) b ∧
      b.state session.layout = s by
    obtain ⟨b, hb, hstate⟩ := h
    refine ⟨b.called true inLabels, hb.tail (.called true inLabels), ?_, rfl⟩
    rw [called_state, hstate]
  induction hs with
  | refl => exact ⟨_, .refl, start_state settings source⟩
  | tail _ hstep ih =>
    obtain ⟨b, hb, rfl⟩ := ih
    have hfaithful := (hb.onward (start_faithful settings source)).1
    cases hstep with
    | advance n => exact ⟨_, hb.tail (.advance n), hfaithful.advance_state n⟩
    | splitAngle => exact ⟨_, hb.tail .splitAngle, hfaithful.splitAngle_state hl⟩
    | record fault start stop =>
      exact ⟨_, hb.tail (.record fault start stop), record_state b _ fault start stop⟩
    | deprecation doc name =>
      exact ⟨_, hb.tail (.deprecation doc name), deprecation_state b session.setting doc name⟩

end Start

theorem Faithful.legible {settings : Settings} {source : Source}
    (h : b.Faithful (Session.start settings source).layout) (ht : b.tokens[i]? = some t) :
    t.Legible source := by
  have hl : (Session.start settings source).layout.Tiled := tiled_ofItems settings.keepDocs source
  have hlexed : LexesTo false t.text [t.word.alone] := by
    obtain ⟨whole, n, hwhole, hn⟩ := h.worn.whole ht
    cases n with
    | zero =>
      cases hn
      exact lexesTo_token (List.mem_of_getElem? hwhole)
    | succ n =>
      obtain ⟨k, -, hafter⟩ := Option.bind_eq_some_iff.mp (Token.kind_afterAngles hn)
      have hname : t.kind ≠ .identifier := by
        intro hkind
        rw [hkind] at hafter
        cases k <;> cases hafter
      rw [Word.alone_of_free fun hkind => absurd hkind hname, Token.word,
        (Token.rest_afterAngles hn).1]
      exact lexesTo_afterAngle hafter
  exact ⟨h.spanned hl ht, hlexed, lexesTo_word_iff (w := t.word) hlexed⟩

/-- A call leaves the buffer like this, whatever it was for and however it ended. -/
structure Framed (source : Source) (b c : Buffer) : Prop where
  inLabels : c.inLabels = b.inLabels
  length : c.tokens.length = b.tokens.length
  before : ∀ i, i < b.current → c.tokens[i]? = b.tokens[i]?
  /-- What was changed was reached, and only lost brackets at its front. -/
  changed : ∀ (i : Nat) (t u : Token), b.tokens[i]? = some t → c.tokens[i]? = some u → u ≠ t →
    i ≤ c.current ∧ ∃ n, 0 < n ∧ t.Closed n u
  legible : ∀ t ∈ c.tokens, t.Legible source

theorem Onward.framed {settings : Settings} {source : Source} (h : Onward b c)
    (hb : b.Faithful (Session.start settings source).layout)
    (hc : c.Faithful (Session.start settings source).layout) (hflag : c.inLabels = b.inLabels) :
    Framed source b c := by
  have hl : (Session.start settings source).layout.Tiled := tiled_ofItems settings.keepDocs source
  refine ⟨hflag, h.worn.1, h.before, fun i t u ht hu hne => ⟨?_, ?_⟩, fun t ht => ?_⟩
  · -- Tokens that neither buffer has reached are in both as they were lexed.
    refine Nat.le_of_not_lt fun hlt => hne ?_
    have hsame := (hc.later i hlt).trans (hb.later i (Nat.lt_of_le_of_lt h.current_le hlt)).symm
    exact Option.some.inj (hu.symm.trans (hsame.trans ht))
  · obtain ⟨n, v, hn, hv⟩ := h.worn.2 i t ht
    cases hu.symm.trans hv
    refine ⟨n, Nat.pos_of_ne_zero ?_, Token.closed_of_afterAngles (hb.spelled hl ht) hn⟩
    rintro rfl
    cases hn
    exact hne rfl
  · obtain ⟨i, hi⟩ := List.getElem?_of_mem ht
    exact hc.legible hi

/-- From wherever the parse of a source may get, the call of any nonterminal ends, with the same
answer as without the buffer; and whether that is a value or a fault, the flag is as it was in front
of the call, the tokens are as many, those already taken are the same, and what was changed has only
lost closing angle brackets. All tokens are still what the lexer makes of their text, which is that
of their span. -/
theorem run_framed (settings : Settings) (source : Source)
    (hb : Reaches (Session.start settings source).setting (start settings source) b) {β : Type}
    (nonterminal : Nonterminal β) :
    let session := Session.start settings source
    (∀ fuel, Session.fuel (b.state session.layout) ≤ fuel →
      (run session.setting fuel nonterminal b).isSome = true) ∧
    ∀ fuel r c, run session.setting fuel nonterminal b = some (r, c) →
      JavaSyntax.run session.setting fuel nonterminal b.inLabels (b.state session.layout) =
        some (r, c.state session.layout) ∧
      Reaches session.setting b c ∧ Framed source b c := by
  intro session
  have hl : session.setting.layout.Tiled := tiled_ofItems settings.keepDocs source
  have hfaithful := (hb.onward (start_faithful settings source)).1
  refine ⟨fun fuel hle => ?_, fun fuel r c hrun => ?_⟩
  · have hrank := nonterminal.rank_lt
    have hfuel : 16 * (b.state session.layout).left + nonterminal.rank < fuel := by
      unfold Session.fuel at hle
      unfold State.left
      omega
    obtain ⟨r, t, hrun, -⟩ := run_meets session.setting fuel nonterminal b.inLabels _ hfuel
    rw [isSome_run hl fuel nonterminal hfaithful]
    exact Option.isSome_iff_exists.mpr ⟨_, hrun⟩
  · obtain ⟨hsame, hfaithful', hflag⟩ := run_some hl hfaithful hrun
    have hreaches := run_reaches fuel nonterminal hrun
    exact ⟨hsame, hreaches, (hreaches.onward hfaithful).2.framed hfaithful hfaithful' hflag⟩

/-- The inner list takes a bracket off the token, and the outer one takes what is left. -/
example :
    let source := Source.ofText Source.unnamed "A<B<C>>"
    ((run (Session.start .standard source).setting 64 .wholeType (start .standard source)).map
      fun answer => answer.2.tokens.map fun t => (t.text, t.start, t.stop)) =
      some [("A", 0, 1), ("<", 1, 2), ("B", 2, 3), ("<", 3, 4), ("C", 4, 5), (">", 6, 7)] := by
  decide

end Buffer

end JavaSyntax
