import JavaSyntax.Proofs.Reading
import JavaSyntax.Proofs.Places
import JavaSyntax.Proofs.Structure

/-!
What it means that a tree was read between two states. `Read` places a tree and all its parts: each
node has an extent of its own, the parts lie inside it, and the elements of a list follow one
another. While a rule runs, `SoFar` keeps what it has read; the lemmas here say what each building
block of a rule adds to it, so that a rule is followed once for everything that is known of trees.
-/

namespace JavaSyntax

/-- Whether trees of a category are nodes rather than lists or options of them. -/
def Category.isNode : Category → Bool
  | .list _ | .option _ => false
  | _ => true

theorem Tree.isNode_of_extent {c : Category} {tree : Tree c} {e : Extent}
    (h : tree.extent? = some e) : c.isNode = true := by
  cases tree <;> first | rfl | cases h

/-- What is known of a node where it began: a declaration begins in front of a whole token and keeps
the documentation of that token, and an `if` with an `else` could not have left it to a statement
inside. -/
def Tree.Sits (first : State) : {c : Category} → Tree c → Prop
  | _, .typeDecl front _ _ _ _ _ => first.taken = 0 ∧ front.doc = first.doc
  | _, .field (.varDecl front _ _ _ _) => first.taken = 0 ∧ front.doc = first.doc
  | _, .method front _ _ _ _ _ _ _ _ _ => first.taken = 0 ∧ front.doc = first.doc
  | _, .constructor front _ _ _ _ _ _ _ _ => first.taken = 0 ∧ front.doc = first.doc
  | _, .ifStmt _ yes (.some _) _ => ¬yes.Dangles
  | _, _ => True

/-- The tree was read in a context, between two states of a parse. Every node has the states where
it began and ended: its extent and its parts lie between these, it sits well where it began, and it
fits unless an error was reported by then. -/
inductive Read (setting : Setting) : Context → State → {c : Category} → Tree c → State → Prop where
  | nil {ctx : Context} {s t : State} {c : Category} (way : Reaches setting s t) :
      Read setting ctx s (.nil : Tree (.list c)) t
  | cons {ctx : Context} {s m t : State} {c : Category} {head : Tree c} {tail : Tree (.list c)}
      (first : Read setting ctx s head m) (rest : Read setting ctx m tail t) :
      Read setting ctx s (.cons head tail) t
  | none {ctx : Context} {s t : State} {c : Category} (way : Reaches setting s t) :
      Read setting ctx s (.none : Tree (.option c)) t
  | some {ctx : Context} {s t : State} {c : Category} {value : Tree c}
      (here : Read setting ctx s value t) : Read setting ctx s (.some value) t
  | node {ctx : Context} {s first last t : State} {c : Category} {tree : Tree c}
      (isNode : c.isNode = true) (before : Reaches setting s first)
      (way : Reaches setting first last) (after : Reaches setting last t)
      (extent : ∀ e, tree.extent? = some e → e = first.upTo last ∧ first.index < last.index)
      (fits : last.IsFresh → tree.Fits ctx) (sits : tree.Sits first)
      (parts : ∀ p ∈ tree.parts, Read setting (ctx.inside tree) first p.2 last) :
      Read setting ctx s tree t

namespace Read

variable {setting : Setting} {ctx : Context} {s s' t t' : State} {c : Category} {tree : Tree c}

theorem reaches (h : Read setting ctx s tree t) : Reaches setting s t := by
  induction h with
  | nil way => exact way
  | cons _ _ ih ih' => exact ih.trans ih'
  | none way => exact way
  | some _ ih => exact ih
  | node _ before way after => exact before.trans (way.trans after)

theorem from_earlier (h : Read setting ctx s tree t) (hr : Reaches setting s' s) :
    Read setting ctx s' tree t := by
  induction h with
  | nil way => exact .nil (hr.trans way)
  | cons _ rest ih _ => exact .cons (ih hr) rest
  | none way => exact .none (hr.trans way)
  | some _ ih => exact .some (ih hr)
  | node isNode before way after extent fits sits parts =>
    exact .node isNode (hr.trans before) way after extent fits sits parts

theorem to_later (h : Read setting ctx s tree t) (hr : Reaches setting t t') :
    Read setting ctx s tree t' := by
  induction h with
  | nil way => exact .nil (way.trans hr)
  | cons first _ _ ih => exact .cons first (ih hr)
  | none way => exact .none (way.trans hr)
  | some _ ih => exact .some (ih hr)
  | node isNode before way after extent fits sits parts =>
    exact .node isNode before way (after.trans hr) extent fits sits parts

/-- One list behind another; nodes are left alone. -/
theorem append {m : State} {rest : Tree c} (h : Read setting ctx s tree m)
    (h' : Read setting ctx m rest t) : Read setting ctx s (tree.append rest) t := by
  induction h with
  | nil way => exact h'.from_earlier way
  | cons first _ _ ih => exact .cons first (ih h')
  | none way => exact .none (way.trans h'.reaches)
  | some here _ => exact .some (here.to_later h'.reaches)
  | @node _ _ _ _ _ _ tree isNode before way after extent fits sits parts =>
    have hsame : tree.append rest = tree := by cases tree <;> first | rfl | cases isNode
    rw [hsame]
    exact .node isNode before way (after.trans h'.reaches) extent fits sits parts

/-- What was read without an error fits. -/
theorem fits (h : Read setting ctx s tree t) (hfresh : t.IsFresh) : tree.Fits ctx := by
  cases h with
  | nil way => trivial
  | cons _ _ => trivial
  | none way => trivial
  | some _ => trivial
  | node _ _ _ after _ fits _ _ => exact fits (after.isFresh hfresh)

/-- The property holds of every tree that is read behind a state, by where it begins and ends. -/
def Grants (setting : Setting) (first : State) (P : {c : Category} → Tree c → Prop) : Prop :=
  ∀ {c : Category} (tree : Tree c) (u v : State), Reaches setting first u → Reaches setting u v →
    (∀ e, tree.extent? = Option.some e → e = u.upTo v ∧ u.index < v.index) → tree.Sits u → P tree

/-- What reading grants to a tree it grants to the trees inside it too. -/
theorem everywhere {first : State} {P : {c : Category} → Tree c → Prop}
    (h : Read setting ctx s tree t) (hfirst : Reaches setting first s)
    (hP : Grants setting first P) : tree.Everywhere P := by
  induction h with
  | nil way => exact .mk (hP _ _ _ hfirst way nofun trivial) fun p hp => by cases hp
  | cons head rest ih ih' =>
    refine .mk (hP _ _ _ hfirst (head.reaches.trans rest.reaches) nofun trivial) fun p hp => ?_
    rcases List.mem_cons.mp hp with rfl | hp
    · exact ih hfirst
    · cases List.mem_singleton.mp hp
      exact ih' (hfirst.trans head.reaches)
  | none way => exact .mk (hP _ _ _ hfirst way nofun trivial) fun p hp => by cases hp
  | some here ih =>
    refine .mk (hP _ _ _ hfirst here.reaches nofun trivial) fun p hp => ?_
    cases List.mem_singleton.mp hp
    exact ih hfirst
  | node isNode before way after extent fits sits parts ih =>
    exact .mk (hP _ _ _ (hfirst.trans before) way extent sits) fun p hp =>
      ih p hp (hfirst.trans before)

end Read

/-- A span of the text between two boundaries that does not run backwards and that a caret can
point at. -/
def Source.Spans (source : Source) (span : Span) : Prop :=
  ∃ start stop, span = source.spanOf start stop ∧ source.Visible start ∧ source.Boundary stop ∧
    start ≤ stop

namespace Layout

theorem Sound.spans {layout : Layout} {e : Extent} (h : layout.Sound e) :
    layout.source.Spans (layout.span e) :=
  ⟨_, _, rfl, h.1, h.2.1, h.2.2⟩

/-- A diagnostic that points into the text; those about one character of a literal point at it. -/
structure Points (layout : Layout) (d : Diagnostic) : Prop where
  spans : layout.source.Spans d.span
  blames : d.code = .illegalEscChar ∨ d.code = .illegalUnderscore → ∃ error start,
    error.code = d.code ∧ d.span.start = layout.source.locationAt start ∧
      layout.source.Visible start ∧ layout.Blames error start

end Layout

/-- A state whose place is known, with symbols as the lexer gives them, and with diagnostics that
all point into the text. -/
structure Fine (layout : Layout) (s : State) : Prop where
  tiled : layout.Tiled
  placed : Placed layout s
  proper : Proper s.words
  logged : ∀ d ∈ s.log, layout.Points d

namespace Fine

variable {layout : Layout} {setting : Setting} {s t : State}

theorem advance (h : Fine layout s) (n : Nat) : Fine layout (s.advance n) := by
  refine ⟨h.tiled, h.placed.advance n, ?_, by simpa using h.logged⟩
  rw [State.words_advance]
  exact fun w hw => h.proper w (List.mem_of_mem_drop hw)

theorem splitAngle (h : Fine layout s) : Fine layout s.splitAngle := by
  refine ⟨h.tiled, h.placed.splitAngle, ?_, by simpa using h.logged⟩
  intro w hw
  unfold State.splitAngle at hw
  split at hw
  · exact h.proper w hw
  · rename_i x rest hahead
    split at hw
    · exact h.proper w hw
    · rename_i k hk
      rcases List.mem_cons.mp hw with rfl | hw
      · have hplain : k ≠ .classKw ∧ isName k = false := by
          cases hx : x.kind <;> rw [hx] at hk <;> cases hk <;> decide
        exact ⟨fun hclass => absurd hclass hplain.1,
          fun hname => absurd hname (by simp [Symbol.word, hplain.2])⟩
      · refine h.proper w ?_
        rw [State.words, hahead]
        exact List.mem_cons_of_mem _ hw

theorem record (h : Fine layout s) {start stop : Nat} (hstart : layout.source.Visible start)
    (hstop : layout.source.Boundary stop) (hle : start ≤ stop) {fault : Fault}
    (hblames : ∀ e, fault = .literal e → layout.Blames e start) :
    Fine layout (s.record layout.source fault start stop) := by
  refine ⟨h.tiled, h.placed.record _ _ _ _, ?_, ?_⟩
  · unfold State.words
    rw [State.ahead_record]
    exact h.proper
  · cases ha : s.budget.admits (State.entry layout.source fault start stop).offset with
    | false =>
      rw [State.record_refused ha]
      exact h.logged
    | true =>
      rw [State.record_admitted ha]
      intro d hd
      have hspan : layout.source.Spans (State.entry layout.source fault start stop).span :=
        ⟨start, stop, rfl, hstart, hstop, hle⟩
      have hfound : layout.Points (State.entry layout.source fault start stop) := by
        refine ⟨hspan, fun hcode => ?_⟩
        have hcode : fault.code = .illegalEscChar ∨ fault.code = .illegalUnderscore := hcode
        cases fault with
        | literal e => exact ⟨e, start, rfl, rfl, hstart, hblames e rfl⟩
        | lexical flaw text => cases flaw <;> simp [Fault.code, Flaw.code] at hcode
        | _ => simp [Fault.code] at hcode
      rcases List.mem_append.mp hd with hd | hd
      · exact h.logged d hd
      · rcases List.mem_cons.mp hd with rfl | hd
        · exact hfound
        · split at hd
          · cases List.mem_singleton.mp hd
            exact ⟨hspan, by simp [State.limitNote]⟩
          · cases hd

theorem report (h : Fine layout s) {error : SyntaxError} (htold : layout.Told error) :
    Fine layout (s.report layout error) :=
  h.record htold.sound.1 htold.sound.2.1 htold.sound.2.2 htold.blames

theorem deprecation (h : Fine setting.layout s) (doc : Option Mark) {name : Extent}
    (hsound : setting.layout.Sound name) :
    Fine setting.layout (s.deprecation setting doc name) := by
  refine ⟨h.tiled, h.placed.deprecation doc name, ?_, ?_⟩
  · unfold State.words
    rw [State.ahead_deprecation]
    exact h.proper
  · unfold State.deprecation
    split
    · intro d hd
      rcases List.mem_append.mp hd with hd | hd
      · exact h.logged d hd
      · cases List.mem_singleton.mp hd
        exact ⟨hsound.spans, by simp⟩
    · exact h.logged

theorem taken_eq_zero (h : Fine layout s) (hnext : Lookahead.startsWhole s.ahead = true) :
    s.taken = 0 :=
  h.placed.taken_of_startsWhole hnext

/-- The text of a name in front of which a state is. -/
theorem isWordText (h : Fine layout s) (hnext : Lookahead.next [.identifier] s.ahead = true) :
    IsWordText ((s.ahead.head?.map Symbol.text).getD "") := by
  cases hahead : s.ahead with
  | nil =>
    rw [hahead] at hnext
    cases hnext
  | cons x rest =>
    have hkind : x.kind = .identifier := by
      rw [hahead] at hnext
      simpa [Lookahead.next] using hnext
    have hmem : x.word ∈ s.words := by simp [State.words, hahead]
    exact (h.proper x.word hmem).name_text (by simp [Symbol.word, hkind, isName])

end Fine

/-! Parentheses. -/

def isParen : Kind → Bool
  | .lparen | .rparen => true
  | _ => false

/-- A function of symbols, given how many parentheses are open, that only counts these until the
outermost one closes. -/
structure CountsParens {γ : Type} (F : Nat → List Symbol → γ) : Prop where
  plain : ∀ {depth : Nat} {x : Symbol} {rest : List Symbol}, isParen x.kind = false →
    F depth (x :: rest) = F depth rest
  opens : ∀ {depth : Nat} {x : Symbol} {rest : List Symbol}, x.kind = .lparen →
    F depth (x :: rest) = F (depth + 1) rest
  closes : ∀ {depth : Nat} {x : Symbol} {rest : List Symbol}, x.kind = .rparen →
    F (depth + 2) (x :: rest) = F (depth + 1) rest

theorem CountsParens.drop {γ : Type} {F : Nat → List Symbol → γ} (hF : CountsParens F)
    {depth n : Nat} {ts : List Symbol} (h : ∀ x ∈ ts.take n, isParen x.kind = false) :
    F depth (ts.drop n) = F depth ts := by
  induction n generalizing ts with
  | zero => rfl
  | succ n ih =>
    cases ts with
    | nil => rfl
    | cons x rest =>
      rw [List.drop_succ_cons, ih fun y hy => h y (List.mem_cons_of_mem x hy),
        hF.plain (h x List.mem_cons_self)]

/-- Every context. -/
def anywhere : Context → Prop := fun _ => True

/-- What a rule that began at `s` has read when it is at `t`: these parts, in any of the contexts
`A`. So many parentheses are open, and if `began` is set a token was taken. -/
structure SoFar (setting : Setting) (A : Context → Prop) (s : State) (parts : List Part)
    (depth : Nat) (began : Bool) (t : State) : Prop where
  fine : Fine setting.layout t
  reaches : Reaches setting s t
  level : t.IsFresh → ∀ {γ : Type} (F : Nat → List Symbol → γ), CountsParens F →
    ∀ n, F (n + 1) s.ahead = F (n + 1 + depth) t.ahead
  began : began = true → s.index < t.index
  parts : ∀ p ∈ parts, ∀ ctx, A ctx → Read setting ctx s p.2 t

/-- The tree was read from `s` up to `t`, all of it. -/
structure Taken (setting : Setting) (A : Context → Prop) (s : State) {c : Category} (tree : Tree c)
    (t : State) : Prop where
  soFar : SoFar setting A s [⟨c, tree⟩] 0 false t
  extent : ∀ e, tree.extent? = some e → e = s.upTo t

namespace SoFar

variable {setting : Setting} {A B : Context → Prop} {s t u : State} {parts more : List Part}
  {depth : Nat} {b b' : Bool} {c : Category}

theorem start (h : Fine setting.layout s) : SoFar setting A s [] 0 false s :=
  ⟨h, .refl s, fun _ _ _ _ _ => rfl, nofun, nofun⟩

theorem trans (h : SoFar setting A s parts depth b t) (h' : SoFar setting A t more 0 b' u) :
    SoFar setting A s (parts ++ more) depth (b || b') u where
  fine := h'.fine
  reaches := h.reaches.trans h'.reaches
  level hu γ F hF n := by
    rw [h.level (h'.reaches.isFresh hu) F hF n, Nat.add_right_comm n 1 depth]
    exact h'.level hu F hF (n + depth)
  began hb := by
    have hle := h.reaches.index_le
    have hle' := h'.reaches.index_le
    rcases Bool.or_eq_true_iff.mp hb with hb | hb
    · exact Nat.lt_of_lt_of_le (h.began hb) hle'
    · exact Nat.lt_of_le_of_lt hle (h'.began hb)
  parts p hp ctx hctx := by
    rcases List.mem_append.mp hp with hp | hp
    · exact (h.parts p hp ctx hctx).to_later h'.reaches
    · exact (h'.parts p hp ctx hctx).from_earlier h.reaches

/-- Fewer parts, in fewer contexts, and perhaps no token. -/
theorem weaken (h : SoFar setting A s parts depth b t) (hparts : ∀ p ∈ more, p ∈ parts)
    (hA : ∀ ctx, B ctx → A ctx) (hb : b' = true → b = true) : SoFar setting B s more depth b' t :=
  ⟨h.fine, h.reaches, h.level, fun hb' => h.began (hb hb'),
    fun p hp ctx hctx => h.parts p (hparts p hp) ctx (hA ctx hctx)⟩

theorem only (h : SoFar setting A s parts depth b t) (hparts : ∀ p ∈ more, p ∈ parts) :
    SoFar setting A s more depth b t :=
  h.weaken hparts (fun _ hA => hA) fun hb => hb

theorem idle (h : SoFar setting A s parts depth b t) : SoFar setting A s parts depth false t :=
  h.weaken (fun _ hp => hp) (fun _ hctx => hctx) nofun

theorem forget (h : SoFar setting A s parts depth b t) : SoFar setting B s [] depth b t :=
  ⟨h.fine, h.reaches, h.level, h.began, nofun⟩

theorem narrow (h : SoFar setting anywhere s parts depth b t) : SoFar setting B s parts depth b t :=
  h.weaken (fun _ hp => hp) (fun _ _ => trivial) fun hb => hb

theorem begin (h : SoFar setting A s parts depth b t) (hlt : s.index < t.index) :
    SoFar setting A s parts depth true t :=
  ⟨h.fine, h.reaches, h.level, fun _ => hlt, h.parts⟩

/-- Two records of the same way, of which the second knows how it ended. -/
theorem join (h : SoFar setting A s parts depth b t) (hr : Reaches setting t u)
    {depth' : Nat} (h' : SoFar setting A s more depth' b' u) :
    SoFar setting A s (parts ++ more) depth' b' u := by
  refine ⟨h'.fine, h'.reaches, h'.level, h'.began, fun p hp ctx hctx => ?_⟩
  rcases List.mem_append.mp hp with hp | hp
  · exact (h.parts p hp ctx hctx).to_later hr
  · exact h'.parts p hp ctx hctx

theorem advance (h : SoFar setting A s parts depth b t) {n : Nat}
    (hplain : ∀ x ∈ t.ahead.take n, isParen x.kind = false) :
    SoFar setting A s parts depth b (t.advance n) where
  fine := h.fine.advance n
  reaches := h.reaches.trans (.step (.advance n))
  level ht γ F hF m := by
    rw [State.ahead_advance, hF.drop hplain]
    exact h.level ((t.isFresh_advance n).mp ht) F hF m
  began hb := by
    have hmoved := t.moved_advance n
    have hleft := t.left_advance n
    have hlt := h.began hb
    omega
  parts p hp ctx hctx := (h.parts p hp ctx hctx).to_later (.step (.advance n))

theorem index_lt (h : SoFar setting A s parts depth b t) {x : Symbol} {rest : List Symbol}
    (hahead : t.ahead = x :: rest) : s.index < (t.advance 1).index := by
  have hle := h.reaches.index_le
  show s.index < t.index + min 1 t.ahead.length
  rw [hahead, List.length_cons]
  omega

/-- One symbol of which only the kind matters. -/
theorem take (h : SoFar setting A s parts depth b t) {x : Symbol} {rest : List Symbol}
    (hahead : t.ahead = x :: rest) (hplain : isParen x.kind = false) :
    SoFar setting A s parts depth true (t.advance 1) := by
  refine (h.advance ?_).begin (h.index_lt hahead)
  rw [hahead]
  intro y hy
  cases List.mem_singleton.mp hy
  exact hplain

theorem openParen (h : SoFar setting A s parts depth b t) {x : Symbol} {rest : List Symbol}
    (hahead : t.ahead = x :: rest) (hkind : x.kind = .lparen) :
    SoFar setting A s parts (depth + 1) true (t.advance 1) where
  fine := h.fine.advance 1
  reaches := h.reaches.trans (.step (.advance 1))
  level ht γ F hF n := by
    rw [h.level ((t.isFresh_advance 1).mp ht) F hF n, hahead, hF.opens hkind]
    show _ = F (n + 1 + (depth + 1)) (t.ahead.drop 1)
    rw [hahead]
    rfl
  began _ := h.index_lt hahead
  parts p hp ctx hctx := (h.parts p hp ctx hctx).to_later (.step (.advance 1))

theorem closeParen (h : SoFar setting A s parts (depth + 1) b t) {x : Symbol} {rest : List Symbol}
    (hahead : t.ahead = x :: rest) (hkind : x.kind = .rparen) :
    SoFar setting A s parts depth true (t.advance 1) where
  fine := h.fine.advance 1
  reaches := h.reaches.trans (.step (.advance 1))
  level ht γ F hF n := by
    have hlevel := h.level ((t.isFresh_advance 1).mp ht) F hF n
    have hdepth : n + 1 + (depth + 1) = n + depth + 2 := by omega
    rw [hlevel, hahead, hdepth, hF.closes hkind]
    show _ = F (n + 1 + depth) (t.ahead.drop 1)
    rw [hahead, Nat.add_right_comm n 1 depth]
    rfl
  began _ := h.index_lt hahead
  parts p hp ctx hctx := (h.parts p hp ctx hctx).to_later (.step (.advance 1))

/-- After a report nothing depends on the parentheses any more. -/
theorem report (h : SoFar setting A s parts depth b t) {error : SyntaxError}
    (htold : setting.layout.Told error) (depth' : Nat) :
    SoFar setting A s parts depth' b (t.report setting.layout error) where
  fine := h.fine.report htold
  reaches := h.reaches.trans (.step (.record ..))
  level ht := absurd ht (t.not_isFresh_report _ _)
  began hb := by
    rw [State.index_report]
    exact h.began hb
  parts p hp ctx hctx := (h.parts p hp ctx hctx).to_later (.step (.record ..))

theorem deprecation (h : SoFar setting A s parts depth b t) (doc : Option Mark) {name : Extent}
    (hsound : setting.layout.Sound name) :
    SoFar setting A s parts depth b (t.deprecation setting doc name) where
  fine := h.fine.deprecation doc hsound
  reaches := h.reaches.trans (.step (.deprecation doc name))
  level ht := by
    rw [State.ahead_deprecation]
    exact h.level ((Reaches.step (.deprecation doc name)).isFresh ht)
  began hb := by
    rw [State.index_deprecation]
    exact h.began hb
  parts p hp ctx hctx := (h.parts p hp ctx hctx).to_later (.step (.deprecation doc name))

theorem splitAngle (h : SoFar setting A s parts depth b t) :
    SoFar setting A s parts depth b t.splitAngle where
  fine := h.fine.splitAngle
  reaches := h.reaches.trans (.step .splitAngle)
  level ht γ F hF n := by
    rw [h.level (t.isFresh_splitAngle.mp ht) F hF n]
    unfold State.splitAngle
    split
    · rfl
    · rename_i x rest hahead
      split
      · rfl
      · rename_i k hk
        have hplain : isParen x.kind = false ∧ isParen k = false := by
          cases hx : x.kind <;> rw [hx] at hk <;> cases hk <;> exact ⟨rfl, rfl⟩
        rw [hahead, hF.plain hplain.1, hF.plain hplain.2]
  began hb := by
    rw [State.index_splitAngle]
    exact h.began hb
  parts p hp ctx hctx := (h.parts p hp ctx hctx).to_later (.step .splitAngle)

/-! Trees from their parts. -/

/-- A node from the first mark of the rule up to here. -/
theorem node {tree : Tree c} (h : SoFar setting A s parts 0 true t) (hnode : c.isNode = true)
    (hparts : tree.parts = parts) (hextent : ∀ e, tree.extent? = Option.some e → e = s.upTo t)
    (hsits : tree.Sits s)
    (hfits : ∀ ctx, B ctx → A (ctx.inside tree) ∧ (t.IsFresh → tree.Fits ctx)) :
    Taken setting B s tree t := by
  refine ⟨⟨h.fine, h.reaches, h.level, nofun, ?_⟩, hextent⟩
  intro p hp ctx hctx
  cases List.mem_singleton.mp hp
  refine .node hnode (.refl s) h.reaches (.refl t) ?_ (hfits ctx hctx).2 hsits ?_
  · exact fun e he => ⟨hextent e he, h.began rfl⟩
  · exact fun p hp => h.parts p (hparts ▸ hp) _ (hfits ctx hctx).1

/-- A node without an extent of its own. -/
theorem wrap {tree : Tree c} (h : SoFar setting anywhere s parts depth b t)
    (hnode : c.isNode = true) (hparts : tree.parts = parts) (hextent : tree.extent? = none)
    (hsits : tree.Sits s) (hfits : ∀ ctx, t.IsFresh → tree.Fits ctx) :
    SoFar setting B s [⟨c, tree⟩] depth b t := by
  refine ⟨h.fine, h.reaches, h.level, h.began, ?_⟩
  intro p hp ctx _
  cases List.mem_singleton.mp hp
  refine .node hnode (.refl s) h.reaches (.refl t) ?_ (hfits ctx) hsits ?_
  · intro e he
    rw [hextent] at he
    cases he
  · exact fun p hp => h.parts p (hparts ▸ hp) _ trivial

theorem nil (h : SoFar setting B s parts depth b t) :
    SoFar setting A s [⟨.list c, .nil⟩] depth b t := by
  refine ⟨h.fine, h.reaches, h.level, h.began, fun p hp ctx _ => ?_⟩
  cases List.mem_singleton.mp hp
  exact .nil h.reaches

theorem cons {head : Tree c} {tail : Tree (.list c)}
    (h : SoFar setting A s [⟨c, head⟩] 0 b t) (h' : SoFar setting A t [⟨.list c, tail⟩] 0 b' u) :
    SoFar setting A s [⟨.list c, .cons head tail⟩] 0 (b || b') u := by
  have hall := h.trans h'
  refine ⟨hall.fine, hall.reaches, hall.level, hall.began, fun p hp ctx hctx => ?_⟩
  cases List.mem_singleton.mp hp
  exact .cons (h.parts _ List.mem_cons_self ctx hctx) (h'.parts _ List.mem_cons_self ctx hctx)

theorem single {tree : Tree c} (h : SoFar setting A s [⟨c, tree⟩] 0 b t) :
    SoFar setting A s [⟨.list c, .cons tree .nil⟩] 0 b t := by
  simpa using h.cons (start (A := A) h.fine).nil

theorem none (h : SoFar setting B s parts depth b t) :
    SoFar setting A s [⟨.option c, .none⟩] depth b t := by
  refine ⟨h.fine, h.reaches, h.level, h.began, fun p hp ctx _ => ?_⟩
  cases List.mem_singleton.mp hp
  exact .none h.reaches

theorem some {value : Tree c} (h : SoFar setting A s [⟨c, value⟩] depth b t) :
    SoFar setting A s [⟨.option c, .some value⟩] depth b t := by
  refine ⟨h.fine, h.reaches, h.level, h.began, fun p hp ctx hctx => ?_⟩
  cases List.mem_singleton.mp hp
  exact .some (h.parts _ List.mem_cons_self ctx hctx)

theorem value {value : Tree c} (h : SoFar setting A s [⟨.option c, .some value⟩] depth b t) :
    SoFar setting A s [⟨c, value⟩] depth b t := by
  refine ⟨h.fine, h.reaches, h.level, h.began, fun p hp ctx hctx => ?_⟩
  cases List.mem_singleton.mp hp
  cases h.parts _ List.mem_cons_self ctx hctx with
  | some here => exact here
  | node isNode => cases isNode

theorem addNil (h : SoFar setting A s parts depth b t) :
    SoFar setting A s (parts ++ [⟨.list c, .nil⟩]) depth b t := by
  simpa using h.trans (start (A := A) h.fine).nil

theorem addNone (h : SoFar setting A s parts depth b t) :
    SoFar setting A s (parts ++ [⟨.option c, .none⟩]) depth b t := by
  simpa using h.trans (start (A := A) h.fine).none

end SoFar

theorem Fine.soFar {setting : Setting} {s : State} (h : Fine setting.layout s) :
    SoFar setting anywhere s [] 0 false s :=
  .start h

namespace Taken

variable {setting : Setting} {A B : Context → Prop} {s t : State} {c : Category} {tree : Tree c}

theorem of_list {trees : Tree (.list c)} {b : Bool}
    (h : SoFar setting A s [⟨_, trees⟩] 0 b t) : Taken setting A s trees t :=
  ⟨h.idle, fun e he => by cases trees <;> cases he⟩

theorem narrow (h : Taken setting anywhere s tree t) : Taken setting B s tree t :=
  ⟨h.soFar.narrow, h.extent⟩

/-- A tree with an extent takes a token. -/
theorem begun (h : Taken setting anywhere s tree t) {e : Extent} (he : tree.extent? = some e) :
    SoFar setting anywhere s [⟨c, tree⟩] 0 true t := by
  refine h.soFar.begin ?_
  cases h.soFar.parts _ List.mem_cons_self .plain trivial with
  | nil way => cases he
  | cons first rest => cases he
  | none way => cases he
  | some here => cases he
  | node _ before _ after extent _ _ _ =>
    have hlt := (extent e he).2
    have hle := before.index_le
    have hle' := after.index_le
    omega

/-- A node around another that takes its extent. -/
theorem wrap {d : Category} {outer : Tree d} {e : Extent} (h : Taken setting anywhere s tree t)
    (he : tree.extent? = some e) (hnode : d.isNode = true) (hparts : outer.parts = [⟨c, tree⟩])
    (hextent : outer.extent? = tree.extent?) (hsits : outer.Sits s)
    (hfits : ∀ ctx, B ctx → t.IsFresh → outer.Fits ctx) : Taken setting B s outer t :=
  (h.begun he).node hnode hparts (fun e he => h.extent e (hextent ▸ he)) hsits
    fun ctx hctx => ⟨trivial, hfits ctx hctx⟩

theorem sound (h : Taken setting A s tree t) (hs : Fine setting.layout s) {e : Extent}
    (he : tree.extent? = some e) : setting.layout.Sound e := by
  rw [h.extent e he]
  exact State.sound_upTo hs.placed h.soFar.reaches hs.tiled

end Taken

end JavaSyntax
