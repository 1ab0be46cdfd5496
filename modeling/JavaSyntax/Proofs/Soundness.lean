import JavaSyntax.Proofs.Spelling

/-!
A plain expression is read from words that spell it. The contract `spells` says for each
nonterminal, when it gives a plain expression, which words it took; of what is not plain it says
nothing but that. It holds of every rule, and so of every run.
-/

namespace JavaSyntax

open Grammar

/-- From `s` on these words were taken, up to `t`, and nothing was reported. -/
structure State.Over (s : State) (ws : List Word) (t : State) : Prop where
  words : s.words = ws ++ t.words
  budget : t.budget = s.budget

namespace State.Over

variable {s t u : State} {ws us : List Word}

theorem rfl : s.Over [] s := ⟨by simp, by simp⟩

theorem trans (h : s.Over ws t) (h' : t.Over us u) : s.Over (ws ++ us) u :=
  ⟨by rw [h.words, h'.words, List.append_assoc], h'.budget.trans h.budget⟩

theorem proper (h : s.Over ws t) (hs : Proper s.words) : Proper t.words := fun w hw =>
  hs w (by rw [h.words]; exact List.mem_append_right ws hw)

end State.Over

theorem State.over_one {s : State} {w : Word} {rest : List Word} (h : s.words = w :: rest) :
    s.Over [w] (s.advance 1) :=
  ⟨by rw [h, (State.past_one h).words]; rfl, (State.past_one h).budget⟩

theorem State.words_of_next {s : State} {k : Kind} {kinds : List Kind}
    (h : Lookahead.next (k :: kinds) s.ahead = true) :
    ∃ w rest, s.words = w :: rest ∧ w.1 = k := by
  cases hahead : s.ahead with
  | nil =>
    rw [hahead] at h
    cases h
  | cons sym more =>
    rw [hahead] at h
    simp only [Lookahead.next, Bool.and_eq_true, beq_iff_eq] at h
    exact ⟨_, _, State.words_of_ahead hahead, h.1⟩

theorem State.words_of_lookup {s : State} {γ : Type} {table : Kind → Option γ} {found : γ}
    (h : lookup table s.ahead = some found) :
    ∃ w rest, s.words = w :: rest ∧ table w.1 = some found := by
  cases hahead : s.ahead with
  | nil =>
    rw [hahead] at h
    cases h
  | cons sym more =>
    rw [hahead] at h
    exact ⟨_, _, State.words_of_ahead hahead, h⟩

/-- The tree, if it is plain, is spelled by the words between the two states. -/
def SpelledFrom (n : Nat) (s : State) {c : Category} (tree : Tree c) (t : State) : Prop :=
  tree.isPlain = true → Proper s.words → ∃ ws, s.Over ws t ∧ Spelled n tree ws

/-- The tree, if it is plain, was made of one read before and of the words between the two states;
`p` is what the words of that one must meet. -/
def SpelledOn (n : Nat) (p : List Word → Prop) (before : Tree .expr) (s : State)
    (tree : Tree .expr) (t : State) : Prop :=
  tree.isPlain = true → before.isPlain = true ∧ (Proper s.words → ∀ ws, Spelled n before ws →
    p ws → ∃ us, s.Over us t ∧ Spelled n tree (ws ++ us))

/-- No operator of at least the level comes next. -/
def NextBelow (least : Nat) (s : State) : Prop :=
  ∀ op level, lookup binaryOp? s.ahead = some (op, level) → level < least

/-- As `SpelledOn`, for operators of at least a level: the tree read before may have been of any
level that the next operator does not exceed. -/
def SpelledAbove (least : Nat) (before : Tree .expr) (s : State) (tree : Tree .expr) (t : State) :
    Prop :=
  tree.isPlain = true → before.isPlain = true ∧ (Proper s.words → ∀ level ws, least ≤ level →
    level ≤ 11 → Spelled (level + 2) before ws → NextBelow (level + 1) s →
      ∃ us, s.Over us t ∧ Spelled (least + 2) tree (ws ++ us) ∧ NextBelow least t)

/-- What a nonterminal that succeeds says about the words it took. -/
def spelledBy : {β : Type} → Nonterminal β → State → β → State → Prop
  | _, .expr, s, tree, t => SpelledFrom 1 s tree t
  | _, .conditional, s, tree, t => SpelledFrom 2 s tree t
  | _, .binary least, s, tree, t => 1 ≤ least → least ≤ 11 → tree.isPlain = true →
      Proper s.words → ∃ ws, s.Over ws t ∧ Spelled (least + 2) tree ws ∧ NextBelow least t
  | _, .binaryRest least _ left, s, tree, t => SpelledAbove least left s tree t
  | _, .unary, s, tree, t => SpelledFrom 13 s tree t
  | _, .selectors _ target, s, tree, t => SpelledOn 15 (fun _ => True) target s tree t
  | _, .steps _ operand, s, tree, t => SpelledOn 14 (Heads (· != .minus)) operand s tree t
  | _, .exprList, s, args, t => args.isNil = false ∧ SpelledFrom 0 s args t
  | _, .lambda, _, tree, _ => tree.isPlain = false
  -- An empty list is read from two brackets; off a longer word it leaves what is no name.
  | _, .typeArgs, s, args, t => args.isNil = true →
      (∃ l g, l.1 = .less ∧ g.1 = .greater ∧ s.Over [l, g] t) ∨
        Lookahead.next [.identifier] t.ahead = false
  | _, .typeArgList, _, args, _ => args.isNil = false
  | _, _, _, _, _ => True

/-- A result, unless it is a fault. -/
def Returns {α : Type} (P : α → State → Prop) : Except SyntaxError α → State → Prop
  | .ok value, t => P value t
  | .error _, _ => True

def spells : Contract where
  pre _ _ _ := True
  post nonterminal _ s := Returns (spelledBy nonterminal s)

section Blocks

open Rule

variable {setting : Setting} {inLabels : Bool} {α β : Type} {s : State} {k : Kind}
  {P : β → State → Prop}

theorem returns_bind {rule : Rule α} {f : α → Rule β} {R : α → State → Prop}
    (h : rule.Ensures setting spells inLabels s (Returns R))
    (hf : ∀ value t, R value t → (f value).Ensures setting spells inLabels t (Returns P)) :
    (rule >>= f).Ensures setting spells inLabels s (Returns P) := by
  rw [ensures_bind]
  refine h.mono fun r t ht => ?_
  cases r with
  | ok value => exact hf value t ht
  | error error => trivial

/-- Nothing is asked of a rule of which nothing is wanted. -/
theorem ensures_any (rule : Rule α) (s : State) :
    rule.Ensures setting spells inLabels s (Returns fun _ _ => True) := by
  induction rule generalizing s with
  | done value => trivial
  | fail error => trivial
  | look rest ih => exact ih _ s
  | advance n rest ih => exact ih _
  | splitAngle rest ih => exact ih _
  | report error rest ih => exact ih _
  | deprecation doc name rest ih => exact ih _
  | call nonterminal asLabels rest ih => exact ⟨trivial, fun r t _ => ih r t⟩

theorem any_bind {rule : Rule α} {f : α → Rule β}
    (hf : ∀ value t, (f value).Ensures setting spells inLabels t (Returns P)) :
    (rule >>= f).Ensures setting spells inLabels s (Returns P) :=
  returns_bind (ensures_any rule s) fun value t _ => hf value t

theorem call_bind {nonterminal : Nonterminal α} {f : α → Rule β}
    (hf : ∀ value t, spelledBy nonterminal s value t →
      (f value).Ensures setting spells inLabels t (Returns P)) :
    (Grammar.call nonterminal >>= f).Ensures setting spells inLabels s (Returns P) :=
  returns_bind (ensures_call.mpr ⟨trivial, fun _ _ h => h⟩) hf

theorem expect_bind {f : Unit → Rule β}
    (hf : ∀ w, w.1 = k → s.Over [w] (s.advance 1) →
      (f ()).Ensures setting spells inLabels (s.advance 1) (Returns P)) :
    (expect k >>= f).Ensures setting spells inLabels s (Returns P) := by
  rw [ensures_expect_bind]
  split
  · rename_i h
    obtain ⟨w, rest, hwords, hk⟩ := State.words_of_next h
    exact hf w hk (State.over_one hwords)
  · trivial

theorem accept_bind {f : Bool → Rule β}
    (hyes : ∀ w, w.1 = k → s.Over [w] (s.advance 1) →
      (f true).Ensures setting spells inLabels (s.advance 1) (Returns P))
    (hno : (f false).Ensures setting spells inLabels s (Returns P)) :
    (accept k >>= f).Ensures setting spells inLabels s (Returns P) := by
  rw [ensures_accept_bind]
  split
  · rename_i h
    obtain ⟨w, rest, hwords, hk⟩ := State.words_of_next h
    exact hyes w hk (State.over_one hwords)
  · exact hno

end Blocks

section Rules

open Rule

theorem identifier_bind {setting : Setting} {inLabels : Bool} {s : State} {β : Type}
    {f : String → Rule β} {P : β → State → Prop}
    (hf : ∀ w rest, s.words = w :: rest → w.1 = .identifier →
      (f w.2).Ensures setting spells inLabels (s.advance 1) (Returns P)) :
    (identifier >>= f).Ensures setting spells inLabels s (Returns P) := by
  by_cases h : Lookahead.next [.identifier] s.ahead = true
  · obtain ⟨w, rest, hwords, hk⟩ := State.words_of_next h
    exact ensures_identifier_yes hwords hk (hf w rest hwords hk)
  · unfold identifier
    rw [ensures_bind, ensures_view_bind, State.view_ahead, if_neg h]
    trivial

variable {setting : Setting} {inLabels : Bool} {s : State}

theorem Spelled.le {n m : Nat} {tree : Tree .expr} {ws : List Word} (h : Spelled m tree ws)
    (hn : 0 < n) (hle : n ≤ m) (hm : m ≤ 15) : Spelled n tree ws := by
  obtain ⟨d, rfl⟩ := Nat.exists_eq_add_of_le hle
  induction d with
  | zero => exact h
  | succ d ih => exact ih (.lower (by omega) (by omega) h) (by omega) (by omega)

theorem startsLambda_bind {β : Type} {f : Bool → Rule β} {P : β → State → Prop}
    (hf : ∀ found, (f found).Ensures setting spells inLabels s (Returns P)) :
    (startsLambda >>= f).Ensures setting spells inLabels s (Returns P) := by
  unfold startsLambda
  rw [ensures_bind, ensures_view_bind]
  exact hf _

/-- A lambda is not plain. -/
theorem call_lambda {n : Nat} :
    (Grammar.call .lambda).Ensures setting spells inLabels s (Returns (SpelledFrom n s)) := by
  refine ensures_call.mpr ⟨trivial, fun r t h => ?_⟩
  cases r with
  | ok tree =>
    intro hplain
    have hnot : tree.isPlain = false := h
    rw [hnot] at hplain
    cases hplain
  | error error => trivial

theorem expr_spells : expr.Ensures setting spells inLabels s (Returns (SpelledFrom 1 s)) := by
  unfold expr
  refine startsLambda_bind fun found => ?_
  cases found with
  | true => exact call_lambda
  | false =>
    rw [if_neg Bool.false_ne_true, ensures_mark_bind]
    refine call_bind fun target t htarget => ?_
    rw [ensures_ahead_bind]
    split
    · intro hplain hproper
      obtain ⟨ws, hover, hspelled⟩ := htarget hplain hproper
      exact ⟨ws, hover, .lower (by omega) (by omega) hspelled⟩
    · rename_i op hop
      obtain ⟨w, rest, hwords, hw⟩ := State.words_of_lookup hop
      have hone := State.over_one hwords
      rw [ensures_advance_bind]
      refine call_bind fun value u hvalue => ?_
      intro hplain hproper
      obtain ⟨hplain, hplain'⟩ := Bool.and_eq_true_iff.mp hplain
      obtain ⟨ws, hover, hspelled⟩ := htarget hplain hproper
      obtain ⟨us, hover', hspelled'⟩ := hvalue hplain' (hone.proper (hover.proper hproper))
      exact ⟨ws ++ w :: us, hover.trans (hone.trans hover'), .assign hspelled hw hspelled'⟩

theorem conditional_spells :
    conditional.Ensures setting spells inLabels s (Returns (SpelledFrom 2 s)) := by
  unfold conditional
  rw [ensures_mark_bind]
  refine call_bind fun condition t hcondition => ?_
  refine accept_bind (fun question hquestion hone => ?_) ?_
  · refine call_bind fun yes u hyes => ?_
    refine expect_bind fun colon hcolon hone' => ?_
    have hno (no : Tree .expr) (v : State) (h : SpelledFrom 2 (u.advance 1) no v) :
        (since (s.view inLabels).mark >>= fun extent =>
          pure (.conditional condition yes no extent)).Ensures setting spells inLabels v
            (Returns (SpelledFrom 2 s)) := by
      intro hplain hproper
      obtain ⟨hplain, hplain''⟩ := Bool.and_eq_true_iff.mp hplain
      obtain ⟨hplain, hplain'⟩ := Bool.and_eq_true_iff.mp hplain
      obtain ⟨ws, hover, hspelled, _⟩ := hcondition (by omega) (by omega) hplain hproper
      have hproper' := hone.proper (hover.proper hproper)
      obtain ⟨us, hover', hspelled'⟩ := hyes hplain' hproper'
      obtain ⟨vs, hover'', hspelled''⟩ := h hplain'' (hone'.proper (hover'.proper hproper'))
      exact ⟨_, hover.trans (hone.trans (hover'.trans (hone'.trans hover''))),
        .conditional hspelled hquestion hspelled' hcolon hspelled''⟩
    refine startsLambda_bind fun found => ?_
    cases found with
    | true => exact returns_bind call_lambda fun no v h => hno no v h
    | false => exact call_bind fun no v h => hno no v h
  · intro hplain hproper
    obtain ⟨ws, hover, hspelled, _⟩ := hcondition (by omega) (by omega) hplain hproper
    exact ⟨ws, hover, .lower (by omega) (by omega) hspelled⟩

theorem nextBelow_eleven (s : State) : NextBelow 12 s := by
  intro op level hop
  obtain ⟨w, rest, _, hw⟩ := State.words_of_lookup hop
  have hlevel := (binaryOp?_facts hw).2.2.2
  omega

theorem binary_spells (least : Nat) : (binary least).Ensures setting spells inLabels s
    (Returns (spelledBy (.binary least) s)) := by
  unfold binary
  rw [ensures_mark_bind]
  refine call_bind fun left t hleft => ?_
  refine ensures_call.mpr ⟨trivial, fun r u hrest => ?_⟩
  cases r with
  | error error => trivial
  | ok tree =>
    intro hlow hhigh hplain hproper
    obtain ⟨hplain', hgoes⟩ := hrest hplain
    obtain ⟨ws, hover, hspelled⟩ := hleft hplain' hproper
    obtain ⟨us, hover', hspelled', hbelow⟩ :=
      hgoes (hover.proper hproper) 11 ws hhigh (by omega) hspelled (nextBelow_eleven t)
    exact ⟨ws ++ us, hover.trans hover', hspelled', hbelow⟩

theorem spelledAbove_self {least : Nat} {left : Tree .expr} (hbelow : NextBelow least s) :
    SpelledAbove least left s left s := by
  intro hplain
  refine ⟨hplain, fun hproper level ws hle hhigh hspelled _ => ?_⟩
  refine ⟨[], .rfl, ?_, hbelow⟩
  rw [List.append_nil]
  exact hspelled.le (by omega) (by omega) (by omega)

/-- The loop over operators. What follows the right operand is of a lower level than that, so the
tree made of both may be the left operand of what comes next. -/
theorem binaryRest_spells (least : Nat) (start : Mark) (left : Tree .expr) :
    (binaryRest least start left).Ensures setting spells inLabels s
      (Returns (SpelledAbove least left s)) := by
  unfold binaryRest
  rw [ensures_ahead_bind]
  split
  · rename_i hnext
    obtain ⟨w, rest, hwords, hw⟩ := State.words_of_next hnext
    split
    · refine spelledAbove_self fun op level hop => ?_
      rw [State.lookup_words _ hwords, hw] at hop
      cases hop
    · have hrest (type : Tree .type) (binding : Option String) (extent : Extent) (t : State) :
          (Grammar.call (.binaryRest least start (.instanceOf left type binding extent))).Ensures
            setting spells inLabels t (Returns (SpelledAbove least left s)) := by
        refine ensures_call.mpr ⟨trivial, fun r u hcall => ?_⟩
        cases r with
        | error error => trivial
        | ok tree =>
          intro hplain
          have hnot := (hcall hplain).1
          cases hnot
      refine any_bind fun _ t => any_bind fun _ t => any_bind fun type t =>
        any_bind fun found t => ?_
      cases found with
      | true => exact any_bind fun binding t => hrest _ _ _ _
      | false => exact hrest _ _ _ _
  · split
    · rename_i hnone
      exact spelledAbove_self fun op level hop => by rw [hnone] at hop; cases hop
    · rename_i op level hop
      split
      · rename_i hlt
        refine spelledAbove_self fun op' level' hop' => ?_
        rw [hop] at hop'
        cases hop'
        exact hlt
      · rename_i hge
        obtain ⟨w, rest, hwords, hw⟩ := State.words_of_lookup hop
        obtain ⟨_, _, hlow, hhigh⟩ := binaryOp?_facts hw
        have hone := State.over_one hwords
        rw [ensures_advance_bind]
        refine call_bind fun right t hright => ?_
        refine ensures_call.mpr ⟨trivial, fun r u hcall => ?_⟩
        cases r with
        | error error => trivial
        | ok tree =>
          intro hplain
          obtain ⟨hplain', hgoes⟩ := hcall hplain
          obtain ⟨hleft, hright'⟩ := Bool.and_eq_true_iff.mp hplain'
          refine ⟨hleft, fun hproper k ws hle hk hspelled hnext => ?_⟩
          have hlevel : level < k + 1 := hnext op level hop
          obtain ⟨us, hover, hspelled', hbelow⟩ :=
            hright (by omega) (by omega) hright' (hone.proper hproper)
          have hproper' := hover.proper (hone.proper hproper)
          have hspelled := hspelled.le (show 0 < level + 2 by omega) (by omega) (by omega)
          obtain ⟨vs, hover', hspelled'', hbelow'⟩ := hgoes hproper' level (ws ++ w :: us)
            (by omega) (by omega) (.binary hw hspelled hspelled') hbelow
          refine ⟨w :: us ++ vs, (hone.trans hover).trans hover', ?_, hbelow'⟩
          rwa [← List.append_assoc]

theorem exprList_spells : exprList.Ensures setting spells inLabels s
    (Returns (spelledBy .exprList s)) := by
  unfold exprList
  refine call_bind fun first t hfirst => ?_
  refine accept_bind (fun comma hcomma hone => ?_) ?_
  · refine call_bind fun rest u hrest => ?_
    refine ⟨rfl, fun hplain hproper => ?_⟩
    obtain ⟨hplain, hplain'⟩ := Bool.and_eq_true_iff.mp hplain
    obtain ⟨ws, hover, hspelled⟩ := hfirst hplain hproper
    obtain ⟨hcons, hrest⟩ := hrest
    obtain ⟨us, hover', hspelled'⟩ := hrest hplain' (hone.proper (hover.proper hproper))
    refine ⟨ws ++ comma :: us, hover.trans (hone.trans hover'), ?_⟩
    cases rest with
    | nil => cases hcons
    | cons next others => exact .more hspelled hcomma hspelled'
  · refine ⟨rfl, fun hplain hproper => ?_⟩
    obtain ⟨hplain, _⟩ := Bool.and_eq_true_iff.mp hplain
    obtain ⟨ws, hover, hspelled⟩ := hfirst hplain hproper
    exact ⟨ws, hover, .one hspelled⟩

/-- Arguments in their parentheses. -/
theorem arguments_spells : arguments.Ensures setting spells inLabels s
    (Returns fun args t => args.isPlain = true → Proper s.words →
      ∃ l ws r, l.1 = .lparen ∧ r.1 = .rparen ∧ s.Over (l :: (ws ++ [r])) t ∧
        Spelled 0 args ws) := by
  unfold arguments
  refine expect_bind fun l hl hone => ?_
  rw [ensures_check_bind]
  cases Lookahead.next [.rparen] (s.advance 1).ahead with
  | true =>
    refine expect_bind fun r hr hone' => ?_
    exact fun _ _ => ⟨l, [], r, hl, hr, hone.trans hone', .nil⟩
  | false =>
    refine call_bind fun args t hargs => expect_bind fun r hr hone' => ?_
    intro hplain hproper
    obtain ⟨ws, hover, hspelled⟩ := hargs.2 hplain (hone.proper hproper)
    exact ⟨l, ws, r, hl, hr, hone.trans (hover.trans hone'), hspelled⟩

theorem literal_spells {negatedFrom : Option Mark} :
    (literal negatedFrom).Ensures setting spells inLabels s (Returns fun tree t =>
      tree.isPlain = true → ∃ w value extent, tree = .literal value extent ∧ s.Over [w] t ∧
        w.value? negatedFrom.isSome = some (.ok value)) := by
  unfold literal
  rw [ensures_view_bind, State.view_ahead]
  split
  · trivial
  · rename_i result hresult
    obtain ⟨sym, hsym, hvalue⟩ := Option.bind_eq_some_iff.mp hresult
    obtain ⟨more, hahead⟩ := List.head?_eq_some_iff.mp hsym
    rw [ensures_advance_bind]
    cases result with
    | ok value =>
      exact fun _ => ⟨sym.word, value, _, rfl, State.over_one (State.words_of_ahead hahead), hvalue⟩
    | error error =>
      intro hplain
      cases hplain

theorem State.words_of_kind {k : Kind} (h : s.ahead.head?.map Symbol.kind = some k) :
    ∃ w rest, s.words = w :: rest ∧ w.1 = k := by
  cases hahead : s.ahead with
  | nil =>
    rw [hahead] at h
    cases h
  | cons sym more =>
    rw [hahead] at h
    exact ⟨_, _, State.words_of_ahead hahead, Option.some.inj h⟩

/-- A primary, if it is plain, and the words it was read from, of which the first is no sign. -/
def PrimaryFrom (s : State) (tree : Tree .expr) (t : State) : Prop :=
  tree.isPlain = true → Proper s.words →
    ∃ ws, s.Over ws t ∧ Spelled 15 tree ws ∧ Heads (· != .minus) ws

theorem primaryFrom_of_not {tree : Tree .expr} {t : State} (h : tree.isPlain = false) :
    PrimaryFrom s tree t := fun hplain => by
  rw [h] at hplain
  cases hplain

theorem nameOrCall_spells {start : Mark} {w : Word} {rest : List Word} (h : s.words = w :: rest)
    (hname : isName w.1 = true) :
    (nameOrCall start).Ensures setting spells inLabels s (Returns (PrimaryFrom s)) := by
  have hone := State.over_one h
  have hsign (ws : List Word) : Heads (· != .minus) (w :: ws) := by
    rintro _ ⟨⟩
    simp only [isName, Bool.or_eq_true, beq_iff_eq] at hname
    rcases hname with (hk | hk) | hk <;> rw [hk] <;> rfl
  unfold nameOrCall
  refine ensures_takeText h ?_
  rw [ensures_check_bind]
  split
  · refine returns_bind arguments_spells fun args t hargs => ?_
    intro hplain hproper
    have hplain' : args.isPlain = true := hplain
    obtain ⟨l, ws, r, hl, hr, hover, hspelled⟩ := hargs hplain' (hone.proper hproper)
    exact ⟨_, hone.trans hover, .call hname hl hr hspelled, hsign _⟩
  · exact fun _ _ => ⟨[w], hone, .ident hname, hsign []⟩

theorem newArray_notPlain (start : Mark) (type : Tree .type) :
    (newArray start type).Ensures setting spells inLabels s
      (Returns fun tree _ => tree.isPlain = false) := by
  cases type with
  | type outer name args diamond annotations read extent =>
    unfold newArray
    refine any_bind fun sizes t => ?_
    split
    · refine any_bind fun n t => any_bind fun _ t => any_bind fun init t => ?_
      split
      · trivial
      · exact rfl
    · refine any_bind fun n t => any_bind fun _ t => any_bind fun init t => ?_
      split
      · trivial
      · exact rfl

theorem creation_notPlain (start : Mark) (outer : Tree (.option .expr)) :
    (creation start outer).Ensures setting spells inLabels s
      (Returns fun tree _ => tree.isPlain = false) := by
  unfold creation
  refine any_bind fun _ t => any_bind fun _ t => any_bind fun _ t => any_bind fun type t =>
    any_bind fun found t => ?_
  split
  · exact newArray_notPlain start type
  · refine any_bind fun args t => any_bind fun _ t => any_bind fun body t => ?_
    exact rfl

theorem primitiveExpr_notPlain : primitiveExpr.Ensures setting spells inLabels s
    (Returns fun tree _ => tree.isPlain = false) := by
  unfold primitiveExpr
  refine any_bind fun type t => ?_
  rw [ensures_view_bind]
  split
  · exact rfl
  · trivial

theorem primary_spells :
    primary.Ensures setting spells inLabels s (Returns (PrimaryFrom s)) := by
  have hnot {rule : Rule (Tree .expr)} (h : rule.Ensures setting spells inLabels s
      (Returns fun tree _ => tree.isPlain = false)) :
      rule.Ensures setting spells inLabels s (Returns (PrimaryFrom s)) :=
    h.mono fun r t ht => by
      cases r with
      | ok tree => exact primaryFrom_of_not ht
      | error error => trivial
  unfold primary
  rw [ensures_view_bind, State.view_ahead]
  split
  · rename_i hkind
    obtain ⟨w, rest, hwords, hw⟩ := State.words_of_kind hkind
    exact nameOrCall_spells hwords (by rw [hw]; rfl)
  · rename_i hkind
    obtain ⟨w, rest, hwords, hw⟩ := State.words_of_kind hkind
    exact nameOrCall_spells hwords (by rw [hw]; rfl)
  · rename_i hkind
    obtain ⟨l, rest, hwords, hl⟩ := State.words_of_kind hkind
    have hone := State.over_one hwords
    rw [ensures_advance_bind]
    refine call_bind fun inner t hinner => expect_bind fun r hr hone' => ?_
    intro hplain hproper
    obtain ⟨ws, hover, hspelled⟩ := hinner hplain (hone.proper hproper)
    refine ⟨_, hone.trans (hover.trans hone'), .paren hl hr hspelled, ?_⟩
    rintro _ ⟨⟩
    rw [hl]
    rfl
  · exact hnot (creation_notPlain _ _)
  · refine hnot (any_bind fun _ t => any_bind fun both t => ?_)
    exact rfl
  · rename_i hkind
    obtain ⟨w, rest, hwords, hw⟩ := State.words_of_kind hkind
    split
    · exact hnot (any_bind fun type t => rfl)
    · exact nameOrCall_spells hwords (by rw [hw]; rfl)
  · split
    · refine literal_spells.mono fun r t ht => ?_
      cases r with
      | error error => trivial
      | ok tree =>
        intro hplain hproper
        obtain ⟨w, value, extent, rfl, hover, hvalue⟩ := ht hplain
        refine ⟨[w], hover, .literal hvalue rfl, ?_⟩
        rintro _ ⟨⟩
        simp only [bne_iff_ne]
        rintro hminus
        have hlead := (value?_facts hvalue).2.2.1
        rw [hminus] at hlead
        cases hlead
    · split
      · exact hnot primitiveExpr_notPlain
      · trivial
  · trivial

/-- What follows a dot behind a target. -/
def MemberOf (target : Tree .expr) (s : State) (tree : Tree .expr) (t : State) : Prop :=
  tree.isPlain = true → target.isPlain = true ∧ (Proper s.words → ∀ ws dot, Spelled 15 target ws →
    dot.1 = .dot → ∃ us, s.Over us t ∧ Spelled 15 tree (ws ++ dot :: us))

theorem memberOf_of_not {target tree : Tree .expr} {t : State} (h : tree.isPlain = false) :
    MemberOf target s tree t := fun hplain => by
  rw [h] at hplain
  cases hplain

theorem State.words_of_nextOneOf {ks : List Kind}
    (h : Lookahead.nextOneOf ks s.ahead = true) :
    ∃ w rest, s.words = w :: rest ∧ ks.contains w.1 = true := by
  cases hahead : s.ahead with
  | nil =>
    rw [hahead] at h
    cases h
  | cons sym more =>
    rw [hahead] at h
    exact ⟨_, _, State.words_of_ahead hahead, h⟩

theorem typeArgList_spells : typeArgList.Ensures setting spells inLabels s
    (Returns (spelledBy .typeArgList s)) := by
  unfold typeArgList
  exact any_bind fun first t => any_bind fun found t => any_bind fun rest t => rfl

theorem closeAngle_spells : closeAngle.Ensures setting spells inLabels s
    (Returns fun _ t => (∃ g, g.1 = .greater ∧ s.Over [g] t) ∨
      Lookahead.next [.identifier] t.ahead = false) := by
  unfold closeAngle
  rw [ensures_view_bind, State.view_ahead]
  split
  · rename_i hnext
    obtain ⟨g, rest, hwords, hg⟩ := State.words_of_next hnext
    exact .inl ⟨g, hg, State.over_one hwords⟩
  · split
    · rename_i hnext
      right
      cases hahead : s.ahead with
      | nil =>
        rw [hahead] at hnext
        cases hnext
      | cons sym more =>
        rw [hahead] at hnext
        simp only [State.splitAngle, hahead]
        have hkind : sym.kind = .shr ∨ sym.kind = .ushr ∨ sym.kind = .greaterEqual ∨
            sym.kind = .shrAssign ∨ sym.kind = .ushrAssign := by
          simpa [Lookahead.nextOneOf] using hnext
        rcases hkind with hk | hk | hk | hk | hk <;> rw [hk] <;> rfl
    · trivial

theorem typeArgs_spells : typeArgs.Ensures setting spells inLabels s
    (Returns (spelledBy .typeArgs s)) := by
  unfold typeArgs
  refine expect_bind fun l hl hone => ?_
  rw [ensures_ahead_bind]
  cases closesAngle (s.advance 1).ahead with
  | true =>
    rw [Bool.not_true, listIf_false, ensures_pure_bind]
    refine returns_bind closeAngle_spells fun _ t ht => ?_
    intro _
    rcases ht with ⟨g, hg, hone'⟩ | hname
    · exact .inl ⟨l, g, hl, hg, hone.trans hone'⟩
    · exact .inr hname
  | false =>
    refine call_bind fun args t hargs => any_bind fun _ u => ?_
    intro hnil
    have hcons : args.isNil = false := hargs
    rw [hcons] at hnil
    cases hnil

/-- A name, with arguments or without, behind a dot and type arguments that say nothing. -/
theorem memberName_spells {gs : List Word} {w : Word} {rest : List Word} {u : State} {start : Mark}
    {target : Tree .expr} (h : u.words = w :: rest) (hover : s.Over gs u)
    (hbare : NoTypeArgs gs w.1) (hname : isName w.1 = true) (hthis : w.1 ≠ .thisKw) :
    (do
      if ← check .lparen then
        let args ← arguments
        return .call (.some target) .nil w.2 args (← since start)
      else return .select target w.2 (← since start) :
      Rule (Tree .expr)).Ensures setting spells inLabels (u.advance 1)
        (Returns (MemberOf target s)) := by
  have hone := State.over_one h
  rw [ensures_check_bind]
  split
  · refine returns_bind arguments_spells fun args t hargs => ?_
    intro hplain
    obtain ⟨hplain, hplain'⟩ := Bool.and_eq_true_iff.mp hplain
    obtain ⟨hplain, _⟩ := Bool.and_eq_true_iff.mp hplain
    refine ⟨hplain, fun hproper ws dot hspelled hdot => ?_⟩
    obtain ⟨l, us, r, hl, hr, hover', hspelled'⟩ :=
      hargs hplain' (hone.proper (hover.proper hproper))
    refine ⟨gs ++ w :: l :: (us ++ [r]), hover.trans (hone.trans hover'), ?_⟩
    exact .callOn hspelled hdot hbare hname hthis hl hr hspelled'
  · intro hplain
    obtain ⟨hplain, _⟩ := Bool.and_eq_true_iff.mp hplain
    refine ⟨hplain, fun _ ws dot hspelled hdot => ?_⟩
    exact ⟨gs ++ [w], hover.trans hone, .select hspelled hdot hbare hname⟩

theorem memberSelector_spells (start : Mark) (target : Tree .expr) :
    (memberSelector start target).Ensures setting spells inLabels s
      (Returns (MemberOf target s)) := by
  unfold memberSelector
  rw [ensures_ahead_bind]
  split
  · rename_i hnext
    obtain ⟨w, rest, hwords, hw⟩ := State.words_of_nextOneOf hnext
    refine ensures_takeText hwords ?_
    intro hplain
    obtain ⟨hplain, hclass⟩ := Bool.and_eq_true_iff.mp hplain
    refine ⟨hplain, fun hproper ws dot hspelled hdot => ?_⟩
    have hk : w.1 = .classKw ∨ w.1 = .thisKw := by simpa using hw
    rcases hk with hk | hk
    · have htext : w.2 = "class" :=
        (hproper w (by rw [hwords]; exact List.mem_cons_self)).class_text hk
      simp [htext] at hclass
    · exact ⟨[w], State.over_one hwords, .select hspelled hdot (.inl rfl) (by rw [hk]; rfl)⟩
  · split
    · rename_i hnext
      obtain ⟨w, rest, hwords, hw⟩ := State.words_of_next hnext
      refine ensures_takeText hwords ?_
      exact memberName_spells hwords .rfl (.inl rfl) (by rw [hw]; rfl) (by simp [hw])
    · split
      · refine (creation_notPlain _ _).mono fun r t ht => ?_
        cases r with
        | ok tree => exact memberOf_of_not ht
        | error error => trivial
      · cases Lookahead.next [.less] s.ahead with
        | false =>
          rw [listIf_false, ensures_pure_bind]
          refine identifier_bind fun w rest hwords hk => ?_
          exact memberName_spells hwords .rfl (.inl rfl) (by rw [hk]; rfl) (by simp [hk])
        | true =>
          refine call_bind fun typeArgs t hargs => identifier_bind fun w rest hwords hk => ?_
          cases typeArgs with
          | nil =>
            rcases hargs rfl with ⟨l, g, hl, hg, hover⟩ | hnone
            · exact memberName_spells hwords hover (.inr ⟨hk, l, g, rfl, hl, hg⟩) (by rw [hk]; rfl)
                (by simp [hk])
            · rw [State.next_eq_true hwords hk] at hnone
              cases hnone
          | cons first others =>
            refine any_bind fun found u => any_bind fun args v => ?_
            intro hplain
            obtain ⟨hplain, _⟩ := Bool.and_eq_true_iff.mp hplain
            cases (Bool.and_eq_true_iff.mp hplain).2

theorem referenceSelector_notPlain (start : Mark) (target : Tree .expr) :
    (referenceSelector start target).Ensures setting spells inLabels s
      (Returns fun tree _ => tree.isPlain = false) := by
  unfold referenceSelector
  refine any_bind fun _ t => any_bind fun typeArgs t => any_bind fun found t => ?_
  split
  · exact any_bind fun name t => rfl
  · exact any_bind fun name t => rfl

theorem selectors_spells (start : Mark) (target : Tree .expr) :
    (selectors start target).Ensures setting spells inLabels s
      (Returns (spelledBy (.selectors start target) s)) := by
  unfold selectors
  refine accept_bind (fun dot hdot hone => ?_) ?_
  · refine returns_bind (memberSelector_spells start target) fun next t hnext => ?_
    refine ensures_call.mpr ⟨trivial, fun r u hrest => ?_⟩
    cases r with
    | error error => trivial
    | ok tree =>
      intro hplain
      obtain ⟨hplain, hgoes⟩ := hrest hplain
      obtain ⟨hplain, hmember⟩ := hnext hplain
      refine ⟨hplain, fun hproper ws hspelled _ => ?_⟩
      obtain ⟨us, hover, hspelled⟩ := hmember (hone.proper hproper) ws dot hspelled hdot
      obtain ⟨vs, hover', hspelled⟩ :=
        hgoes (hover.proper (hone.proper hproper)) _ hspelled trivial
      refine ⟨dot :: us ++ vs, (hone.trans hover).trans hover', ?_⟩
      rwa [← List.append_assoc]
  · refine accept_bind (fun l hl hone => ?_) ?_
    · refine call_bind fun index t hindex => expect_bind fun r hr hone' => ?_
      refine ensures_call.mpr ⟨trivial, fun result u hrest => ?_⟩
      cases result with
      | error error => trivial
      | ok tree =>
        intro hplain
        obtain ⟨hplain, hgoes⟩ := hrest hplain
        obtain ⟨hplain, hplain'⟩ := Bool.and_eq_true_iff.mp hplain
        refine ⟨hplain, fun hproper ws hspelled _ => ?_⟩
        obtain ⟨us, hover, hspelled'⟩ := hindex hplain' (hone.proper hproper)
        have hproper' := hone'.proper (hover.proper (hone.proper hproper))
        obtain ⟨vs, hover', hspelled⟩ :=
          hgoes hproper' (ws ++ l :: (us ++ [r])) (.index hspelled hl hr hspelled') trivial
        refine ⟨l :: (us ++ [r]) ++ vs, (hone.trans (hover.trans hone')).trans hover', ?_⟩
        rwa [← List.append_assoc]
    · refine accept_bind (fun w _ _ => ?_) ?_
      · refine returns_bind (referenceSelector_notPlain start target) fun next t hnot => ?_
        refine ensures_call.mpr ⟨trivial, fun r u hrest => ?_⟩
        cases r with
        | error error => trivial
        | ok tree =>
          intro hplain
          have hnext := (hrest hplain).1
          rw [hnot] at hnext
          cases hnext
      · intro hplain
        refine ⟨hplain, fun _ ws hspelled _ => ⟨[], .rfl, ?_⟩⟩
        rwa [List.append_nil]

theorem steps_spells (start : Mark) (operand : Tree .expr) :
    (steps start operand).Ensures setting spells inLabels s
      (Returns (spelledBy (.steps start operand) s)) := by
  unfold steps
  rw [ensures_ahead_bind]
  split
  · intro hplain
    refine ⟨hplain, fun _ ws hspelled _ => ⟨[], .rfl, ?_⟩⟩
    rwa [List.append_nil]
  · rename_i op hop
    obtain ⟨w, rest, hwords, hw⟩ := State.words_of_lookup hop
    have hone := State.over_one hwords
    rw [ensures_advance_bind]
    refine ensures_call.mpr ⟨trivial, fun r u hrest => ?_⟩
    cases r with
    | error error => trivial
    | ok tree =>
      intro hplain
      obtain ⟨hplain, hgoes⟩ := hrest hplain
      refine ⟨hplain, fun hproper ws hspelled hsign => ?_⟩
      have hsign' : Heads (· != .minus) (ws ++ [w]) := by
        obtain ⟨x, xs, rfl⟩ := List.exists_cons_of_ne_nil (hspelled.ne_nil (by omega))
        exact hsign
      obtain ⟨us, hover, hspelled⟩ :=
        hgoes (hone.proper hproper) (ws ++ [w]) (.trailing hspelled hsign hw) hsign'
      refine ⟨w :: us, hone.trans hover, ?_⟩
      rwa [List.append_assoc] at hspelled

theorem trailing_spells : trailing.Ensures setting spells inLabels s
    (Returns (SpelledFrom 13 s)) := by
  unfold trailing
  rw [ensures_mark_bind]
  refine returns_bind primary_spells fun first t hfirst => call_bind fun selected u hselected => ?_
  refine ensures_call.mpr ⟨trivial, fun r v hrest => ?_⟩
  cases r with
  | error error => trivial
  | ok tree =>
    intro hplain hproper
    obtain ⟨hplain, hsteps⟩ := hrest hplain
    obtain ⟨hplain, hselectors⟩ := hselected hplain
    obtain ⟨ws, hover, hspelled, hsign⟩ := hfirst hplain hproper
    have hproper := hover.proper hproper
    obtain ⟨us, hover', hspelled'⟩ := hselectors hproper ws hspelled trivial
    have hsign' : Heads (· != .minus) (ws ++ us) := by
      obtain ⟨x, xs, rfl⟩ := List.exists_cons_of_ne_nil (hspelled.ne_nil (by omega))
      exact hsign
    obtain ⟨vs, hover'', hspelled''⟩ := hsteps (hover'.proper hproper) (ws ++ us)
      (.lower (by omega) (by omega) hspelled') hsign'
    exact ⟨_, (hover.trans hover').trans hover'', .lower (by omega) (by omega) hspelled''⟩

theorem cast_notPlain : cast.Ensures setting spells inLabels s
    (Returns fun tree _ => tree.isPlain = false) := by
  unfold Grammar.cast
  refine any_bind fun _ t => any_bind fun _ t => any_bind fun type t => any_bind fun bounds t =>
    any_bind fun _ t => any_bind fun found t => ?_
  split
  · exact any_bind fun operand t => rfl
  · exact any_bind fun operand t => rfl

theorem lambda_notPlain : lambda.Ensures setting spells inLabels s
    (Returns fun tree _ => tree.isPlain = false) := by
  unfold lambda
  refine any_bind fun _ t => any_bind fun params t => any_bind fun _ t => any_bind fun found t => ?_
  split
  · exact any_bind fun body t => rfl
  · exact any_bind fun body t => rfl

theorem leadingOp?_eq_minus {k : Kind} (h : leadingOp? k = some .minus) : k = .minus := by
  unfold leadingOp? at h
  split at h <;> first | rfl | cases h

theorem unary_spells : unary.Ensures setting spells inLabels s (Returns (SpelledFrom 13 s)) := by
  unfold unary
  rw [ensures_view_bind, State.view_ahead]
  split
  · rename_i op hop
    obtain ⟨w, rest, hwords, hw⟩ := State.words_of_lookup hop
    have hone := State.over_one hwords
    rw [ensures_advance_bind, ensures_ahead_bind]
    split
    · rename_i hfolded
      obtain ⟨rfl, hnumber⟩ := hfolded
      refine returns_bind literal_spells fun number t hliteral => ?_
      refine ensures_call.mpr ⟨trivial, fun r u hrest => ?_⟩
      cases r with
      | error error => trivial
      | ok tree =>
        intro hplain hproper
        obtain ⟨hplain, hgoes⟩ := hrest hplain
        obtain ⟨x, value, extent, rfl, hover, hvalue⟩ := hliteral hplain
        have hsign : w.1 = .minus := leadingOp?_eq_minus hw
        have hx : isNumber x.1 = true := by
          rw [State.nextOneOf_eq hover.words] at hnumber
          simpa [isNumber] using hnumber
        obtain ⟨us, hover', hspelled⟩ := hgoes (hover.proper (hone.proper hproper)) [w, x]
          (.negative hsign hx hvalue rfl) trivial
        exact ⟨_, (hone.trans hover).trans hover', hspelled.le (by omega) (by omega) (by omega)⟩
    · rename_i hfold
      refine call_bind fun operand t hoperand => ?_
      intro hplain hproper
      obtain ⟨ws, hover, hspelled⟩ := hoperand hplain (hone.proper hproper)
      refine ⟨w :: ws, hone.trans hover, .leading hw (fun hminus => ?_) hspelled⟩
      obtain ⟨x, xs, rfl⟩ := List.exists_cons_of_ne_nil (hspelled.ne_nil (by omega))
      rintro _ ⟨⟩
      have hnot := fun hnext => hfold ⟨hminus, hnext⟩
      rw [State.nextOneOf_eq hover.words] at hnot
      simpa [isNumber] using hnot
  · split
    · refine cast_notPlain.mono fun r t ht => ?_
      cases r with
      | error error => trivial
      | ok tree =>
        intro hplain
        rw [ht] at hplain
        cases hplain
    · exact trailing_spells

/-- Each rule keeps to the contract. -/
theorem rule_spells {β : Type} (nonterminal : Nonterminal β) :
    (rule nonterminal).Ensures setting spells inLabels s (Returns (spelledBy nonterminal s)) := by
  cases nonterminal with
  | expr => exact expr_spells
  | conditional => exact conditional_spells
  | binary least => exact binary_spells least
  | binaryRest least start left => exact binaryRest_spells least start left
  | unary => exact unary_spells
  | selectors start target => exact selectors_spells start target
  | steps start operand => exact steps_spells start operand
  | exprList => exact exprList_spells
  | lambda => exact lambda_notPlain
  | typeArgs => exact typeArgs_spells
  | typeArgList => exact typeArgList_spells
  | _ => exact ensures_any _ s

end Rules

/-- Whatever the fuel, a plain expression comes from words that spell it. -/
theorem run_spells (setting : Setting) (fuel : Nat) :
    Caller.Respects (run setting fuel) spells :=
  run_respects (fun nonterminal _ _ _ => rule_spells nonterminal) fuel

end JavaSyntax
