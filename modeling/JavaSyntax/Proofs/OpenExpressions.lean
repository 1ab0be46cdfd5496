import JavaSyntax.Proofs.OpenTypes

/-!
What an expression opens: nothing, if what follows it may follow a name. Each rule hands this on to
its last part, and the symbol in front of a part is one that opens nothing itself.
-/

namespace JavaSyntax

open Grammar Rule
open Lookahead (next nextOneOf nextWord)
open Leading

section Rules

variable {setting : Setting} {inLabels : Bool} {s : State}

theorem inner_of_lookup {α : Type} {table : Kind → Option α} {value : α} {ts : List Symbol}
    (htable : ∀ k, (table k).isSome = true → isInner k = true) (h : lookup table ts = some value) :
    ∃ x rest, ts = x :: rest ∧ isInner x.kind = true := by
  cases ts with
  | nil => cases h
  | cons x rest =>
    refine ⟨x, rest, rfl, htable x.kind ?_⟩
    have hx : table x.kind = some value := h
    rw [hx]
    rfl

theorem isInner_assignOp (k : Kind) (h : (assignOp? k).isSome = true) : isInner k = true := by
  cases k <;> first | rfl | cases h

theorem isInner_binaryOp (k : Kind) (h : (binaryOp? k).isSome = true) : isInner k = true := by
  cases k <;> first | rfl | cases h

theorem isInner_leadingOp (k : Kind) (h : (leadingOp? k).isSome = true) : isInner k = true := by
  cases k <;> first | rfl | cases h

theorem isInner_trailingOp (k : Kind) (h : (trailingOp? k).isSome = true) :
    isInner k = true := by
  cases k <;> first | rfl | cases h

theorem expr_opens : expr.Ensures setting (opens setting) inLabels s
    (Cleanly (Nonterminal.expr.Opens setting s)) := by
  unfold expr
  rw [ensures_startsLambda_bind]
  split
  · apply Cleanly.call
    intro tree t _ hlambda _
    exact hlambda
  · rw [ensures_mark_bind]
    apply Cleanly.call_bind
    intro target m _ htarget _
    rw [ensures_ahead_bind]
    split
    · exact fun _ => htarget
    · rename_i op hop
      obtain ⟨x, rest, hahead, hx⟩ := inner_of_lookup isInner_assignOp hop
      have hrest : (m.advance 1).ahead = rest := by simp [hahead]
      rw [ensures_advance_bind]
      apply Cleanly.call_bind
      intro value t _ hvalue _ _ ht
      apply htarget
      rw [hahead, ← hrest]
      exact (lone_of_opening (hvalue ht)).mayFollow hx

theorem conditional_opens : conditional.Ensures setting (opens setting) inLabels s
    (Cleanly (Nonterminal.conditional.Opens setting s)) := by
  unfold conditional
  rw [ensures_mark_bind]
  apply Cleanly.call_bind
  intro condition m _ hcondition _
  apply Cleanly.accept_bind
  · intro x rest hahead hx
    have hrest : (m.advance 1).ahead = rest := by simp [hahead]
    rw [if_pos rfl]
    apply Cleanly.call_bind
    intro yes u _ hyes _
    apply Cleanly.expect_bind
    intro y more hu hy
    have hmore : (u.advance 1).ahead = more := by simp [hu]
    have hno (no : Tree .expr) (t : State)
        (h : MayFollow t.ahead → opening (u.advance 1).ahead = none) :
        (since (s.view inLabels).mark >>= fun e =>
          pure (Tree.conditional condition yes no e)).Ensures setting (opens setting) inLabels t
            (Cleanly (Nonterminal.conditional.Opens setting s)) := by
      intro _ ht
      apply hcondition
      rw [hahead, ← hrest]
      refine (lone_of_opening (hyes ?_)).mayFollow (by rw [hx]; rfl)
      rw [hu, ← hmore]
      exact (lone_of_opening (h ht)).mayFollow (by rw [hy]; rfl)
    rw [ensures_startsLambda_bind]
    split
    · apply Cleanly.call_bind
      intro no t _ hlambda _
      exact hno no t hlambda
    · apply Cleanly.call_bind
      intro no t _ hrest _
      exact hno no t hrest
  · intro _ _
    exact hcondition

theorem binary_opens (least : Nat) : (binary least).Ensures setting (opens setting) inLabels s
    (Cleanly ((Nonterminal.binary least).Opens setting s)) := by
  unfold binary
  rw [ensures_mark_bind]
  apply Cleanly.call_bind
  intro left m _ hleft _
  apply Cleanly.call
  intro tree t _ hrest _ ht
  exact hleft (hrest ht)

theorem binaryRest_opens (least : Nat) (start : Mark) (left : Tree .expr) :
    (binaryRest least start left).Ensures setting (opens setting) inLabels s
      (Cleanly ((Nonterminal.binaryRest least start left).Opens setting s)) := by
  unfold binaryRest
  rw [ensures_ahead_bind]
  split
  · rename_i hnext
    obtain ⟨x, rest, hahead, hx⟩ := SoFar.ahead_of_next hnext
    have hrest : (s.advance 1).ahead = rest := by simp [hahead]
    have hends (hlone : Lone rest) : MayFollow s.ahead := by
      rw [hahead]
      exact hlone.mayFollow (by rw [hx]; rfl)
    split
    · exact fun _ ht => ht
    · rw [ensures_advance_bind]
      apply Cleanly.accept_bind
      · intro y more hy hyk
        apply Cleanly.of_forall
        intro _ _ _
        rw [hrest] at hy
        exact hends (lone_of_next (k := .finalKw) (by simp [hy, next, hyk]) (by decide))
      · intro _
        apply Cleanly.call_bind
        intro type u _ htype _
        have hlone (h : opening u.ahead = none) : MayFollow s.ahead := by
          rw [← hrest] at hends
          exact hends (htype.1 h)
        have hagain (binding : Option String) (v : State)
            (hv : MayFollow v.ahead → opening u.ahead = none) :
            (since start >>= fun e => call (.binaryRest least start
              (.instanceOf left type binding e))).Ensures setting (opens setting) inLabels v
                (Cleanly ((Nonterminal.binaryRest least start left).Opens setting s)) := by
          rw [ensures_since_bind]
          apply Cleanly.call
          intro tree t _ hagain _ ht
          exact hlone (hv (hagain ht))
        rw [ensures_check_bind]
        cases hname : next [.identifier] u.ahead with
        | true =>
          refine hagain _ (u.advance 1) fun hv => ?_
          obtain ⟨y, more, hu, hy⟩ := SoFar.ahead_of_next hname
          have hmore : (u.advance 1).ahead = more := by simp [hu]
          rw [hmore] at hv
          rw [hu]
          exact hv.opening_name hy
        | false => exact hagain _ u fun hv => hv.inner.opening_eq_none
  · split
    · exact fun _ ht => ht
    · rename_i op level hop
      obtain ⟨x, rest, hahead, hx⟩ := inner_of_lookup isInner_binaryOp hop
      have hrest : (s.advance 1).ahead = rest := by simp [hahead]
      split
      · exact fun _ ht => ht
      · rw [ensures_advance_bind]
        apply Cleanly.call_bind
        intro right m _ hright _
        apply Cleanly.call
        intro tree t _ hagain _ ht
        rw [hahead, ← hrest]
        exact (lone_of_opening (hright (hagain ht))).mayFollow hx

theorem exprList_opens : exprList.Ensures setting (opens setting) inLabels s
    (Cleanly (Nonterminal.exprList.Opens setting s)) := by
  unfold exprList
  apply Cleanly.call_bind
  intro first m _ hfirst _
  apply Cleanly.accept_bind
  · intro x rest hahead hx
    have hrest : (m.advance 1).ahead = rest := by simp [hahead]
    apply Cleanly.call_bind
    intro others t _ hothers _ _ ht
    apply hfirst
    rw [hahead, ← hrest]
    exact (lone_of_opening (hothers ht)).mayFollow (by rw [hx]; rfl)
  · intro _ _
    exact hfirst

theorem arguments_opens : arguments.Ensures setting (opens setting) inLabels s
    (Cleanly fun _ t => MayFollow t.ahead → MayFollow s.ahead) := by
  unfold arguments
  apply Cleanly.expect_bind
  intro x rest hahead hx
  have hrest : (s.advance 1).ahead = rest := by simp [hahead]
  have hends (hlone : Lone rest) : MayFollow s.ahead := by
    rw [hahead]
    exact hlone.mayFollow (by rw [hx]; rfl)
  rw [ensures_check_bind, hrest]
  cases hclose : next [.rparen] rest with
  | true =>
    apply Cleanly.of_forall
    intro _ _ _
    exact hends (lone_of_next hclose (by decide))
  | false =>
    apply Cleanly.call_bind
    intro args u _ hargs _
    apply Cleanly.expect_bind
    intro y more hu hy _ ht
    have hmore : (u.advance 1).ahead = more := by simp [hu]
    rw [hmore] at ht
    rw [← hrest] at hends
    apply hends
    apply lone_of_opening
    apply hargs
    rw [hu]
    exact ht.inner.lone.mayFollow (by rw [hy]; rfl)

/-- A name and, if there are any, its arguments. -/
theorem nameOrCall_opens {start : Mark} {x : Symbol} {rest : List Symbol}
    (hahead : s.ahead = x :: rest) : (nameOrCall start).Ensures setting (opens setting) inLabels s
      (Cleanly fun _ t => MayFollow t.ahead → MayFollow rest) := by
  have hrest : (s.advance 1).ahead = rest := by simp [hahead]
  unfold nameOrCall
  apply Cleanly.takeText_bind hahead
  rw [ensures_check_bind]
  split
  · apply Cleanly.bind arguments_opens
    intro args t _ hargs _ ht
    rw [← hrest]
    exact hargs ht
  · intro _ ht
    rw [← hrest]
    exact ht

/-- Nothing opens at a symbol that is inner, whatever a rule makes of it. -/
theorem opens_of_inner {α : Type} (rule : Rule α) {P : State → Prop} (h : Inner s.ahead) :
    rule.Ensures setting (opens setting) inLabels s
      (Cleanly fun _ t => P t → opening s.ahead = none) := by
  apply Cleanly.of_forall
  intro _ _ _
  exact h.opening_eq_none

theorem primary_opens : primary.Ensures setting (opens setting) inLabels s
    (Cleanly fun _ t => MayFollow t.ahead → opening s.ahead = none) := by
  cases hahead : s.ahead with
  | nil =>
    rw [← hahead]
    apply opens_of_inner
    rw [hahead]
    exact inner_nil
  | cons x rest =>
    rw [← hahead]
    by_cases hx : isInner x.kind = true
    · apply opens_of_inner
      rw [hahead]
      exact inner_cons hx
    · unfold primary
      rw [ensures_view_bind, State.view_ahead]
      have hhead : s.ahead.head?.map Symbol.kind = some x.kind := by rw [hahead]; rfl
      have hnot {k : Kind} (h : s.ahead.head?.map Symbol.kind = some k) : isInner k ≠ true := by
        rw [hhead] at h
        cases h
        exact hx
      split
      · rename_i h
        exact absurd rfl (hnot h)
      · rename_i h
        exact absurd rfl (hnot h)
      · rename_i h
        exact absurd rfl (hnot h)
      · rename_i h
        exact absurd rfl (hnot h)
      · rename_i h
        exact absurd rfl (hnot h)
      · rename_i h
        have hname : x.kind = .identifier := by
          rw [hhead] at h
          exact Option.some.inj h
        split
        · apply Cleanly.call_bind
          intro type t _ htype _ _ ht
          exact htype.2 (.inr (by simp [hahead, next, hname])) ht
        · apply Cleanly.mono (nameOrCall_opens hahead)
          intro _ t _ hname' ht
          rw [hahead]
          exact (hname' ht).opening_name hname
      · rename_i kind _ _ _ _ _ _ h
        have hkind : isInner kind ≠ true := hnot h
        rw [if_neg, if_neg]
        · trivial
        · intro hprimitive
          apply hkind
          revert hprimitive
          cases kind <;> decide
        · intro hliteral
          apply hkind
          revert hliteral
          cases kind <;> decide
      · trivial

/-- A name is alone if what stands behind what it opens may follow it. -/
theorem lone_of_opened {β : Type} {rule : Rule β}
    (h : ∀ x rest, s.ahead = x :: rest → x.kind = .identifier →
      rule.Ensures setting (opens setting) inLabels s
        (Cleanly fun _ t => MayFollow t.ahead → MayFollow (s.advance 1).ahead)) :
    rule.Ensures setting (opens setting) inLabels s
      (Cleanly fun _ t => MayFollow t.ahead → Lone s.ahead) := by
  cases hname : next [.identifier] s.ahead with
  | false =>
    apply Cleanly.of_forall
    intro _ _ _
    exact lone_of_not_identifier hname
  | true =>
    obtain ⟨x, rest, hahead, hx⟩ := SoFar.ahead_of_next hname
    have hrest : (s.advance 1).ahead = rest := by simp [hahead]
    refine Cleanly.mono (h x rest hahead hx) fun _ t _ hopens ht => ?_
    rw [hahead]
    exact MayFollow.lone_name (hrest ▸ hopens ht) hx

theorem memberSelector_opens (start : Mark) (target : Tree .expr) :
    (memberSelector start target).Ensures setting (opens setting) inLabels s
      (Cleanly fun _ t => MayFollow t.ahead → Lone s.ahead) := by
  refine lone_of_opened fun x rest hahead hx => ?_
  unfold memberSelector
  rw [ensures_ahead_bind, if_neg (by simp [hahead, nextOneOf, hx]),
    if_neg (by simp [hahead, next, hx]), if_neg (by simp [hahead, next, hx])]
  have hless : next [.less] s.ahead = false := by simp [hahead, next, hx]
  rw [hless]
  change Ensures _ _ _ (pure Tree.nil >>= _) _ _
  rw [ensures_pure_bind]
  apply Cleanly.identifier_bind
  intro y more hy hyk
  rw [ensures_check_bind]
  split
  · apply Cleanly.bind arguments_opens
    intro args t _ hargs _ ht
    exact hargs ht
  · intro _ ht
    exact ht

theorem referenceSelector_opens (start : Mark) (target : Tree .expr) :
    (referenceSelector start target).Ensures setting (opens setting) inLabels s
      (Cleanly fun _ t => MayFollow t.ahead → Lone s.ahead) := by
  refine lone_of_opened fun x rest hahead hx => ?_
  have hless : next [.less] s.ahead = false := by simp [hahead, next, hx]
  have hnew : next [.newKw] s.ahead = false := by simp [hahead, next, hx]
  unfold referenceSelector
  rw [ensures_check_bind, hless]
  change Ensures _ _ _ (pure Tree.nil >>= _) _ _
  rw [ensures_pure_bind, ensures_check_bind, hnew]
  apply Cleanly.identifier_bind
  intro y more hy hyk _ ht
  exact ht

theorem selectors_opens (start : Mark) (target : Tree .expr) :
    (selectors start target).Ensures setting (opens setting) inLabels s
      (Cleanly ((Nonterminal.selectors start target).Opens setting s)) := by
  unfold selectors
  -- What opens a selector is inner, so it is enough that what stands behind it is alone.
  have hends {x : Symbol} {rest : List Symbol} (hahead : s.ahead = x :: rest)
      (hx : isInner x.kind = true) (hlone : Lone (s.advance 1).ahead) : MayFollow s.ahead := by
    have hrest : (s.advance 1).ahead = rest := by simp [hahead]
    rw [hrest] at hlone
    rw [hahead]
    exact hlone.mayFollow hx
  apply Cleanly.accept_bind
  · intro x rest hahead hx
    apply Cleanly.bind (memberSelector_opens start target)
    intro selected m _ hselected
    apply Cleanly.call
    intro tree t _ hagain _ ht
    exact hends hahead (by rw [hx]; rfl) (hselected (hagain ht))
  · intro _
    apply Cleanly.accept_bind
    · intro x rest hahead hx
      apply Cleanly.call_bind
      intro index u _ hindex _
      apply Cleanly.expect_bind
      intro y more hu hy
      have hmore : (u.advance 1).ahead = more := by simp [hu]
      rw [ensures_since_bind]
      apply Cleanly.call
      intro tree t _ hagain _ ht
      apply hends hahead (by rw [hx]; rfl)
      apply lone_of_opening
      apply hindex
      have hbehind : MayFollow more := by
        rw [← hmore]
        exact hagain ht
      rw [hu]
      exact hbehind.inner.lone.mayFollow (by rw [hy]; rfl)
    · intro _
      apply Cleanly.accept_bind
      · intro x rest hahead hx
        apply Cleanly.bind (referenceSelector_opens start target)
        intro selected m _ hselected
        apply Cleanly.call
        intro tree t _ hagain _ ht
        exact hends hahead (by rw [hx]; rfl) (hselected (hagain ht))
      · intro _ _ ht
        exact ht

theorem steps_opens (start : Mark) (operand : Tree .expr) :
    (steps start operand).Ensures setting (opens setting) inLabels s
      (Cleanly ((Nonterminal.steps start operand).Opens setting s)) := by
  unfold steps
  rw [ensures_ahead_bind]
  split
  · exact fun _ ht => ht
  · rename_i op hop
    obtain ⟨x, rest, hahead, hx⟩ := inner_of_lookup isInner_trailingOp hop
    have hrest : (s.advance 1).ahead = rest := by simp [hahead]
    rw [ensures_advance_bind, ensures_since_bind]
    apply Cleanly.call
    intro tree t _ hagain _ ht
    have hbehind : MayFollow rest := by
      rw [← hrest]
      exact hagain ht
    rw [hahead]
    exact hbehind.inner.lone.mayFollow hx

theorem trailing_opens : trailing.Ensures setting (opens setting) inLabels s
    (Cleanly fun _ t => MayFollow t.ahead → opening s.ahead = none) := by
  unfold trailing
  rw [ensures_mark_bind]
  apply Cleanly.bind primary_opens
  intro first m _ hfirst
  apply Cleanly.call_bind
  intro selected u _ hselected _
  apply Cleanly.call
  intro tree t _ hsteps _ ht
  exact hfirst (hselected (hsteps ht))

theorem inner_of_next {k : Kind} {ts : List Symbol} (h : next [k] ts = true)
    (hk : isInner k = true) : Inner ts := by
  cases ts with
  | nil => exact inner_nil
  | cons x rest =>
    have hx : x.kind = k := by simpa [next] using h
    rw [← hx] at hk
    exact inner_cons hk

theorem unary_opens : unary.Ensures setting (opens setting) inLabels s
    (Cleanly (Nonterminal.unary.Opens setting s)) := by
  cases hop : lookup leadingOp? s.ahead with
  | some op =>
    obtain ⟨x, rest, hahead, hx⟩ := inner_of_lookup isInner_leadingOp hop
    apply opens_of_inner
    rw [hahead]
    exact inner_cons hx
  | none =>
    cases hparen : next [.lparen] s.ahead with
    | true => exact opens_of_inner _ (inner_of_next hparen (by decide))
    | false =>
      unfold unary
      rw [ensures_view_bind, State.view_ahead, hop]
      simp only [hparen, Bool.false_and, Bool.false_eq_true, if_false]
      exact trailing_opens

/-- The parameters of a lambda are one bare name, or start with a parenthesis. -/
theorem lambdaParams_opens : lambdaParams.Ensures setting (opens setting) inLabels s
    (Cleanly fun _ t => Inner s.ahead ∨
      ∃ x, s.ahead = x :: t.ahead ∧ x.kind = .identifier) := by
  unfold lambdaParams
  rw [ensures_view_bind, State.view_ahead]
  split
  · rename_i hname
    obtain ⟨x, rest, hahead, hx⟩ := SoFar.ahead_of_next hname
    apply Cleanly.takeText_bind hahead
    intro _
    exact .inr ⟨x, by simp [hahead], hx⟩
  · apply Cleanly.expect_bind
    intro x rest hahead hx
    apply Cleanly.of_forall
    intro _ _
    apply Or.inl
    rw [hahead]
    exact inner_cons (by rw [hx]; rfl)

theorem lambda_opens : lambda.Ensures setting (opens setting) inLabels s
    (Cleanly (Nonterminal.lambda.Opens setting s)) := by
  unfold lambda
  rw [ensures_mark_bind]
  apply Cleanly.bind lambdaParams_opens
  intro params m _ hparams
  apply Cleanly.expect_bind
  intro x rest hahead hx
  have hrest : (m.advance 1).ahead = rest := by simp [hahead]
  have hends (hlone : Lone rest) : opening s.ahead = none := by
    rcases hparams with hinner | ⟨y, hy, hyk⟩
    · exact hinner.opening_eq_none
    · rw [hy]
      apply MayFollow.opening_name _ hyk
      rw [hahead]
      exact hlone.mayFollow (by rw [hx]; rfl)
  rw [ensures_check_bind, hrest]
  cases hbrace : next [.lbrace] rest with
  | true =>
    apply Cleanly.of_forall
    intro _ _ _
    exact hends (inner_of_next hbrace (by decide)).lone
  | false =>
    apply Cleanly.call_bind
    intro body u _ hbody _ _ ht
    rw [← hrest] at hends
    exact hends (lone_of_opening (hbody ht))

end Rules

end JavaSyntax
