import JavaSyntax.Proofs.Progress

/-!
The progress of each rule, followed up to the first symbol it takes. The hypothesis `hb` of each
lemma is the depth that the rank of its nonterminal leaves.
-/

namespace JavaSyntax.Grammar

open Rule

variable {setting : Setting} {bound : Nat} {inLabels : Bool} {s : State}

/-! Annotations and types. -/

theorem annot_took (hb : 16 * s.left ≤ bound) :
    annot.Ensures setting (progress bound) inLabels s (Took s) := by
  unfold annot
  rw [ensures_mark_bind]
  exact ensures_took_bind hb expect_took

theorem annotations_idle (onType : Bool) (hb : 16 * s.left + 1 ≤ bound) :
    (annotations onType).Ensures setting (progress bound) inLabels s
      fun _ t => t.left ≤ s.left := by
  unfold annotations
  rw [ensures_ahead_bind]
  split
  · exact (ensures_took_bind (by omega) (call_took rfl hb)).idle
  · exact Nat.le_refl _

theorem namedElements_took (hb : 16 * s.left ≤ bound) :
    namedElements.Ensures setting (progress bound) inLabels s (Took s) :=
  ensures_took_bind hb identifier_took

theorem elementValue_took (hb : 16 * s.left + 6 ≤ bound) :
    elementValue.Ensures setting (progress bound) inLabels s (Took s) := by
  unfold elementValue
  rw [ensures_ahead_bind]
  split
  · refine ensures_took_bind (by omega) (call_took rfl ?_)
    simp only [Nonterminal.rank]
    omega
  · split
    · rename_i h
      rw [ensures_mark_bind]
      exact ensures_took_bind (by omega) (advance_took Nat.one_pos (left_pos_of_next h))
    · refine call_took rfl ?_
      simp only [Nonterminal.rank]
      omega

theorem elementValues_idle (hb : 16 * s.left + 7 ≤ bound) :
    elementValues.Ensures setting (progress bound) inLabels s fun _ t => t.left ≤ s.left := by
  unfold elementValues
  rw [ensures_ahead_bind]
  split
  · exact Nat.le_refl _
  · exact (ensures_took_bind (by omega) (call_took rfl hb)).idle

theorem type_took (hb : 16 * s.left + 2 ≤ bound) :
    type.Ensures setting (progress bound) inLabels s (Took s) := by
  unfold type
  rw [ensures_mark_bind]
  refine ensures_idle_bind (call_idle hb) fun annotations t ht => ?_
  rw [ensures_view_bind]
  split
  · rename_i h
    exact ensures_took_bind (by omega) (takeText_took (left_pos_of_next h))
  · split
    · rename_i h
      exact ensures_took_bind (by omega) (takeText_took (left_pos_of_head h))
    · exact Took.failed ..

theorem typeSegments_idle (start : Mark) (outer : Tree (.option .type)) (name : String)
    (diamond : Bool) (hb : 16 * s.left + 1 ≤ bound) :
    (typeSegments start outer name diamond).Ensures setting (progress bound) inLabels s
      fun _ t => t.left ≤ s.left := by
  unfold typeSegments
  rw [ensures_check_bind]
  cases hless : Lookahead.next [.less] s.ahead with
  | true =>
    refine (ensures_took_bind (by omega) ?_).idle
    exact call_took rfl hb
  | false =>
    change Ensures _ _ _ (pure Tree.nil >>= _) _ _
    rw [ensures_pure_bind, ensures_ahead_bind]
    split
    · rename_i h
      have hs : 0 < s.left := by
        rcases Bool.or_eq_true_iff.mp h with h | h <;> exact left_pos_of_next h
      exact (ensures_took_bind (by omega) (advance_took Nat.one_pos hs)).idle
    · exact Nat.le_refl _

theorem typeArgs_took (hb : 16 * s.left ≤ bound) :
    typeArgs.Ensures setting (progress bound) inLabels s (Took s) :=
  ensures_took_bind hb expect_took

theorem typeArg_took (hb : 16 * s.left + 3 ≤ bound) :
    typeArg.Ensures setting (progress bound) inLabels s (Took s) := by
  unfold typeArg
  rw [ensures_mark_bind]
  refine ensures_idle_bind (call_idle ?_) fun annotations t ht => ?_
  · simp only [Nonterminal.rank]
    omega
  · refine ensures_accept_took (by omega) (ensures_took_bind (by omega) (call_took rfl ?_))
    simp only [Nonterminal.rank]
    omega

theorem typeArgList_took (hb : 16 * s.left + 3 ≤ bound) :
    typeArgList.Ensures setting (progress bound) inLabels s (Took s) :=
  ensures_took_bind (by omega) (typeArg_took hb)

theorem typesAfter_idle (separator : Kind) (hb : 16 * s.left ≤ bound) :
    (typesAfter separator).Ensures setting (progress bound) inLabels s
      fun _ t => t.left ≤ s.left := by
  unfold typesAfter
  exact ensures_accept_idle hb (Nat.le_refl _)

theorem typeParam_took (hb : 16 * s.left + 2 ≤ bound) :
    typeParam.Ensures setting (progress bound) inLabels s (Took s) := by
  unfold typeParam
  rw [ensures_mark_bind]
  refine ensures_idle_bind (call_idle hb) fun annotations t ht => ?_
  exact ensures_took_bind (by omega) identifier_took

theorem typeParamList_took (hb : 16 * s.left + 2 ≤ bound) :
    typeParamList.Ensures setting (progress bound) inLabels s (Took s) :=
  ensures_took_bind (by omega) (typeParam_took hb)

/-! Expressions. -/

theorem ensures_startsLambda_bind {C : Contract} {β : Type} {f : Bool → Rule β}
    {Q : Except SyntaxError β → State → Prop} :
    (startsLambda >>= f).Ensures setting C inLabels s Q ↔
      (f (!inLabels && Lookahead.isLambda s.ahead)).Ensures setting C inLabels s Q := Iff.rfl

theorem expr_took (hb : 16 * s.left + 6 ≤ bound) :
    expr.Ensures setting (progress bound) inLabels s (Took s) := by
  unfold expr
  rw [ensures_startsLambda_bind]
  split
  · refine call_took rfl ?_
    simp only [Nonterminal.rank]
    omega
  · rw [ensures_mark_bind]
    refine ensures_took_bind (by omega) (call_took rfl ?_)
    simp only [Nonterminal.rank]
    omega

theorem conditional_took (hb : 16 * s.left + 5 ≤ bound) :
    conditional.Ensures setting (progress bound) inLabels s (Took s) := by
  unfold conditional
  rw [ensures_mark_bind]
  exact ensures_took_bind (by omega) (call_took rfl hb)

theorem binary_took (least : Nat) (hb : 16 * s.left + 4 ≤ bound) :
    (binary least).Ensures setting (progress bound) inLabels s (Took s) := by
  unfold binary
  rw [ensures_mark_bind]
  exact ensures_took_bind (by omega) (call_took rfl hb)

theorem binaryRest_idle (least : Nat) (start : Mark) (left : Tree .expr)
    (hb : 16 * s.left ≤ bound) :
    (binaryRest least start left).Ensures setting (progress bound) inLabels s
      fun _ t => t.left ≤ s.left := by
  unfold binaryRest
  rw [ensures_ahead_bind]
  split
  · rename_i h
    split
    · exact Nat.le_refl _
    · exact (ensures_took_bind hb (advance_took Nat.one_pos (left_pos_of_next h))).idle
  · split
    · exact Nat.le_refl _
    · rename_i h
      split
      · exact Nat.le_refl _
      · exact (ensures_took_bind hb (advance_took Nat.one_pos (left_pos_of_lookup h))).idle

theorem literal_took (negatedFrom : Option Mark) (hb : 16 * s.left ≤ bound) :
    (literal negatedFrom).Ensures setting (progress bound) inLabels s (Took s) := by
  unfold literal
  rw [ensures_view_bind]
  split
  · exact Took.failed ..
  · rename_i h
    refine ensures_took_bind hb (advance_took Nat.one_pos ?_)
    obtain ⟨t, ht, _⟩ := Option.bind_eq_some_iff.mp h
    exact left_pos_of_head (p := fun _ => true) (by simp [show s.ahead.head? = some t from ht])

theorem nameOrCall_took (start : Mark) (hb : 16 * s.left ≤ bound) (hs : 0 < s.left) :
    (nameOrCall start).Ensures setting (progress bound) inLabels s (Took s) :=
  ensures_took_bind hb (takeText_took hs)

theorem creation_took (start : Mark) (outer : Tree (.option .expr)) (hb : 16 * s.left ≤ bound) :
    (creation start outer).Ensures setting (progress bound) inLabels s (Took s) :=
  ensures_took_bind hb expect_took

theorem primary_took (hb : 16 * s.left + 3 ≤ bound) :
    primary.Ensures setting (progress bound) inLabels s (Took s) := by
  have htype : 16 * s.left + (Nonterminal.type).rank < bound := hb
  unfold primary
  rw [ensures_view_bind]
  dsimp only
  split
  · rename_i h
    exact nameOrCall_took _ (by omega) (left_pos_of_kind h)
  · rename_i h
    exact nameOrCall_took _ (by omega) (left_pos_of_kind h)
  · rename_i h
    exact ensures_took_bind (by omega) (advance_took Nat.one_pos (left_pos_of_kind h))
  · exact creation_took _ _ (by omega)
  · rename_i h
    exact ensures_took_bind (by omega) (advance_took Nat.one_pos (left_pos_of_kind h))
  · rename_i h
    split
    · exact ensures_took_bind (by omega) (call_took rfl htype)
    · exact nameOrCall_took _ (by omega) (left_pos_of_kind h)
  · split
    · exact literal_took _ (by omega)
    · split
      · exact ensures_took_bind (by omega) (call_took rfl htype)
      · exact Took.failed ..
  · exact Took.failed ..

theorem trailing_took (hb : 16 * s.left + 3 ≤ bound) :
    trailing.Ensures setting (progress bound) inLabels s (Took s) := by
  unfold trailing
  rw [ensures_mark_bind]
  exact ensures_took_bind (by omega) (primary_took hb)

theorem cast_took (hb : 16 * s.left ≤ bound) :
    cast.Ensures setting (progress bound) inLabels s (Took s) := by
  unfold cast
  rw [ensures_mark_bind]
  exact ensures_took_bind hb expect_took

theorem unary_took (hb : 16 * s.left + 3 ≤ bound) :
    unary.Ensures setting (progress bound) inLabels s (Took s) := by
  unfold unary
  rw [ensures_view_bind]
  split
  · rename_i h
    exact ensures_took_bind (by omega) (advance_took Nat.one_pos (left_pos_of_lookup h))
  · split
    · exact cast_took (by omega)
    · exact trailing_took hb

theorem selectors_idle (start : Mark) (target : Tree .expr) (hb : 16 * s.left ≤ bound) :
    (selectors start target).Ensures setting (progress bound) inLabels s
      fun _ t => t.left ≤ s.left := by
  unfold selectors
  refine ensures_accept_idle hb ?_
  refine ensures_accept_idle hb ?_
  exact ensures_accept_idle hb (Nat.le_refl _)

theorem steps_idle (start : Mark) (operand : Tree .expr) (hb : 16 * s.left ≤ bound) :
    (steps start operand).Ensures setting (progress bound) inLabels s
      fun _ t => t.left ≤ s.left := by
  unfold steps
  rw [ensures_ahead_bind]
  split
  · exact Nat.le_refl _
  · rename_i h
    exact (ensures_took_bind hb (advance_took Nat.one_pos (left_pos_of_lookup h))).idle

theorem lambdaParam_took (hb : 16 * s.left + 3 ≤ bound) :
    lambdaParam.Ensures setting (progress bound) inLabels s (Took s) := by
  unfold lambdaParam
  rw [ensures_mark_bind]
  refine ensures_idle_bind (call_idle ?_) fun mods t ht => ?_
  · simp only [Nonterminal.rank]
    omega
  · rw [ensures_ahead_bind]
    split
    · exact ensures_took_bind (by omega) identifier_took
    · refine ensures_took_bind (by omega) (call_took rfl ?_)
      simp only [Nonterminal.rank]
      omega

theorem lambda_took (hb : 16 * s.left ≤ bound) :
    lambda.Ensures setting (progress bound) inLabels s (Took s) := by
  unfold lambda lambdaParams
  rw [ensures_mark_bind]
  refine ensures_took_bind hb ?_
  rw [ensures_view_bind]
  split
  · rename_i h
    exact ensures_took_bind hb (takeText_took (left_pos_of_next h))
  · exact ensures_took_bind hb expect_took

theorem exprList_took (hb : 16 * s.left + 7 ≤ bound) :
    exprList.Ensures setting (progress bound) inLabels s (Took s) :=
  ensures_took_bind (by omega) (call_took rfl hb)

theorem sizes_idle (hb : 16 * s.left ≤ bound) :
    sizes.Ensures setting (progress bound) inLabels s fun _ t => t.left ≤ s.left := by
  unfold sizes
  rw [ensures_ahead_bind]
  split
  · rename_i h
    have hs := left_pos_of_next (Bool.and_eq_true_iff.mp h).1
    exact (ensures_took_bind hb (advance_took Nat.one_pos hs)).idle
  · exact Nat.le_refl _

theorem arrayInit_took (hb : 16 * s.left ≤ bound) :
    Grammar.arrayInit.Ensures setting (progress bound) inLabels s (Took s) := by
  unfold Grammar.arrayInit
  rw [ensures_mark_bind]
  exact ensures_took_bind hb expect_took

theorem initialValue_took (hb : 16 * s.left + 7 ≤ bound) :
    initialValue.Ensures setting (progress bound) inLabels s (Took s) := by
  unfold initialValue
  rw [ensures_check_bind]
  split
  · refine ensures_took_bind (by omega) (call_took rfl ?_)
    simp only [Nonterminal.rank]
    omega
  · exact call_took rfl hb

theorem arrayElements_idle (hb : 16 * s.left + 7 ≤ bound) :
    arrayElements.Ensures setting (progress bound) inLabels s fun _ t => t.left ≤ s.left := by
  unfold arrayElements
  rw [ensures_ahead_bind]
  split
  · exact Nat.le_refl _
  · exact (ensures_took_bind (by omega) (initialValue_took hb)).idle

theorem labels_took (hb : 16 * s.left + 6 ≤ bound) :
    labels.Ensures setting (progress bound) inLabels s (Took s) :=
  ensures_took_bind (by omega) (call_took rfl hb)

theorem lambdaParamList_took (hb : 16 * s.left + 3 ≤ bound) :
    lambdaParamList.Ensures setting (progress bound) inLabels s (Took s) :=
  ensures_took_bind (by omega) (lambdaParam_took hb)

/-! Statements. -/

theorem nextModifier_pos {m : Modifier} {n : Nat} (h : nextModifier s.ahead = some (m, n)) :
    0 < n ∧ 0 < s.left := by
  unfold State.left
  cases hs : s.ahead with
  | nil => simp [hs, nextModifier, lookup, Lookahead.isSealed, Lookahead.isNonSealed] at h
  | cons t rest =>
    rw [hs] at h
    refine ⟨?_, by simp⟩
    unfold nextModifier at h
    split at h
    · cases h
      exact Nat.one_pos
    · split at h
      · cases h
        exact Nat.one_pos
      · split at h
        · cases h
          exact Nat.succ_pos _
        · cases h

theorem modifierRun_idle (hb : 16 * s.left + 1 ≤ bound) :
    modifierRun.Ensures setting (progress bound) inLabels s fun _ t => t.left ≤ s.left := by
  unfold modifierRun
  rw [ensures_ahead_bind]
  split
  · exact (ensures_took_bind (by omega) (call_took rfl hb)).idle
  · split
    · rename_i first n h
      have hs : 0 < n ∧ 0 < s.left := nextModifier_pos h
      exact (ensures_took_bind (by omega) (advance_took hs.1 hs.2)).idle
    · exact Nat.le_refl _

theorem modifiers_idle (hb : 16 * s.left + 1 < bound) :
    modifiers.Ensures setting (progress bound) inLabels s fun _ t => t.left ≤ s.left := by
  unfold modifiers
  rw [ensures_view_bind]
  exact ensures_bind_idle (call_idle hb) fun _ _ _ => Nat.le_refl _

theorem dims_idle :
    dims.Ensures setting (progress bound) inLabels s fun _ t => t.left ≤ s.left := by
  change (s.advance (2 * Lookahead.dims s.ahead)).left ≤ s.left
  rw [State.left_advance]
  exact Nat.sub_le ..

theorem declarator_idle (name : String) (start : Mark) (hb : 16 * s.left ≤ bound) :
    (declarator name start).Ensures setting (progress bound) inLabels s
      fun _ t => t.left ≤ s.left :=
  ensures_bind_idle dims_idle fun _ _ ht => ensures_accept_idle (by omega) (Nat.le_refl _)

theorem declarators_idle (name : String) (start : Mark) (hb : 16 * s.left ≤ bound) :
    (declarators name start).Ensures setting (progress bound) inLabels s
      fun _ t => t.left ≤ s.left :=
  ensures_bind_idle (declarator_idle name start hb) fun _ _ ht =>
    ensures_accept_idle (by omega) (Nat.le_refl _)

theorem standalones_took (hb : 16 * s.left + 7 ≤ bound) :
    standalones.Ensures setting (progress bound) inLabels s (Took s) := by
  unfold standalones
  rw [ensures_mark_bind]
  exact ensures_took_bind (by omega) (call_took rfl hb)

theorem resource_took (hb : 16 * s.left + 7 ≤ bound) :
    resource.Ensures setting (progress bound) inLabels s (Took s) := by
  unfold resource
  rw [ensures_mark_bind, ensures_ahead_bind]
  split
  · refine ensures_idle_bind (modifiers_idle (by omega)) fun mods t ht => ?_
    refine ensures_took_bind (by omega) (call_took rfl ?_)
    simp only [Nonterminal.rank]
    omega
  · exact ensures_took_bind (by omega) (call_took rfl hb)

theorem resources_idle (hb : 16 * s.left + 7 ≤ bound) :
    resources.Ensures setting (progress bound) inLabels s fun _ t => t.left ≤ s.left := by
  unfold resources
  rw [ensures_ahead_bind]
  split
  · exact Nat.le_refl _
  · exact (ensures_took_bind (by omega) (resource_took hb)).idle

theorem catches_idle (hb : 16 * s.left ≤ bound) :
    catches.Ensures setting (progress bound) inLabels s fun _ t => t.left ≤ s.left := by
  unfold catches
  rw [ensures_mark_bind]
  exact ensures_accept_idle hb (Nat.le_refl _)

theorem localVariables_took (mods : Modifiers) (hb : 16 * s.left + 2 < bound) :
    (localVariables mods).Ensures setting (progress bound) inLabels s (Took s) :=
  ensures_took_bind (by omega) (call_took rfl hb)

theorem localDeclaration_took (hb : 16 * s.left + 2 < bound) :
    localDeclaration.Ensures setting (progress bound) inLabels s (Took s) := by
  refine ensures_idle_bind (modifiers_idle (by omega)) fun mods t ht => ?_
  rw [ensures_ahead_bind]
  split
  · refine ensures_took_bind (by omega) (call_took rfl ?_)
    simp only [Nonterminal.rank]
    omega
  · exact localVariables_took mods (by omega)

theorem plainStatement_took (start : Mark) (hb : 16 * s.left + 6 < bound) :
    (plainStatement start).Ensures setting (progress bound) inLabels s (Took s) := by
  unfold plainStatement
  rw [ensures_ahead_bind]
  split
  · refine ensures_idle_bind (modifiers_idle (by omega)) fun mods t ht => ?_
    exact localVariables_took mods (by omega)
  · exact ensures_took_bind (by omega) (call_took rfl hb)

theorem namedStatement_took (start : Mark) (hb : 16 * s.left + 6 < bound) (hs : 0 < s.left) :
    (namedStatement start s.ahead).Ensures setting (progress bound) inLabels s (Took s) := by
  unfold namedStatement
  split
  · exact ensures_took_bind (by omega) (advance_took Nat.one_pos hs)
  · split
    · exact ensures_took_bind (by omega) (takeText_took hs)
    · split
      · exact localDeclaration_took (by omega)
      · exact plainStatement_took start hb

theorem jumpLabel_took (hb : 16 * s.left ≤ bound) (hs : 0 < s.left) :
    jumpLabel.Ensures setting (progress bound) inLabels s (Took s) :=
  ensures_took_bind hb (advance_took Nat.one_pos hs)

theorem stmt_took (hb : 16 * s.left + 7 ≤ bound) :
    stmt.Ensures setting (progress bound) inLabels s (Took s) := by
  have hb₀ : 16 * s.left ≤ bound := by omega
  have hkeyword {γ : Type} {f : Unit → Rule γ} (hs : 0 < s.left) :
      (advance 1 >>= f).Ensures setting (progress bound) inLabels s (Took s) :=
    ensures_took_bind hb₀ (advance_took Nat.one_pos hs)
  unfold stmt
  rw [ensures_view_bind]
  dsimp only
  split
  case h_1 => exact Took.failed ..
  case h_2 =>
    refine ensures_took_bind hb₀ (call_took rfl ?_)
    simp only [Nonterminal.rank]
    omega
  case h_10 h =>
    split
    · exact hkeyword (left_pos_of_kind h)
    · exact plainStatement_took _ hb
  case h_12 h => exact ensures_took_bind hb₀ (jumpLabel_took hb₀ (left_pos_of_kind h))
  case h_13 h => exact ensures_took_bind hb₀ (jumpLabel_took hb₀ (left_pos_of_kind h))
  case h_24 h => exact namedStatement_took _ hb (left_pos_of_kind h)
  case h_25 => exact plainStatement_took _ hb
  all_goals
    rename_i h
    first
    | exact hkeyword (left_pos_of_kind h)
    | exact localDeclaration_took (by omega)

theorem block_took (hb : 16 * s.left ≤ bound) :
    block.Ensures setting (progress bound) inLabels s (Took s) := by
  unfold block
  rw [ensures_mark_bind]
  exact ensures_took_bind hb expect_took

/-- A loop reads an element and goes on, behind a failed one as well. -/
theorem loop_idle {α β : Type} {element : Nonterminal α} {goOn : List Symbol → List Symbol}
    {next : Except SyntaxError α → Rule β} {skipped : Extent → Rule β}
    (hnext : ∀ error, next (.error error) =
      (report error >>= fun _ => resync goOn (s.view inLabels) >>= skipped))
    (hgo : ∀ ts, (goOn ts).length ≤ ts.length) (hempty : element.mayBeEmpty = false)
    (hs : 0 < s.left) (hb : 16 * s.left + element.rank < bound) :
    (attempt element >>= next).Ensures setting (progress bound) inLabels s
      fun _ t => t.left ≤ s.left := by
  rw [ensures_attempt_bind]
  refine ⟨hb, fun r t ht => ?_⟩
  cases r with
  | ok value =>
    have hlt : t.left < s.left := ht.left_lt hempty rfl
    exact (ensures_free _ t (by omega)).mono fun _ u hu => by omega
  | error error =>
    rw [hnext]
    refine ensures_recover_bind hgo hs ht.left_le ht.moved fun u _ _ hu => ?_
    exact (ensures_free _ u (by omega)).mono fun _ v hv => by omega

theorem statements_idle (inSwitch : Bool) (hb : 16 * s.left + 8 ≤ bound) :
    (statements inSwitch).Ensures setting (progress bound) inLabels s
      fun _ t => t.left ≤ s.left := by
  unfold statements
  rw [ensures_view_bind]
  split
  · exact Nat.le_refl _
  · rename_i h
    refine loop_idle (fun _ => rfl) (Resync.length_block_le inSwitch 0) rfl
      (left_pos_of_not_isEmpty ?_) hb
    intro hs
    simp [State.view, endsStatements, hs] at h

theorem switchRest_took (isExpr : Bool) (hb : 16 * s.left ≤ bound) :
    (switchRest isExpr).Ensures setting (progress bound) inLabels s (Took s) :=
  ensures_took_bind hb (ensures_took_bind hb expect_took)

theorem switchCases_idle (isExpr : Bool) (hb : 16 * s.left + 1 ≤ bound) :
    (switchCases isExpr).Ensures setting (progress bound) inLabels s
      fun _ t => t.left ≤ s.left := by
  unfold switchCases
  rw [ensures_view_bind]
  split
  · exact Nat.le_refl _
  · rename_i h
    refine loop_idle (fun _ => rfl) (Resync.length_block_le true 0) rfl
      (left_pos_of_not_isEmpty ?_) hb
    intro hs
    simp [State.view, hs] at h

theorem caseLabels_took (hb : 16 * s.left ≤ bound) :
    caseLabels.Ensures setting (progress bound) inLabels s (Took s) :=
  ensures_accept_took hb (ensures_accept_took hb (Took.failed ..))

theorem switchCase_took (isExpr : Bool) (hb : 16 * s.left ≤ bound) :
    (switchCase isExpr).Ensures setting (progress bound) inLabels s (Took s) := by
  unfold switchCase
  rw [ensures_mark_bind]
  exact ensures_took_bind hb (caseLabels_took hb)

/-! Declarations. -/

theorem typeDecl_took (mods : Modifiers) (hb : 16 * s.left ≤ bound) :
    (typeDecl mods).Ensures setting (progress bound) inLabels s (Took s) := by
  unfold typeDecl
  rw [ensures_view_bind]
  split
  · exact ensures_took_bind hb expect_took
  split
  · exact ensures_took_bind hb expect_took
  split
  · exact ensures_took_bind hb expect_took
  split
  · exact ensures_took_bind hb expect_took
  split
  · rename_i h
    have hs := left_pos_of_nextWord (Bool.and_eq_true_iff.mp h).1
    exact ensures_took_bind hb (advance_took Nat.one_pos hs)
  · exact Took.failed ..

theorem members_idle (owner : String) (hb : 16 * s.left + 4 ≤ bound) :
    (members owner).Ensures setting (progress bound) inLabels s fun _ t => t.left ≤ s.left := by
  unfold members
  rw [ensures_view_bind]
  split
  · exact Nat.le_refl _
  · rename_i h
    split
    · rename_i hsemi
      exact (ensures_took_bind (by omega)
        (advance_took Nat.one_pos (left_pos_of_next hsemi))).idle
    · refine loop_idle (fun _ => rfl) Resync.length_classBody_le rfl (left_pos_of_not_isEmpty ?_) hb
      intro hs
      simp [State.view, hs] at h

theorem typedMember_took (mods : Modifiers) (typeParams : Tree (.list .typeParam))
    (hb : 16 * s.left + 2 < bound) :
    (typedMember mods typeParams).Ensures setting (progress bound) inLabels s (Took s) :=
  ensures_accept_took (by omega)
    (ensures_took_bind (by omega) (ensures_took_bind (by omega) (call_took rfl hb)))

theorem typeParams_idle (hb : 16 * s.left ≤ bound) :
    typeParams.Ensures setting (progress bound) inLabels s fun _ t => t.left ≤ s.left :=
  ensures_accept_idle hb (Nat.le_refl _)

theorem member_took (owner : String) (hb : 16 * s.left + 3 ≤ bound) :
    (member owner).Ensures setting (progress bound) inLabels s (Took s) := by
  refine ensures_idle_bind (modifiers_idle (by omega)) fun mods t ht => ?_
  rw [ensures_ahead_bind]
  split
  · refine ensures_took_bind (by omega) (call_took rfl ?_)
    simp only [Nonterminal.rank]
    omega
  split
  · refine ensures_took_bind (by omega) (call_took rfl ?_)
    simp only [Nonterminal.rank]
    omega
  · refine ensures_idle_bind (typeParams_idle (by omega)) fun params u hu => ?_
    rw [ensures_ahead_bind]
    split
    · rename_i h
      unfold constructorDecl
      rw [ensures_view_bind]
      exact ensures_took_bind (by omega) (takeText_took (left_pos_of_next h))
    split
    · rename_i h
      have hpos := left_pos_of_next (Bool.and_eq_true_iff.mp h).1
      exact ensures_took_bind (by omega) (takeText_took hpos)
    · exact typedMember_took mods params (by omega)

theorem param_took (hb : 16 * s.left + 3 ≤ bound) :
    param.Ensures setting (progress bound) inLabels s (Took s) := by
  refine ensures_idle_bind (modifiers_idle (by omega)) fun mods t ht => ?_
  refine ensures_took_bind (by omega) (call_took rfl ?_)
  simp only [Nonterminal.rank]
  omega

theorem paramList_took (hb : 16 * s.left + 3 ≤ bound) :
    paramList.Ensures setting (progress bound) inLabels s (Took s) :=
  ensures_took_bind (by omega) (param_took hb)

theorem enumConstant_took (hb : 16 * s.left + 1 < bound) :
    enumConstant.Ensures setting (progress bound) inLabels s (Took s) := by
  unfold enumConstant
  rw [ensures_mark_bind]
  refine ensures_idle_bind (call_idle hb) fun annotations t ht => ?_
  exact ensures_took_bind (by omega) identifier_took

theorem enumConstants_idle (hb : 16 * s.left + 2 ≤ bound) :
    enumConstants.Ensures setting (progress bound) inLabels s fun _ t => t.left ≤ s.left := by
  unfold enumConstants
  rw [ensures_ahead_bind]
  split
  · exact Nat.le_refl _
  · exact (ensures_took_bind (by omega) (enumConstant_took hb)).idle

theorem qualifiedName_took (hb : 16 * s.left ≤ bound) :
    qualifiedName.Ensures setting (progress bound) inLabels s (Took s) :=
  ensures_took_bind hb identifier_took

theorem names_took (hb : 16 * s.left ≤ bound) :
    names.Ensures setting (progress bound) inLabels s (Took s) :=
  ensures_took_bind hb (qualifiedName_took hb)

theorem directive_took (hb : 16 * s.left ≤ bound) :
    directive.Ensures setting (progress bound) inLabels s (Took s) := by
  have hkeyword {γ : Type} {word : String} {f : Unit → Rule γ}
      (h : Lookahead.nextWord word s.ahead = true) :
      (advance 1 >>= f).Ensures setting (progress bound) inLabels s (Took s) :=
    ensures_took_bind hb (advance_took Nat.one_pos (left_pos_of_nextWord h))
  unfold directive
  rw [ensures_view_bind]
  dsimp only
  split
  · exact hkeyword ‹_›
  split
  · exact hkeyword ‹_›
  split
  · exact hkeyword ‹_›
  split
  · exact hkeyword ‹_›
  split
  · exact hkeyword ‹_›
  · exact Took.failed ..

theorem directives_idle (hb : 16 * s.left ≤ bound) :
    directives.Ensures setting (progress bound) inLabels s fun _ t => t.left ≤ s.left := by
  unfold directives
  rw [ensures_ahead_bind]
  split
  · exact Nat.le_refl _
  · exact (ensures_took_bind hb (directive_took hb)).idle

/-! The top level. -/

theorem ensures_clauseStart_bind {C : Contract} {β : Type} {mods : Modifiers} {f : Mark → Rule β}
    {Q : Except SyntaxError β → State → Prop}
    (hf : ∀ start, (f start).Ensures setting C inLabels s Q) :
    (clauseStart mods >>= f).Ensures setting C inLabels s Q := by
  unfold clauseStart
  split <;> exact hf _

theorem packageDecl_took (mods : Modifiers) (hb : 16 * s.left ≤ bound) :
    (packageDecl mods).Ensures setting (progress bound) inLabels s (Took s) :=
  ensures_clauseStart_bind fun _ => ensures_took_bind hb expect_took

theorem left_pos_of_isModule (h : Lookahead.isModule s.ahead = true) : 0 < s.left :=
  left_pos fun hs => by simp [hs, Lookahead.isModule, Lookahead.nextWord] at h

theorem moduleDecl_took (mods : Modifiers) (hb : 16 * s.left ≤ bound) (hs : 0 < s.left) :
    (moduleDecl mods).Ensures setting (progress bound) inLabels s (Took s) := by
  refine ensures_clauseStart_bind fun start => ?_
  rw [ensures_ahead_bind]
  refine ensures_took_bind hb (advance_took ?_ hs)
  split <;> decide

theorem importDecl_took (hb : 16 * s.left ≤ bound) :
    importDecl.Ensures setting (progress bound) inLabels s (Took s) := by
  unfold importDecl
  rw [ensures_mark_bind]
  exact ensures_took_bind hb expect_took

theorem item_took (hb : 16 * s.left + 3 ≤ bound) :
    item.Ensures setting (progress bound) inLabels s (Took s) := by
  unfold item
  rw [ensures_view_bind]
  split
  · rename_i h
    exact ensures_took_bind (by omega) (advance_took Nat.one_pos (left_pos_of_next h))
  split
  · exact ensures_took_bind (by omega) (importDecl_took (by omega))
  · refine ensures_idle_bind (modifiers_idle (by omega)) fun mods t ht => ?_
    rw [ensures_view_bind]
    split
    · exact ensures_took_bind (by omega) (packageDecl_took mods (by omega))
    split
    · rename_i h
      exact ensures_took_bind (by omega)
        (moduleDecl_took mods (by omega) (left_pos_of_isModule (Bool.and_eq_true_iff.mp h).2))
    split
    · refine ensures_took_bind (by omega) (call_took rfl ?_)
      simp only [Nonterminal.rank]
      omega
    · exact Took.failed ..

/-- All is read and nothing failed. -/
def Finished {α : Type} (r : Except SyntaxError α) (t : State) : Prop :=
  r.isOk = true ∧ t.left = 0

theorem ensures_absorbRest_bind {C : Contract} {β : Type} {f : Extent → Rule β}
    {Q : Except SyntaxError β → State → Prop}
    (hf : ∀ extent t, t.left = 0 → (f extent).Ensures setting C inLabels t Q) :
    (absorbRest >>= f).Ensures setting C inLabels s Q := by
  refine hf _ _ ?_
  rw [State.left_advance]
  exact Nat.sub_self _

theorem misplaced_ensures (unit : CompilationUnit) (extent : Extent) :
    (misplaced unit extent).Ensures setting (progress bound) inLabels s
      fun r t => r.isOk = true ∧ t.left = s.left :=
  ⟨rfl, State.left_report ..⟩

theorem addItem_ensures (unit : CompilationUnit) (item : UnitItem) :
    (addItem unit item).Ensures setting (progress bound) inLabels s
      fun r t => r.isOk = true ∧ t.left = s.left := by
  unfold addItem
  split
  case h_4 => exact ⟨rfl, rfl⟩
  all_goals
    split
    · exact ⟨rfl, rfl⟩
    · exact misplaced_ensures ..

theorem items_finished (unit : CompilationUnit) (hb : 16 * s.left + 4 ≤ bound) :
    (items unit).Ensures setting (progress bound) inLabels s Finished := by
  have hmore {t : State} (unit : CompilationUnit) (ht : t.left < s.left) :
      (call (.items unit)).Ensures setting (progress bound) inLabels t Finished := by
    rw [ensures_call]
    refine ⟨?_, fun r u hu => hu.whole rfl⟩
    show 16 * t.left + 4 < bound
    omega
  unfold items
  rw [ensures_view_bind]
  split
  · rename_i h
    exact ⟨rfl, by simpa [State.left, State.view] using h⟩
  rename_i h
  split
  · exact ensures_absorbRest_bind fun _ _ ht => ⟨rfl, ht⟩
  · rw [ensures_attempt_bind]
    refine ⟨hb, fun r t ht => ?_⟩
    cases r with
    | ok item =>
      have hlt : t.left < s.left := ht.left_lt rfl rfl
      change Ensures _ _ _ (addItem unit item >>= _) _ _
      rw [ensures_bind]
      refine (addItem_ensures unit item).mono fun r u hu => ?_
      cases r with
      | ok unit => exact hmore unit (by omega)
      | error error => cases hu.1
    | error error =>
      exact ensures_recover_bind Resync.length_topLevel_le (left_pos_of_not_isEmpty h)
        ht.left_le ht.moved fun u _ _ hu => hmore _ hu

theorem finish_finished : finish.Ensures setting (progress bound) inLabels s Finished := by
  unfold finish
  rw [ensures_view_bind]
  split
  · split
    · rw [ensures_report_bind]
      exact ensures_absorbRest_bind fun _ _ ht => ⟨rfl, ht⟩
    · exact ensures_absorbRest_bind fun _ _ ht => ⟨rfl, ht⟩
  · rename_i h
    exact ⟨rfl, by simpa [State.left, State.view] using h⟩

theorem whole_finished {α : Type} (nonterminal : Nonterminal α) (wrap : α → Tree .expr)
    (hb : 16 * s.left + nonterminal.rank < bound) :
    (whole nonterminal wrap).Ensures setting (progress bound) inLabels s Finished := by
  have hfinish {t : State} (tree : Tree .expr) :
      (finish >>= fun _ => pure tree).Ensures setting (progress bound) inLabels t Finished := by
    rw [ensures_bind]
    refine finish_finished.mono fun r u hu => ?_
    cases r with
    | ok value => exact ⟨rfl, hu.2⟩
    | error error => cases hu.1
  unfold whole
  rw [ensures_attempt_bind]
  refine ⟨hb, fun r t _ => ?_⟩
  cases r with
  | ok value => exact hfinish _
  | error error => exact hfinish _

end JavaSyntax.Grammar
