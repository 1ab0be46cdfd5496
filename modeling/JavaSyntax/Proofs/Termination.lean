import JavaSyntax.Proofs.RuleProgress

/-!
Every parse terminates. The rules make progress one by one; here they are put together, so that
`run` with fuel for the symbols ahead always gives a result, and more fuel gives the same one. The
fuel is therefore no part of what is parsed: whatever the symbols are, each loop of the grammar
takes some in every round, and each entry point takes them all.
-/

namespace JavaSyntax

/-- More fuel, or any caller that answers whenever another does, never changes an answer. -/
theorem exec_more {setting : Setting} {first second : Caller} {inLabels : Bool}
    (hcaller : ∀ {β : Type} (nonterminal : Nonterminal β) (flag : Bool) (s : State) out,
      first nonterminal flag s = some out → second nonterminal flag s = some out)
    {α : Type} (rule : Rule α) (s : State) {out : Except SyntaxError α × State}
    (h : exec setting first inLabels rule s = some out) :
    exec setting second inLabels rule s = some out := by
  induction rule generalizing s with
  | done value => exact h
  | fail error => exact h
  | look rest ih => exact ih _ s h
  | advance n rest ih => exact ih _ h
  | splitAngle rest ih => exact ih _ h
  | report error rest ih => exact ih _ h
  | deprecation doc name rest ih => exact ih _ h
  | call nonterminal asLabels rest ih =>
    cases hcall : first nonterminal (inLabels || asLabels) s with
    | none => simp [exec, hcall] at h
    | some result =>
      simp only [exec, hcall] at h
      simp only [exec, hcaller _ _ _ _ hcall]
      exact ih _ _ h

theorem run_more {setting : Setting} {fuel more : Nat} (hle : fuel ≤ more) {β : Type}
    (nonterminal : Nonterminal β) (inLabels : Bool) (s : State)
    (out : Except SyntaxError β × State)
    (h : run setting fuel nonterminal inLabels s = some out) :
    run setting more nonterminal inLabels s = some out := by
  induction fuel generalizing more β inLabels s with
  | zero => cases h
  | succ fuel ih =>
    obtain ⟨more, rfl⟩ : ∃ m, more = m + 1 := ⟨more - 1, by omega⟩
    exact exec_more (fun _ _ _ _ => ih (by omega) _ _ _ _) _ s h

theorem Calls.more {setting : Setting} {first second : Caller} {inLabels : Bool} {α β : Type}
    {nonterminal : Nonterminal β} {t s : State} {rule : Rule α}
    (hcaller : ∀ {β : Type} (nonterminal : Nonterminal β) (flag : Bool) (s : State) out,
      first nonterminal flag s = some out → second nonterminal flag s = some out)
    (h : Calls setting @first inLabels nonterminal t rule s) :
    Calls setting @second inLabels nonterminal t rule s := by
  induction h with
  | look _ ih => exact .look ih
  | advance _ ih => exact .advance ih
  | splitAngle _ ih => exact .splitAngle ih
  | report _ ih => exact .report ih
  | deprecation _ ih => exact .deprecation ih
  | here => exact .here
  | after returned _ ih => exact .after (hcaller _ _ _ _ returned) ih

section Rules

variable {setting : Setting} {bound : Nat} {inLabels : Bool}

theorem Took.advanced {β : Type} {nonterminal : Nonterminal β} {s : State} {rule : Rule β}
    (hw : nonterminal.isWhole = false)
    (h : rule.Ensures setting (progress bound) inLabels s (Took s)) :
    rule.Ensures setting (progress bound) inLabels s (Advanced nonterminal s) :=
  h.moved.mono fun _ _ ht => ⟨ht.1.1, fun _ => ht.1.2, fun hc => by simp [hw] at hc, ht.2⟩

theorem idle_advanced {β : Type} {nonterminal : Nonterminal β} {s : State} {rule : Rule β}
    (hw : nonterminal.isWhole = false) (he : nonterminal.mayBeEmpty = true)
    (h : rule.Ensures setting (progress bound) inLabels s fun _ t => t.left ≤ s.left) :
    rule.Ensures setting (progress bound) inLabels s (Advanced nonterminal s) :=
  h.moved.mono fun _ _ ht =>
    ⟨ht.1, fun hc => by simp [he] at hc, fun hc => by simp [hw] at hc, ht.2⟩

theorem Grammar.Finished.advanced {β : Type} {nonterminal : Nonterminal β} {s : State}
    {rule : Rule β} (he : nonterminal.mayBeEmpty = true)
    (h : rule.Ensures setting (progress bound) inLabels s Finished) :
    rule.Ensures setting (progress bound) inLabels s (Advanced nonterminal s) :=
  h.moved.mono fun _ t ht => by
    obtain ⟨⟨hok, hleft⟩, hmoved⟩ := ht
    exact ⟨hleft ▸ Nat.zero_le _, fun hc => by simp [he] at hc, fun _ => ⟨hok, hleft⟩, hmoved⟩

open Grammar in
/-- Each rule keeps to the depth that the rank of its nonterminal leaves. -/
theorem rule_advanced {β : Type} (nonterminal : Nonterminal β) (s : State)
    (hb : 16 * s.left + nonterminal.rank ≤ bound) :
    (rule nonterminal).Ensures setting (progress bound) inLabels s (Advanced nonterminal s) := by
  cases nonterminal with
  | annot => exact Took.advanced rfl (annot_took hb)
  | annotations onType => exact idle_advanced rfl rfl (annotations_idle onType hb)
  | namedElements => exact Took.advanced rfl (namedElements_took hb)
  | elementValue => exact Took.advanced rfl (elementValue_took hb)
  | elementValues => exact idle_advanced rfl rfl (elementValues_idle hb)
  | type => exact Took.advanced rfl (type_took hb)
  | typeSegments start outer name diamond =>
    exact idle_advanced rfl rfl (typeSegments_idle start outer name diamond hb)
  | typeArgs => exact Took.advanced rfl (typeArgs_took hb)
  | typeArgList => exact Took.advanced rfl (typeArgList_took hb)
  | typesAfter separator => exact idle_advanced rfl rfl (typesAfter_idle separator hb)
  | typeParamList => exact Took.advanced rfl (typeParamList_took hb)
  | expr => exact Took.advanced rfl (expr_took hb)
  | conditional => exact Took.advanced rfl (conditional_took hb)
  | binary least => exact Took.advanced rfl (binary_took least hb)
  | binaryRest least start left =>
    exact idle_advanced rfl rfl (binaryRest_idle least start left hb)
  | unary => exact Took.advanced rfl (unary_took hb)
  | selectors start target => exact idle_advanced rfl rfl (selectors_idle start target hb)
  | steps start operand => exact idle_advanced rfl rfl (steps_idle start operand hb)
  | lambda => exact Took.advanced rfl (lambda_took hb)
  | exprList => exact Took.advanced rfl (exprList_took hb)
  | sizes => exact idle_advanced rfl rfl (sizes_idle hb)
  | arrayInit => exact Took.advanced rfl (arrayInit_took hb)
  | arrayElements => exact idle_advanced rfl rfl (arrayElements_idle hb)
  | lambdaParamList => exact Took.advanced rfl (lambdaParamList_took hb)
  | labels => exact Took.advanced rfl (labels_took hb)
  | switchRest isExpr => exact Took.advanced rfl (switchRest_took isExpr hb)
  | switchCases isExpr => exact idle_advanced rfl rfl (switchCases_idle isExpr hb)
  | switchCase isExpr => exact Took.advanced rfl (switchCase_took isExpr hb)
  | stmt => exact Took.advanced rfl (stmt_took hb)
  | block => exact Took.advanced rfl (block_took hb)
  | statements inSwitch => exact idle_advanced rfl rfl (statements_idle inSwitch hb)
  | declarators name start => exact idle_advanced rfl rfl (declarators_idle name start hb)
  | standalones => exact Took.advanced rfl (standalones_took hb)
  | resources => exact idle_advanced rfl rfl (resources_idle hb)
  | catches => exact idle_advanced rfl rfl (catches_idle hb)
  | modifierRun => exact idle_advanced rfl rfl (modifierRun_idle hb)
  | typeDecl mods => exact Took.advanced rfl (typeDecl_took mods hb)
  | members owner => exact idle_advanced rfl rfl (members_idle owner hb)
  | member owner => exact Took.advanced rfl (member_took owner hb)
  | paramList => exact Took.advanced rfl (paramList_took hb)
  | enumConstants => exact idle_advanced rfl rfl (enumConstants_idle hb)
  | names => exact Took.advanced rfl (names_took hb)
  | directives => exact idle_advanced rfl rfl (directives_idle hb)
  | item => exact Took.advanced rfl (item_took hb)
  | items unit => exact Finished.advanced rfl (items_finished unit hb)
  | wholeExpr => exact Finished.advanced rfl (whole_finished .expr id hb)
  | wholeType =>
    refine Finished.advanced rfl (whole_finished .type .typeExpr ?_)
    exact hb

end Rules

/-- Enough fuel for a call and for whatever it leads to. -/
theorem run_meets (setting : Setting) (fuel : Nat) :
    Caller.Meets (run setting fuel) (progress fuel) := by
  induction fuel with
  | zero => exact fun _ _ _ h => absurd h (Nat.not_lt_zero _)
  | succ fuel ih =>
    intro β nonterminal inLabels s hpre
    exact exec_ensures ih _ s (rule_advanced nonterminal s (Nat.le_of_lt_succ hpre))

/-- What was ahead at `s` is still ahead or was counted, and the count never goes back. -/
def Beyond (s t : State) : Prop :=
  s.index ≤ t.index ∧ t.index + t.left = s.index + s.left

theorem kept_beyond (setting : Setting) (s : State) : Kept setting (Beyond s) where
  advance t n h := by
    have hmoved := t.moved_advance n
    have hleft := t.left_advance n
    obtain ⟨hindex, hsum⟩ := h
    exact ⟨by omega, by omega⟩
  splitAngle t h := by
    unfold Beyond
    rwa [State.index_splitAngle, State.left_splitAngle]
  record t fault start stop h := by
    unfold Beyond State.left
    rwa [State.index_record, State.ahead_record]
  deprecation t doc name h := by
    unfold Beyond
    rwa [State.index_deprecation, State.left_deprecation]

/-- The loops of the grammar: each reads its next element by calling itself. -/
inductive Loops : {β : Type} → Nonterminal β → Nonterminal β → Prop where
  | items (before after : CompilationUnit) : Loops (.items before) (.items after)
  | members (owner : String) : Loops (.members owner) (.members owner)
  | statements (inSwitch : Bool) : Loops (.statements inSwitch) (.statements inSwitch)
  | switchCases (isExpr : Bool) : Loops (.switchCases isExpr) (.switchCases isExpr)

theorem Loops.rank_eq {β : Type} {loop again : Nonterminal β} (h : Loops loop again) :
    loop.rank = again.rank := by
  cases h <;> rfl

/-- A round that goes on leaves fewer symbols: the call of the next round is one that the rank of
the loop allows, and its own rank is the same. -/
theorem Loops.left_lt {setting : Setting} {fuel : Nat} {inLabels : Bool} {β : Type}
    {loop again : Nonterminal β} {s t : State} (h : Loops loop again)
    (hcalls : Calls setting (run setting fuel) inLabels again t (Grammar.rule loop) s) :
    t.left < s.left := by
  have hmore := hcalls.more (run_more (Nat.le_max_left fuel (16 * s.left + loop.rank)))
  have hmeets : Caller.Meets (run setting (max fuel (16 * s.left + loop.rank)))
      (progress (16 * s.left + loop.rank)) := fun nonterminal flag u hu =>
    run_meets setting _ nonterminal flag u (Nat.lt_of_lt_of_le hu (Nat.le_max_right ..))
  obtain ⟨flag, hpre⟩ := hmore.pre hmeets (rule_advanced loop s (Nat.le_refl _))
  have hlt : 16 * t.left + again.rank < 16 * s.left + loop.rank := hpre
  have hrank := h.rank_eq
  omega

namespace Session

/-- The entry point ends with this answer, for any fuel that is enough, and takes all there is. -/
def ReadsAll {α : Type} (session : Session) (entry : Nonterminal α) (answer : α × Session) : Prop :=
  (∀ more, fuel session.state ≤ more →
    run session.setting more entry false session.state = some (.ok answer.1, answer.2.state)) ∧
  answer.2.state.ahead = [] ∧
  answer.2.state.index = session.state.index + session.state.ahead.length

theorem enter_readsAll {α : Type} (session : Session) {entry : Nonterminal α} (spare : α)
    (hw : entry.isWhole = true) : session.ReadsAll entry (session.enter entry spare) := by
  have hrank := entry.rank_lt
  have hfuel : 16 * session.state.left + entry.rank < fuel session.state := by
    unfold fuel State.left
    omega
  obtain ⟨r, t, hrun, hpost⟩ := run_meets session.setting _ entry false session.state hfuel
  dsimp only at hrun
  obtain ⟨hok, hleft⟩ := hpost.whole hw
  have hmoved : t.index + t.left = session.state.index + session.state.left := hpost.moved
  rw [hleft] at hmoved
  cases r with
  | error error => cases hok
  | ok tree =>
    have henter : session.enter entry spare = (tree, { session with state := t }) := by
      unfold enter
      rw [hrun]
    rw [henter]
    refine ⟨fun more hle => run_more hle entry false _ _ hrun, ?_, hmoved⟩
    exact List.eq_nil_of_length_eq_zero hleft

/-- A new session stands in front of its first symbol. -/
theorem start_position (settings : Settings) (source : Source) :
    (start settings source).state.index = 0 ∧
      (start settings source).state.ahead = (start settings source).layout.symbols := by
  have hflaws : ∀ (flawed : List FlawedText) (s : State),
      (reportFlaws source flawed s).index = s.index ∧
        (reportFlaws source flawed s).ahead = s.ahead := by
    intro flawed
    induction flawed with
    | nil => exact fun _ => ⟨rfl, rfl⟩
    | cons t rest ih =>
      intro s
      obtain ⟨hindex, hahead⟩ := ih (s.record source (.lexical t.flaw t.text) t.start t.stop)
      exact ⟨hindex.trans (State.index_record ..), hahead.trans (State.ahead_record ..)⟩
  exact hflaws _ _

end Session

/-- Whatever the symbols and the settings are: no rule goes back or past the end, nor does it call
anything there; each round of a loop takes a symbol before the next begins; and each entry point
comes to an end with all symbols taken. -/
theorem parse_advances_to_end :
    (∀ (setting : Setting) (fuel : Nat) (inLabels : Bool) {α : Type} (rule : Rule α) (s : State)
      (r : Except SyntaxError α) (t : State),
      exec setting (run setting fuel) inLabels rule s = some (r, t) →
        s.index ≤ t.index ∧ t.index + t.ahead.length = s.index + s.ahead.length) ∧
    (∀ (setting : Setting) (fuel : Nat) (inLabels : Bool) {α β : Type} (rule : Rule α)
      (nonterminal : Nonterminal β) (s t : State),
      Calls setting (run setting fuel) inLabels nonterminal t rule s →
        s.index ≤ t.index ∧ t.index + t.ahead.length = s.index + s.ahead.length) ∧
    (∀ (setting : Setting) (fuel : Nat) (inLabels : Bool) {β : Type} (loop again : Nonterminal β)
      (s t : State), Loops loop again →
        Calls setting (run setting fuel) inLabels again t (Grammar.rule loop) s →
        s.index < t.index) ∧
    (∀ session : Session,
      session.ReadsAll (.items .empty) session.unit ∧
      session.ReadsAll .wholeExpr session.expression ∧
      session.ReadsAll .wholeType session.typeUse) ∧
    (∀ (settings : Settings) (source : Source) (before : List Entry) (entry : Entry),
      (((Session.start settings source).afterAll before).after entry).state.index =
        (Session.start settings source).layout.symbols.length) := by
  refine ⟨fun setting fuel inLabels α rule s r t h => ?_,
    fun setting fuel inLabels α β rule nonterminal s t h => ?_,
    fun setting fuel inLabels β loop again s t hloop h => ?_, fun session => ?_,
    fun settings source before entry => ?_⟩
  · exact exec_kept (kept_beyond setting s) (run_keeps (kept_beyond setting s) fuel) rule s h
      ⟨Nat.le_refl _, rfl⟩
  · exact h.kept (kept_beyond setting s) (run_keeps (kept_beyond setting s) fuel)
      ⟨Nat.le_refl _, rfl⟩
  · have hlt := hloop.left_lt h
    have hkept : Beyond s t :=
      h.kept (kept_beyond setting s) (run_keeps (kept_beyond setting s) fuel) ⟨Nat.le_refl _, rfl⟩
    have hsum := hkept.2
    omega
  · exact ⟨session.enter_readsAll _ rfl, session.enter_readsAll _ rfl,
      session.enter_readsAll _ rfl⟩
  · obtain ⟨hindex, hahead⟩ := Session.start_position settings source
    have hkept : Beyond (Session.start settings source).state
        ((Session.start settings source).afterAll before).state :=
      Session.afterAll_kept (kept_beyond _ _) before ⟨Nat.le_refl _, rfl⟩
    have hall : (((Session.start settings source).afterAll before).after entry).state.index =
        ((Session.start settings source).afterAll before).state.index +
          ((Session.start settings source).afterAll before).state.left := by
      cases entry <;> exact (Session.enter_readsAll _ _ rfl).2.2
    rw [hall, hkept.2, hindex, State.left, hahead, Nat.zero_add]

/-- Two stray parentheses, which a failed round of the outermost loop skips. -/
theorem parse_advances_past_parens :
    let layout : Layout :=
      ⟨.ofText "A.java" "))", #[⟨.rparen, ")", 0, 1, none⟩, ⟨.rparen, ")", 1, 2, none⟩]⟩
    let s : State := ⟨layout.symbols, 0, 0, .start true 9, []⟩
    (∃ unit t, Calls ⟨layout, false⟩ (run ⟨layout, false⟩ 40) false (.items unit) t
        (Grammar.rule (.items .empty)) s ∧ s.index < t.index ∧ t.index + t.ahead.length = 2) ∧
      ∃ r t, exec ⟨layout, false⟩ (run ⟨layout, false⟩ 40) false (Grammar.rule (.items .empty)) s =
        some (r, t) ∧ t.index + t.ahead.length = 2 := by
  intro layout s
  obtain ⟨hexec, hcalls, hloop, _⟩ := parse_advances_to_end
  constructor
  · obtain ⟨unit, t, h⟩ : ∃ unit t, Calls ⟨layout, false⟩ (run ⟨layout, false⟩ 40) false
        (.items unit) t (Grammar.rule (.items .empty)) s :=
      ⟨_, _, .look (.after rfl (.report (.look (.advance (.look .here)))))⟩
    exact ⟨unit, t, h, hloop _ _ _ _ _ _ _ (.items _ _) h, (hcalls _ _ _ _ _ _ _ h).2⟩
  · obtain ⟨r, t, h⟩ : ∃ r t, exec ⟨layout, false⟩ (run ⟨layout, false⟩ 40) false
        (Grammar.rule (.items .empty)) s = some (r, t) := ⟨_, _, rfl⟩
    exact ⟨r, t, h, (hexec _ _ _ _ _ _ _ h).2⟩

end JavaSyntax
