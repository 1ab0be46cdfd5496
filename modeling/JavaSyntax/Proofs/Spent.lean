import JavaSyntax.Proofs.Evaluation
import JavaSyntax.Proofs.Reporting

/-!
A session that is spent. The first entry point takes all there is to take, so every later one starts
at the end of the file. There a unit is empty, and nothing else can be read: the fault is always the
same one at the same place, which the budget admits once at most.
-/

namespace JavaSyntax

open Grammar Rule

/-- What is wrong where something must stand and the file ends. -/
def SyntaxError.atEnd : SyntaxError := ⟨.prematureEof, .point .eof⟩

/-- An error marker where the file ends. -/
def Tree.erroneousEnd : Tree .expr := .erroneousExpr (.point .eof)

namespace State

/-- A fault that is told twice in a row is logged once. -/
theorem report_again (s : State) (layout : Layout) (error : SyntaxError) :
    (s.report layout error).report layout error = s.report layout error := by
  unfold report
  generalize layout.offset error.extent.start = start
  generalize layout.offset error.extent.stop = stop
  cases ha : s.budget.admits (entry layout.source error.fault start stop).offset with
  | false => rw [record_refused ha, record_refused ha]
  | true =>
    rw [record_admitted ha]
    refine record_refused ?_
    show (s.budget.charge _).admits _ = false
    rw [Budget.charge_admitted ha]
    simp [Budget.admits, entry, Diagnostic.offset]

/-- The fault adds nothing to the log, or itself, or itself and that the limit is reached. -/
theorem report_log (s : State) (layout : Layout) (error : SyntaxError) :
    ∃ added, (s.report layout error).log = s.log ++ added ∧
      (added = [] ∨ ∃ d : Diagnostic, d.isError = true ∧ d.code = error.fault.code ∧
        d.span = layout.span error.extent ∧
        (added = [d] ∨ added = [d, limitNote d.span layout.source.name])) := by
  unfold report
  generalize hd : entry layout.source error.fault (layout.offset error.extent.start)
    (layout.offset error.extent.stop) = d
  cases ha : s.budget.admits d.offset with
  | false =>
    rw [← hd] at ha
    exact ⟨[], by rw [record_refused ha, List.append_nil], .inl rfl⟩
  | true =>
    rw [← hd] at ha
    refine ⟨_, congrArg log (record_admitted ha), .inr ⟨d, ?_⟩⟩
    subst hd
    refine ⟨rfl, rfl, rfl, ?_⟩
    split
    · exact .inr rfl
    · exact .inl rfl

end State

/-- From the end of the file on nothing was taken. -/
theorem View.since_eof (v : View) : v.since .eof = .point .eof :=
  if_neg fun h => Bool.false_ne_true h.2

section AtEnd

variable {setting : Setting} {s : State}

/-! Every rule of an expression calls the next one before it takes a symbol, down to the primary. -/

theorem run_expr_atEnd (hs : s.ahead = []) (fuel : Nat) :
    run setting (fuel + 4) .expr false s = some (.error .atEnd, s) := by
  obtain ⟨ahead, index, taken, budget, log⟩ := s
  cases hs
  rfl

theorem run_type_atEnd (hs : s.ahead = []) (fuel : Nat) :
    run setting (fuel + 2) .type false s = some (.error .atEnd, s) := by
  obtain ⟨ahead, index, taken, budget, log⟩ := s
  cases hs
  rfl

theorem run_items_atEnd (hs : s.ahead = []) (unit : CompilationUnit) (fuel : Nat) :
    run setting (fuel + 1) (.items unit) false s = some (.ok unit, s) := by
  obtain ⟨ahead, index, taken, budget, log⟩ := s
  cases hs
  rfl

/-- What cannot be read at the end of the file becomes an error marker there. -/
theorem whole_atEnd {α : Type} {nonterminal : Nonterminal α} {wrap : α → Tree .expr}
    (hs : s.ahead = []) {fuel : Nat}
    (h : run setting fuel nonterminal false s = some (.error .atEnd, s)) :
    (whole nonterminal wrap).Ensures setting (evaluates setting) false s fun r t =>
      r = .ok .erroneousEnd ∧ t = s.report setting.layout .atEnd := by
  unfold whole
  rw [ensures_attempt_bind]
  refine ⟨⟨fuel, _, h⟩, ?_⟩
  rintro r t ⟨fuel', h'⟩
  cases run_unique h h'
  generalize hu : s.report setting.layout .atEnd = u
  have hahead : u.ahead = [] := by rw [← hu, State.ahead_report, hs]
  show Ensures _ _ _ (report .atEnd >>= fun _ => absorbRest >>= fun extent =>
    finish >>= fun _ => pure (Tree.erroneousExpr extent)) _ _
  rw [ensures_report_bind, hu]
  obtain ⟨ahead, index, taken, budget, log⟩ := u
  cases hahead
  exact ⟨congrArg (Except.ok ∘ Tree.erroneousExpr) (View.since_eof _), rfl⟩

end AtEnd

namespace Session

variable {session : Session}

theorem unit_atEnd (hs : session.state.ahead = []) : session.unit = (.empty, session) :=
  enter_of_ensures rfl (ensures_of_exec (run_items_atEnd hs .empty 0) ⟨rfl, rfl⟩)

theorem expression_atEnd (hs : session.state.ahead = []) : session.expression =
    (.erroneousEnd, { session with state := session.state.report session.layout .atEnd }) :=
  enter_of_ensures rfl (whole_atEnd hs (run_expr_atEnd hs 0))

theorem typeUse_atEnd (hs : session.state.ahead = []) : session.typeUse =
    (.erroneousEnd, { session with state := session.state.report session.layout .atEnd }) :=
  enter_of_ensures rfl (whole_atEnd hs (run_type_atEnd hs 0))

/-- A later session of one parse that was spent: at most the fault at the end was told since. -/
structure Since (spent session : Session) : Prop where
  setting : session.setting = spent.setting
  ahead : session.state.ahead = []
  state : session.state = spent.state ∨ session.state = spent.state.report spent.layout .atEnd

theorem Since.after {spent : Session} (h : spent.Since session) (entry : Entry) :
    spent.Since (session.after entry) := by
  have hreported : spent.Since
      { session with state := session.state.report session.layout .atEnd } := by
    refine ⟨h.setting, (State.ahead_report ..).trans h.ahead, .inr ?_⟩
    show session.state.report session.setting.layout .atEnd = _
    rw [h.setting]
    rcases h.state with hstate | hstate
    · rw [hstate]
      rfl
    · rw [hstate]
      exact State.report_again ..
  cases entry with
  | unit =>
    show spent.Since session.unit.2
    rwa [unit_atEnd h.ahead]
  | expression =>
    show spent.Since session.expression.2
    rwa [expression_atEnd h.ahead]
  | typeUse =>
    show spent.Since session.typeUse.2
    rwa [typeUse_atEnd h.ahead]

theorem Since.afterAll {spent : Session} (h : spent.Since session) (entries : List Entry) :
    spent.Since (session.afterAll entries) := by
  induction entries generalizing session with
  | nil => exact h
  | cons entry entries ih => exact ih (h.after entry)

theorem after_ahead (session : Session) (entry : Entry) :
    (session.after entry).state.ahead = [] := by
  cases entry <;> exact (session.enter_readsAll _ rfl).2.1

/-- Whatever entry points are called after the first one: a unit is empty and leaves all as it is,
an expression or a type is an error marker of no width at the end of the file, and all of them
together log one error at most, there, and that it was the last one allowed. -/
theorem spent_stays_spent (settings : Settings) (source : Source) (first : Entry)
    (more : List Entry) :
    let spent := (start settings source).after first
    let session := spent.afterAll more
    let eof := source.spanOf source.size source.size
    session.unit = (.empty, session) ∧
    session.expression.1 = .erroneousExpr (.point .eof) ∧
    session.typeUse.1 = .erroneousExpr (.point .eof) ∧
    session.layout.span (.point .eof) = eof ∧
    ∃ added, session.diagnostics = spent.diagnostics ++ added ∧
      (added = [] ∨ ∃ d : Diagnostic, d.isError = true ∧ d.code = .prematureEof ∧ d.span = eof ∧
        (added = [d] ∨ added = [d, State.limitNote eof source.name])) := by
  intro spent session eof
  have hspent : spent.setting = (start settings source).setting := after_setting ..
  have hstart : spent.Since spent := ⟨rfl, after_ahead .., .inl rfl⟩
  have h : spent.Since session := hstart.afterAll more
  have hsource : session.layout.source = source := by
    show session.setting.layout.source = source
    rw [h.setting, hspent]
    rfl
  have hspan : session.layout.span (.point .eof) = eof := by
    show session.layout.source.spanOf session.layout.source.size session.layout.source.size = eof
    rw [hsource]
  refine ⟨unit_atEnd h.ahead, congrArg Prod.fst (expression_atEnd h.ahead),
    congrArg Prod.fst (typeUse_atEnd h.ahead), hspan, ?_⟩
  rcases h.state with hstate | hstate
  · exact ⟨[], by rw [diagnostics, hstate, List.append_nil]; rfl, .inl rfl⟩
  · obtain ⟨added, hlog, hadded⟩ := spent.state.report_log spent.layout .atEnd
    refine ⟨added, (congrArg State.log hstate).trans hlog, hadded.imp_right ?_⟩
    have hlayout : spent.layout = session.layout := congrArg Setting.layout h.setting.symm
    rintro ⟨d, herror, hcode, hplace, hd⟩
    rw [hlayout] at hplace hd
    have heof : d.span = eof := hplace.trans hspan
    rw [heof, hsource] at hd
    exact ⟨d, herror, hcode, heof, hd⟩

end Session

end JavaSyntax
