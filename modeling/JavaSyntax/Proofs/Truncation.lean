import JavaSyntax.Proofs.Reporting
import JavaSyntax.Proofs.Termination

/-!
A smaller budget only cuts the diagnostics short. Two parses of one source whose budgets differ run
in step, state by state, until the smaller budget is spent. From there on they may part, but the one
logs nothing more and the other only adds to its log.
-/

namespace JavaSyntax

open Diagnostic

/-- Budgets charged with the same errors, of which the second has at least as much room. -/
structure Budget.InStep (b c : Budget) : Prop where
  count_eq : c.count = b.count
  last_eq : c.last = b.last
  running : b.halted = false
  running' : c.halted = false
  room_le : b.capacity ≤ c.capacity
  recovers : c.recover = true

/-- Two parses that so far did the same. -/
def InStep (s t : State) : Prop :=
  ∃ c, t = { s with budget := c } ∧ s.budget.InStep c

/-- The first parse spent its budget on an error that both logged. -/
def CutShort (name : String) (s t : State) : Prop :=
  s.budget.halted = true ∧ ∃ before d rest, d.isError = true ∧
    s.log = before ++ d :: (if s.budget.recover then [State.limitNote d.span name] else []) ∧
    t.log = before ++ d :: rest

/-- How two parses stand: still in step, with results that agree, or one cut short. -/
def Together (name : String) (agree : Prop) (s t : State) : Prop :=
  agree ∧ InStep s t ∨ CutShort name s t

namespace InStep

variable {s t : State}

theorem view_eq (h : InStep s t) (inLabels : Bool) : t.view inLabels = s.view inLabels := by
  obtain ⟨c, rfl, hc⟩ := h
  simp [State.view, hc.running, hc.running']

protected theorem advance (h : InStep s t) (n : Nat) : InStep (s.advance n) (t.advance n) := by
  obtain ⟨c, rfl, hc⟩ := h
  refine ⟨c, ?_, by rwa [State.advance_budget]⟩
  unfold State.advance
  split <;> rfl

protected theorem splitAngle (h : InStep s t) : InStep s.splitAngle t.splitAngle := by
  obtain ⟨c, rfl, hc⟩ := h
  refine ⟨c, ?_, by rwa [State.splitAngle_budget]⟩
  cases hs : s.ahead with
  | nil => simp [State.splitAngle, hs]
  | cons u rest =>
    simp only [State.splitAngle, hs]
    split
    · rw [hs]
    · rfl

protected theorem deprecation (h : InStep s t) (setting : Setting) (doc : Option Mark)
    (name : Extent) : InStep (s.deprecation setting doc name)
      (t.deprecation setting doc name) := by
  obtain ⟨c, rfl, hc⟩ := h
  unfold State.deprecation
  simp only [hc.running, hc.running']
  split
  · exact ⟨c, rfl, hc⟩
  · exact ⟨c, rfl, hc⟩

theorem admits_eq {b c : Budget} (h : b.InStep c) (offset : Nat) :
    c.admits offset = b.admits offset := by
  simp [Budget.admits, h.running, h.running', h.last_eq]

/-- The charge that leaves the smaller budget open leaves the other open too. -/
theorem charge_inStep {b c : Budget} (h : b.InStep c) {offset : Nat}
    (ha : b.admits offset = true) (hopen : (b.charge offset).halted = false) :
    (b.charge offset).InStep (c.charge offset) := by
  have hc : c.admits offset = true := (admits_eq h offset).trans ha
  rw [Budget.charge_admitted ha] at hopen ⊢
  rw [Budget.charge_admitted hc]
  simp only [Bool.or_eq_false_iff, Bool.not_eq_eq_eq_not, Bool.not_false,
    decide_eq_false_iff_not] at hopen
  obtain ⟨hrecover, hlimit⟩ := hopen
  have hroom := h.room_le
  simp only [Budget.capacity, hrecover, h.recovers, if_true] at hroom
  refine ⟨?_, rfl, ?_, ?_, h.room_le, h.recovers⟩
  · simp only [h.count_eq]
  · simp [hrecover, hlimit]
  · have hcount := h.count_eq
    simp only [h.recovers, hcount, Bool.not_true, Bool.false_or, decide_eq_false_iff_not]
    omega

/-- Recording a fault in both parses keeps them in step, or spends the smaller budget. -/
protected theorem record (h : InStep s t) (source : Source) (fault : Fault) (start stop : Nat) :
    Together source.name True (s.record source fault start stop)
      (t.record source fault start stop) := by
  obtain ⟨c, rfl, hc⟩ := h
  have hadmits := admits_eq hc (State.entry source fault start stop).offset
  cases ha : s.budget.admits (State.entry source fault start stop).offset with
  | false =>
    rw [ha] at hadmits
    rw [State.record_refused ha, State.record_refused hadmits]
    exact .inl ⟨trivial, c, rfl, hc⟩
  | true =>
    rw [ha] at hadmits
    rw [State.record_admitted ha, State.record_admitted hadmits]
    generalize hd : State.entry source fault start stop = d at ha
    have hde : d.isError = true := by rw [← hd]; rfl
    cases hhalt : (s.budget.charge d.offset).halted with
    | false =>
      have hstep := charge_inStep hc ha hhalt
      left
      refine ⟨trivial, c.charge d.offset, ?_, hstep⟩
      simp [Budget.hitLimit, hstep.running, hstep.running']
    | true =>
      right
      refine ⟨hhalt, s.log, d, _, hde, ?_, rfl⟩
      simp [Budget.hitLimit, hhalt]

end InStep

/-- A log that began so. -/
theorem kept_log_start (setting : Setting) (log : List Diagnostic) :
    Kept setting fun s => ∃ rest, s.log = log ++ rest := by
  refine kept_of_log (P := fun _ l => ∃ rest, l = log ++ rest) ?_ ?_
  · rintro s fault start stop ⟨rest, h⟩
    cases ha : s.budget.admits (State.entry setting.layout.source fault start stop).offset with
    | false =>
      rw [State.record_refused ha]
      exact ⟨rest, h⟩
    | true =>
      rw [State.record_admitted ha, h]
      exact ⟨_, List.append_assoc ..⟩
  · rintro s w _ _ ⟨rest, h⟩
    exact ⟨rest ++ [w], by rw [h, List.append_assoc]⟩

/-- An entry point only adds to what was reported before. -/
theorem Session.after_log (session : Session) (entry : Entry) :
    ∃ more, (session.after entry).diagnostics = session.diagnostics ++ more :=
  after_kept (kept_log_start session.setting session.diagnostics) entry
    ⟨[], (List.append_nil _).symm⟩

/-- Cut short once, cut short for good: whatever both do then, each on its own. -/
theorem CutShort.mono {name : String} {s t s' t' : State} (h : CutShort name s t)
    (hs : s'.budget = s.budget ∧ s'.log = s.log) (ht : ∃ rest, t'.log = t.log ++ rest) :
    CutShort name s' t' := by
  obtain ⟨hhalt, before, d, rest, hd, hlog, hlog'⟩ := h
  obtain ⟨more, hmore⟩ := ht
  refine ⟨by rw [hs.1]; exact hhalt, before, d, rest ++ more, hd, ?_, ?_⟩
  · rw [hs.1, hs.2, hlog]
  · rw [hmore, hlog', List.append_assoc, List.cons_append]

/-- Callers that keep two parses together. -/
def Caller.InStep (name : String) (first second : Caller) : Prop :=
  ∀ {β : Type} (nonterminal : Nonterminal β) (inLabels : Bool) (s t : State)
    (r q : Except SyntaxError β) (s' t' : State), JavaSyntax.InStep s t →
      first nonterminal inLabels s = some (r, s') → second nonterminal inLabels t = some (q, t') →
      Together name (r = q) s' t'

section Runs

variable {setting : Setting} {inLabels : Bool}

/-- One rule, run for both parses. Until the smaller budget is spent both see the same, so they
take the same branches; what comes after that is covered by what each keeps on its own. -/
theorem exec_together {first second : Caller}
    (hcallers : Caller.InStep setting.layout.source.name first second)
    (hfirst : ∀ P, Kept setting P → Caller.Keeps first P)
    (hsecond : ∀ P, Kept setting P → Caller.Keeps second P) {α : Type} (rule : Rule α)
    (s t : State) {s' t' : State} {r q : Except SyntaxError α} (h : InStep s t)
    (hs : exec setting first inLabels rule s = some (r, s'))
    (ht : exec setting second inLabels rule t = some (q, t')) :
    Together setting.layout.source.name (r = q) s' t' := by
  -- Both go on with a rule each, which need no longer be the same one.
  have hcut {u v : State} (one other : Rule α) (hcut : CutShort setting.layout.source.name u v)
      (hu : exec setting first inLabels one u = some (r, s'))
      (hv : exec setting second inLabels other v = some (q, t')) :
      Together setting.layout.source.name (r = q) s' t' := by
    have hkept := kept_halted setting hcut.1 u.log
    have hgrows := kept_log_start setting v.log
    exact .inr (hcut.mono (exec_kept hkept (hfirst _ hkept) one u hu ⟨rfl, rfl⟩)
      (exec_kept hgrows (hsecond _ hgrows) other v hv ⟨[], (List.append_nil _).symm⟩))
  induction rule generalizing s t with
  | done value =>
    cases hs
    cases ht
    exact .inl ⟨rfl, h⟩
  | fail error =>
    cases hs
    cases ht
    exact .inl ⟨rfl, h⟩
  | look rest ih =>
    simp only [exec, h.view_eq] at hs ht
    exact ih _ s t h hs ht
  | advance n rest ih => exact ih _ _ (h.advance n) hs ht
  | splitAngle rest ih => exact ih _ _ h.splitAngle hs ht
  | report error rest ih =>
    rcases h.record setting.layout.source error.fault (setting.layout.offset error.extent.start)
      (setting.layout.offset error.extent.stop) with ⟨_, hstep⟩ | hshort
    · exact ih _ _ hstep hs ht
    · exact hcut rest rest hshort hs ht
  | deprecation doc name rest ih => exact ih _ _ (h.deprecation setting doc name) hs ht
  | call nonterminal asLabels rest ih =>
    cases hone : first nonterminal (inLabels || asLabels) s with
    | none => simp [exec, hone] at hs
    | some out =>
      cases hother : second nonterminal (inLabels || asLabels) t with
      | none => simp [exec, hother] at ht
      | some out' =>
        simp only [exec, hone] at hs
        simp only [exec, hother] at ht
        rcases hcallers nonterminal _ s t _ _ _ _ h hone hother with ⟨hagree, hstep⟩ | hshort
        · rw [hagree] at hs
          exact ih _ _ _ hstep hs ht
        · exact hcut _ _ hshort hs ht

theorem run_inStep (setting : Setting) (fuel : Nat) :
    Caller.InStep setting.layout.source.name (run setting fuel) (run setting fuel) := by
  induction fuel with
  | zero =>
    intro β nonterminal inLabels s t r q s' t' _ hs
    cases hs
  | succ fuel ih =>
    intro β nonterminal inLabels s t r q s' t' h hs ht
    exact exec_together ih (fun P hP => run_keeps hP fuel) (fun P hP => run_keeps hP fuel) _ s t h
      hs ht

end Runs

theorem Together.record {setting : Setting} {s t : State}
    (h : Together setting.layout.source.name True s t) (fault : Fault) (start stop : Nat) :
    Together setting.layout.source.name True (s.record setting.layout.source fault start stop)
      (t.record setting.layout.source fault start stop) := by
  rcases h with ⟨_, hstep⟩ | hcut
  · exact hstep.record _ fault start stop
  · exact .inr (hcut.mono ((kept_halted setting hcut.1 s.log).record s _ _ _ ⟨rfl, rfl⟩)
      ((kept_log_start setting t.log).record t _ _ _ ⟨[], (List.append_nil _).symm⟩))

namespace Session

theorem reportFlaws_together (setting : Setting) (flawed : List FlawedText) {s t : State}
    (h : Together setting.layout.source.name True s t) :
    Together setting.layout.source.name True (reportFlaws setting.layout.source flawed s)
      (reportFlaws setting.layout.source flawed t) := by
  induction flawed generalizing s t with
  | nil => exact h
  | cons f rest ih => exact ih (h.record _ _ _)

theorem enter_together {α : Type} {session other : Session} (hset : other.setting = session.setting)
    {entry : Nonterminal α} (spare : α) (hw : entry.isWhole = true)
    (h : Together session.setting.layout.source.name True session.state other.state) :
    Together session.setting.layout.source.name True (session.enter entry spare).2.state
      (other.enter entry spare).2.state := by
  rcases h with ⟨_, hstep⟩ | hcut
  · -- In step both have the same symbols ahead, so one fuel is enough for both.
    have hfuel : fuel other.state = fuel session.state := by
      obtain ⟨c, hc, _⟩ := hstep
      rw [hc]
      rfl
    have hone := (session.enter_readsAll spare hw).1 _ (Nat.le_refl _)
    have hother := (other.enter_readsAll spare hw).1 _ (Nat.le_of_eq hfuel)
    rw [hset] at hother
    have htogether := run_inStep session.setting _ entry false _ _ _ _ _ _ hstep hone hother
    exact htogether.imp_left fun hagree => ⟨trivial, hagree.2⟩
  · have hkept := kept_halted session.setting hcut.1 session.state.log
    have hgrows := kept_log_start other.setting other.state.log
    exact .inr (hcut.mono (enter_kept hkept entry spare ⟨rfl, rfl⟩)
      (enter_kept hgrows entry spare ⟨[], (List.append_nil _).symm⟩))

theorem afterAll_together (session other : Session) (hset : other.setting = session.setting)
    (entries : List Entry)
    (h : Together session.setting.layout.source.name True session.state other.state) :
    Together session.setting.layout.source.name True (session.afterAll entries).state
      (other.afterAll entries).state := by
  induction entries generalizing session other with
  | nil => exact h
  | cons entry entries ih =>
    have hstep : Together session.setting.layout.source.name True (session.after entry).state
        (other.after entry).state := by
      cases entry <;> exact enter_together hset _ rfl h
    have hset' : (other.after entry).setting = (session.after entry).setting := by
      rw [after_setting, after_setting, hset]
    have hrest := ih _ _ hset' (by rwa [after_setting])
    rwa [after_setting] at hrest

/-- What is logged with this budget, the other settings and the entry points being fixed. -/
def logged (settings : Settings) (source : Source) (entries : List Entry) (recover : Bool)
    (limit : Nat) : List Diagnostic :=
  ((start { settings with recover := recover, maxErrors := limit } source).afterAll
    entries).diagnostics

/-- Against a larger budget with recovery, a budget shows all there is, or it ends with the error
that spent it. -/
theorem logged_cases (settings : Settings) (source : Source) (entries : List Entry)
    (recover : Bool) (limit more : Nat)
    (hle : (Budget.start recover limit).capacity ≤ max more 1) :
    let capacity := (Budget.start recover limit).capacity
    let all := logged settings source entries true more
    let log := logged settings source entries recover limit
    (all.countP isError < capacity ∧ log = all) ∨
      ∃ before d rest, d.isError = true ∧ before.countP isError + 1 = capacity ∧
        all = before ++ d :: rest ∧
        log = before ++ d :: if recover then [State.limitNote d.span source.name] else [] := by
  intro capacity all log
  let small : Settings := { settings with recover := recover, maxErrors := limit }
  let large : Settings := { settings with recover := true, maxErrors := more }
  have haccounted := afterAll_accounted small source entries
  obtain ⟨hrecover, hlimit⟩ := afterAll_terms small source entries
  have hcap : ((start small source).afterAll entries).state.budget.capacity = capacity := by
    unfold Budget.capacity
    rw [hrecover, hlimit]
    rfl
  have hbudget : (Budget.start recover limit).InStep (.start true more) :=
    ⟨rfl, rfl, rfl, rfl, hle, rfl⟩
  have hstart : Together source.name True (start small source).state (start large source).state :=
    reportFlaws_together (start small source).setting _
      (.inl ⟨trivial, _, rfl, hbudget⟩)
  rcases afterAll_together (start small source) (start large source) rfl entries hstart with
    ⟨_, hstep⟩ | hcut
  · left
    obtain ⟨c, hc, hbudgets⟩ := hstep
    have hlog : log = all := by
      show ((start small source).afterAll entries).state.log =
        ((start large source).afterAll entries).state.log
      rw [hc]
    refine ⟨?_, hlog⟩
    rw [← hlog, ← hcap]
    exact haccounted.countP ▸ (haccounted.running hbudgets.running).1
  · right
    obtain ⟨hhalt, before, d, rest, hd, hlog, hall⟩ := hcut
    have hlog : log =
        before ++ d :: if recover then [State.limitNote d.span source.name] else [] := by
      rwa [hrecover] at hlog
    refine ⟨before, d, rest, hd, ?_, hall, hlog⟩
    have hcount : (errors (before ++ d ::
        if recover then [State.limitNote d.span source.name] else [])).length = capacity := by
      rw [← hlog, ← hcap]
      exact haccounted.count.trans (haccounted.halted hhalt).1
    rw [Accounted.errors_entry hd, List.length_append] at hcount
    rw [List.countP_eq_length_filter]
    exact hcount

/-- The limit of errors only truncates. With room for fewer errors the diagnostics are those with
room for more, up to the error that spends the budget and with a note behind it; without recovery
they are those up to the first error. -/
theorem diagnostics_truncate (settings : Settings) (source : Source) (entries : List Entry)
    (m n : Nat) (hm : 1 ≤ m) (hmn : m ≤ n) :
    let all := logged settings source entries true n
    (all.countP isError < m → logged settings source entries true m = all) ∧
    (m ≤ all.countP isError →
      ∃ before d rest, all = before ++ d :: rest ∧ d.isError = true ∧
        before.countP isError + 1 = m ∧
        logged settings source entries true m =
          before ++ [d, State.limitNote d.span source.name]) ∧
    (∀ limit, all.countP isError = 0 → logged settings source entries false limit = all) ∧
    (∀ limit, 0 < all.countP isError →
      ∃ before d rest, all = before ++ d :: rest ∧ d.isError = true ∧
        before.countP isError = 0 ∧
        logged settings source entries false limit = before ++ [d]) := by
  intro all
  have hcap : (Budget.start true m).capacity = m := Nat.max_eq_left hm
  have hcount {before rest : List Diagnostic} {d : Diagnostic} (hd : d.isError = true)
      (hall : all = before ++ d :: rest) : before.countP isError + 1 ≤ all.countP isError := by
    rw [hall, List.countP_append, List.countP_cons_of_pos hd]
    omega
  refine ⟨fun hfew => ?_, fun hmany => ?_, fun limit hnone => ?_, fun limit hsome => ?_⟩
  · rcases logged_cases settings source entries true m n (by rw [hcap]; omega) with
      ⟨_, hlog⟩ | ⟨before, d, rest, hd, hbefore, hall, _⟩
    · exact hlog
    · have hle := hcount hd hall
      omega
  · rcases logged_cases settings source entries true m n (by rw [hcap]; omega) with
      ⟨hfew, _⟩ | ⟨before, d, rest, hd, hbefore, hall, hlog⟩
    · have hless : all.countP isError < (Budget.start true m).capacity := hfew
      omega
    · exact ⟨before, d, rest, hall, hd, hbefore.trans hcap, hlog⟩
  · rcases logged_cases settings source entries false limit n (Nat.le_max_right ..) with
      ⟨_, hlog⟩ | ⟨before, d, rest, hd, _, hall, _⟩
    · exact hlog
    · have hle := hcount hd hall
      omega
  · rcases logged_cases settings source entries false limit n (Nat.le_max_right ..) with
      ⟨hfew, _⟩ | ⟨before, d, rest, hd, hbefore, hall, hlog⟩
    · have hone : all.countP isError < 1 := hfew
      omega
    · exact ⟨before, d, rest, hall, hd, Nat.succ.inj hbefore, hlog⟩

/-- Three errors, of which a limit of two shows the first two and a note. -/
theorem diagnostics_truncate_at_second :
    let source := Source.ofText "A.java" "););)"
    let all := logged .standard source [.unit] true 9
    all.countP isError = 3 ∧
      (∃ before d rest, all = before ++ d :: rest ∧ d.isError = true ∧
        before.countP isError + 1 = 2 ∧
        logged .standard source [.unit] true 2 =
          before ++ [d, State.limitNote d.span source.name]) ∧
      ∃ before d rest, all = before ++ d :: rest ∧ d.isError = true ∧
        before.countP isError = 0 ∧ logged .standard source [.unit] false 2 = before ++ [d] := by
  intro source all
  have hthree : all.countP isError = 3 := by decide
  obtain ⟨_, hlimited, _, hstrict⟩ :=
    diagnostics_truncate .standard source [.unit] 2 9 (by decide) (by decide)
  exact ⟨hthree, hlimited (hthree ▸ by decide), hstrict 2 (hthree ▸ by decide)⟩

end Session

end JavaSyntax
