import JavaSyntax.Parse.Session

/-!
Invariants of a parse. A rule touches the state of a parse through four steps only, so a property
that each of these keeps is kept by every rule, by every run of a nonterminal, and by any sequence
of entry points called on one session.
-/

namespace JavaSyntax

/-- A property of states that no step of a rule breaks. -/
structure Kept (setting : Setting) (P : State → Prop) : Prop where
  advance : ∀ s n, P s → P (s.advance n)
  splitAngle : ∀ s, P s → P s.splitAngle
  record : ∀ s fault start stop, P s → P (s.record setting.layout.source fault start stop)
  deprecation : ∀ s doc name, P s → P (s.deprecation setting doc name)

/-- A caller that keeps a property, whatever it is called for. -/
def Caller.Keeps (caller : Caller) (P : State → Prop) : Prop :=
  ∀ {β : Type} (nonterminal : Nonterminal β) (inLabels : Bool) (s : State)
    (r : Except SyntaxError β) (t : State),
    caller nonterminal inLabels s = some (r, t) → P s → P t

theorem exec_kept {setting : Setting} {P : State → Prop} {caller : Caller} {inLabels : Bool}
    (hP : Kept setting P) (hc : caller.Keeps P) {α : Type} (rule : Rule α) (s : State)
    {r : Except SyntaxError α} {t : State}
    (he : exec setting caller inLabels rule s = some (r, t)) (hs : P s) : P t := by
  induction rule generalizing s with
  | done value =>
    cases he
    exact hs
  | fail error =>
    cases he
    exact hs
  | look rest ih => exact ih _ s he hs
  | advance n rest ih => exact ih _ he (hP.advance s n hs)
  | splitAngle rest ih => exact ih _ he (hP.splitAngle s hs)
  | report error rest ih => exact ih _ he (hP.record s _ _ _ hs)
  | deprecation doc name rest ih => exact ih _ he (hP.deprecation s doc name hs)
  | call nonterminal asLabels rest ih =>
    cases hcall : caller nonterminal (inLabels || asLabels) s with
    | none => simp [exec, hcall] at he
    | some out =>
      obtain ⟨result, u⟩ := out
      simp only [exec, hcall] at he
      exact ih result u he (hc nonterminal _ s result u hcall hs)

/-- The fuel only bounds the depth of calls, so the induction on it meets each rule once. -/
theorem run_keeps {setting : Setting} {P : State → Prop} (hP : Kept setting P) (fuel : Nat) :
    Caller.Keeps (run setting fuel) P := by
  induction fuel with
  | zero =>
    intro β nonterminal inLabels s r t h
    cases h
  | succ fuel ih =>
    intro β nonterminal inLabels s r t h hs
    exact exec_kept hP ih (Grammar.rule nonterminal) s h hs

/-- What a parse can be asked for. -/
inductive Entry where
  | unit
  | expression
  | typeUse
deriving DecidableEq

namespace Session

/-- The session after one entry point was called. -/
def after (session : Session) : Entry → Session
  | .unit => session.unit.2
  | .expression => session.expression.2
  | .typeUse => session.typeUse.2

/-- The session after entry points were called one after the other. -/
def afterAll (session : Session) (entries : List Entry) : Session :=
  entries.foldl after session

theorem enter_setting {α : Type} (session : Session) (entry : Nonterminal α) (spare : α) :
    (session.enter entry spare).2.setting = session.setting := by
  unfold enter
  split <;> rfl

theorem enter_kept {α : Type} {session : Session} {P : State → Prop}
    (hP : Kept session.setting P) (entry : Nonterminal α) (spare : α) (hs : P session.state) :
    P (session.enter entry spare).2.state := by
  unfold enter
  split
  · rename_i tree t he
    exact run_keeps hP _ entry false _ _ _ he hs
  · exact hs

theorem reportFlaws_kept {setting : Setting} {P : State → Prop} (hP : Kept setting P)
    (flawed : List FlawedText) (s : State) (hs : P s) :
    P (reportFlaws setting.layout.source flawed s) := by
  induction flawed generalizing s with
  | nil => exact hs
  | cons t rest ih => exact ih _ (hP.record s _ _ _ hs)

/-- Starting a session reports the flawed texts one by one, so a new session has what the first
state has and every step keeps. -/
theorem start_kept {settings : Settings} {source : Source} {P : State → Prop}
    (hP : Kept (start settings source).setting P)
    (hs : ∀ ts, P ⟨ts, 0, 0, .start settings.recover settings.maxErrors, []⟩) :
    P (start settings source).state :=
  reportFlaws_kept hP _ _ (hs _)

@[simp] theorem after_setting (session : Session) (entry : Entry) :
    (session.after entry).setting = session.setting := by
  cases entry <;> exact enter_setting ..

theorem after_kept {session : Session} {P : State → Prop} (hP : Kept session.setting P)
    (entry : Entry) (hs : P session.state) : P (session.after entry).state := by
  cases entry <;> exact enter_kept hP _ _ hs

theorem afterAll_kept {session : Session} {P : State → Prop} (hP : Kept session.setting P)
    (entries : List Entry) (hs : P session.state) : P (session.afterAll entries).state := by
  induction entries generalizing session with
  | nil => exact hs
  | cons entry entries ih =>
    have hP' : Kept (session.after entry).setting P := by rwa [after_setting]
    exact ih hP' (after_kept hP entry hs)

end Session

end JavaSyntax
