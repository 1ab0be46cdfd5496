import JavaSyntax.Proofs.Lexing
import JavaSyntax.Proofs.Reporting

/-!
Documentation beside a parse. Two parses of one text may differ in whether documentation is kept and
in whether items that only it calls deprecated are warned about. They go the same way all the same,
step by step: no rule sees a documentation comment, and a warning takes nothing from the budget.
-/

namespace JavaSyntax

namespace Diagnostic

/-- A warning that only its documentation calls an item deprecated. -/
def isDeprecation (d : Diagnostic) : Bool :=
  d.severity == .warning && d.code == .missingDeprecated

/-- What a log tells besides such warnings. -/
def essential (log : List Diagnostic) : List Diagnostic :=
  log.filter fun d => !d.isDeprecation

theorem essential_append (log more : List Diagnostic) :
    essential (log ++ more) = essential log ++ essential more :=
  List.filter_append ..

end Diagnostic

open Diagnostic (essential essential_append)

/-- Two settings lay out one source alike; its documentation may be kept or warned about in one of
them only. -/
structure Setting.SameText (a b : Setting) : Prop where
  source : a.layout.source = b.layout.source
  offset : ∀ m, a.layout.offset m = b.layout.offset m

/-- Two states of parses that agree on all but warnings about deprecated items. -/
structure State.Alike (s t : State) : Prop where
  ahead : s.ahead = t.ahead
  index : s.index = t.index
  taken : s.taken = t.taken
  budget : s.budget = t.budget
  log : essential s.log = essential t.log

namespace State.Alike

variable {a b : Setting} {s t u : State}

theorem refl (s : State) : s.Alike s := ⟨rfl, rfl, rfl, rfl, rfl⟩

theorem symm (h : s.Alike t) : t.Alike s :=
  ⟨h.ahead.symm, h.index.symm, h.taken.symm, h.budget.symm, h.log.symm⟩

theorem trans (h : s.Alike t) (h' : t.Alike u) : s.Alike u :=
  ⟨h.ahead.trans h'.ahead, h.index.trans h'.index, h.taken.trans h'.taken,
    h.budget.trans h'.budget, h.log.trans h'.log⟩

/-- A rule sees the same in both. -/
theorem view (h : s.Alike t) (inLabels : Bool) : s.view inLabels = t.view inLabels := by
  unfold State.view
  rw [h.ahead, h.index, h.taken, h.budget]

theorem advance (h : s.Alike t) (n : Nat) : (s.advance n).Alike (t.advance n) := by
  unfold State.advance
  split
  · exact h
  · exact ⟨congrArg (List.drop n) h.ahead, by rw [h.index, h.ahead], rfl, h.budget, h.log⟩

theorem splitAngle (h : s.Alike t) : s.splitAngle.Alike t.splitAngle := by
  unfold State.splitAngle
  rw [← h.ahead]
  split
  · exact h
  · split
    · exact h
    · exact ⟨rfl, h.index, congrArg (· + 1) h.taken, h.budget, h.log⟩

theorem record (h : s.Alike t) (source : Source) (fault : Fault) (start stop : Nat) :
    (s.record source fault start stop).Alike (t.record source fault start stop) := by
  cases ha : s.budget.admits (State.entry source fault start stop).offset with
  | true =>
    have ha' := ha
    rw [h.budget] at ha'
    rw [State.record_admitted ha, State.record_admitted ha', h.budget]
    refine ⟨h.ahead, h.index, h.taken, rfl, ?_⟩
    rw [essential_append, essential_append, h.log]
  | false =>
    have ha' := ha
    rw [h.budget] at ha'
    rw [State.record_refused ha, State.record_refused ha']
    exact h

theorem report (hab : a.SameText b) (h : s.Alike t) (error : SyntaxError) :
    (s.report a.layout error).Alike (t.report b.layout error) := by
  unfold State.report
  rw [hab.source, hab.offset, hab.offset]
  exact h.record ..

/-- Warning about an item is not to be told from leaving it at that. -/
theorem of_deprecation (s : State) (setting : Setting) (doc : Option Mark) (name : Extent) :
    s.Alike (s.deprecation setting doc name) := by
  unfold State.deprecation
  split
  · refine ⟨rfl, rfl, rfl, rfl, ?_⟩
    rw [essential_append]
    exact (List.append_nil _).symm
  · exact refl s

/-- The two parses may well differ in whether they warn. -/
theorem deprecation (h : s.Alike t) (doc : Option Mark) (name : Extent) :
    (s.deprecation a doc name).Alike (t.deprecation b doc name) :=
  (of_deprecation s a doc name).symm.trans (h.trans (of_deprecation t b doc name))

end State.Alike

/-- Two runs end alike, with the same value or fault, or both run out of fuel. -/
def Outcome.Alike {α : Type} : Outcome α → Outcome α → Prop :=
  Option.Rel fun p q => p.1 = q.1 ∧ p.2.Alike q.2

/-- A rule goes the same way in both parses if what it calls does. -/
theorem exec_alike {a b : Setting} (hab : a.SameText b) {first second : Caller}
    (hcall : ∀ {β : Type} (nonterminal : Nonterminal β) (flag : Bool) {s t : State}, s.Alike t →
      Outcome.Alike (first nonterminal flag s) (second nonterminal flag t))
    {α : Type} (rule : Rule α) (inLabels : Bool) {s t : State} (h : s.Alike t) :
    Outcome.Alike (exec a first inLabels rule s) (exec b second inLabels rule t) := by
  induction rule generalizing s t with
  | done value => exact .some ⟨rfl, h⟩
  | fail error => exact .some ⟨rfl, h⟩
  | look rest ih =>
    simp only [exec, h.view]
    exact ih _ h
  | advance n rest ih => exact ih (h.advance n)
  | splitAngle rest ih => exact ih h.splitAngle
  | report error rest ih => exact ih (h.report hab error)
  | deprecation start name rest ih => exact ih (h.deprecation start name)
  | call nonterminal asLabels rest ih =>
    have hends := hcall nonterminal (inLabels || asLabels) h
    simp only [exec]
    generalize first nonterminal (inLabels || asLabels) s = out at hends ⊢
    generalize second nonterminal (inLabels || asLabels) t = out' at hends ⊢
    cases hends with
    | none => exact .none
    | @some p q hpq =>
      obtain ⟨r, s'⟩ := p
      obtain ⟨r', t'⟩ := q
      obtain ⟨rfl, hst⟩ := hpq
      exact ih r hst

theorem run_alike {a b : Setting} (hab : a.SameText b) (fuel : Nat) {β : Type}
    (nonterminal : Nonterminal β) (flag : Bool) {s t : State} (h : s.Alike t) :
    Outcome.Alike (run a fuel nonterminal flag s) (run b fuel nonterminal flag t) := by
  induction fuel generalizing β flag s t with
  | zero => exact .none
  | succ fuel ih => exact exec_alike hab ih (Grammar.rule nonterminal) flag h

namespace Session

/-- Two sessions that parse one text and agree on all but warnings about deprecated items. -/
structure Alike (x y : Session) : Prop where
  setting : x.setting.SameText y.setting
  state : x.state.Alike y.state

variable {x y : Session}

theorem Alike.enter (h : x.Alike y) {α : Type} (entry : Nonterminal α) (spare : α) :
    (x.enter entry spare).1 = (y.enter entry spare).1 ∧
      (x.enter entry spare).2.Alike (y.enter entry spare).2 := by
  have hends := run_alike h.setting (fuel x.state) entry false h.state
  have hfuel : fuel x.state = fuel y.state := by
    unfold fuel
    rw [h.state.ahead]
  unfold Session.enter
  rw [← hfuel]
  generalize run x.setting (fuel x.state) entry false x.state = out at hends ⊢
  generalize run y.setting (fuel x.state) entry false y.state = out' at hends ⊢
  cases hends with
  | none => exact ⟨rfl, h⟩
  | @some p q hpq =>
    obtain ⟨r, s⟩ := p
    obtain ⟨r', t⟩ := q
    obtain ⟨rfl, hst⟩ := hpq
    cases r with
    | error error => exact ⟨rfl, h⟩
    | ok tree => exact ⟨rfl, h.setting, hst⟩

theorem Alike.after (h : x.Alike y) (entry : Entry) : (x.after entry).Alike (y.after entry) := by
  cases entry <;> exact (h.enter _ _).2

theorem Alike.afterAll (h : x.Alike y) (entries : List Entry) :
    (x.afterAll entries).Alike (y.afterAll entries) := by
  induction entries generalizing x y with
  | nil => exact h
  | cons entry entries ih => exact ih (h.after entry)

theorem Alike.span (h : x.Alike y) (extent : Extent) :
    x.layout.span extent = y.layout.span extent := by
  unfold Layout.span layout
  rw [h.setting.source, h.setting.offset, h.setting.offset]

/-- Both parses start in front of the same symbols, with the same flawed texts reported. -/
theorem start_alike (settings : Settings) (keepDocs deprecation : Bool) (source : Source) :
    (start settings source).Alike
      (start { settings with keepDocs := keepDocs, deprecation := deprecation } source) where
  setting := {
    source := rfl
    offset := fun m => (offset_start ..).trans (offset_start ..).symm }
  state := by
    rw [start_state_eq, start_state_eq]
    exact .refl _

/-- Whatever entry points are called on a session, keeping documentation and warning about
deprecated items decides neither what they read, nor where it stands, nor which errors and notes are
logged, in which order. -/
theorem parse_ignores_docs (settings : Settings) (keepDocs deprecation : Bool) (source : Source)
    (before : List Entry) :
    let session := (start settings source).afterAll before
    let other := (start { settings with keepDocs := keepDocs, deprecation := deprecation }
      source).afterAll before
    session.unit.1 = other.unit.1 ∧
    session.expression.1 = other.expression.1 ∧
    session.typeUse.1 = other.typeUse.1 ∧
    (∀ extent, session.layout.span extent = other.layout.span extent) ∧
    ∀ entry, essential (session.after entry).diagnostics =
      essential (other.after entry).diagnostics := by
  intro session other
  have h : session.Alike other := (start_alike settings keepDocs deprecation source).afterAll before
  exact ⟨(h.enter _ _).1, (h.enter _ _).1, (h.enter _ _).1, h.span,
    fun entry => (h.after entry).state.log⟩

end Session

end JavaSyntax
