import JavaSyntax.Proofs.Coverage
import JavaSyntax.Proofs.Truncation

/-!
Whether a text is accepted as one declaration depends on the tree of the whole file, and the tree on
how far the budget lets the parse go on after a fault. A parse that does not spend its budget reads
the text as one with all the room there is, so all such budgets give one verdict. A spent budget
does not: behind the fault that spends it the rest of the file becomes a form of its own.
-/

namespace JavaSyntax

open Diagnostic (isError)

/-- The settings with another budget of errors. -/
def Settings.withBudget (settings : Settings) (recover : Bool) (limit : Nat) : Settings :=
  { settings with recover := recover, maxErrors := limit }

/-- A state whose budget is not spent is in step with the other parse. -/
theorem Together.inStep {name : String} {agree : Prop} {s t : State} (h : Together name agree s t)
    (hs : s.budget.halted = false) : agree ∧ InStep s t := by
  rcases h with hstep | hcut
  · exact hstep
  · rw [hcut.1] at hs
    cases hs

namespace Session

/-- Two sessions in step read the same tree, unless the smaller budget is spent on the way. -/
theorem enter_inStep {α : Type} {session other : Session} (hset : other.setting = session.setting)
    {entry : Nonterminal α} (spare : α) (hw : entry.isWhole = true)
    (h : InStep session.state other.state)
    (hs : (session.enter entry spare).2.state.budget.halted = false) :
    (session.enter entry spare).1 = (other.enter entry spare).1 ∧
      InStep (session.enter entry spare).2.state (other.enter entry spare).2.state := by
  have hfuel : fuel other.state = fuel session.state := by
    obtain ⟨c, hc, _⟩ := h
    rw [hc]
    rfl
  have hone := (session.enter_readsAll spare hw).1 _ (Nat.le_refl _)
  have hother := (other.enter_readsAll spare hw).1 _ (Nat.le_of_eq hfuel)
  rw [hset] at hother
  obtain ⟨hagree, hstep⟩ :=
    (run_inStep session.setting _ entry false _ _ _ _ _ _ h hone hother).inStep hs
  exact ⟨Except.ok.inj hagree, hstep⟩

/-- Two sessions that began together read the same file, unless the smaller budget is spent. -/
theorem unit_inStep {session other : Session} (hset : other.setting = session.setting)
    (h : Together session.setting.layout.source.name True session.state other.state)
    (hs : session.unit.2.state.budget.halted = false) :
    session.unit.1 = other.unit.1 ∧ session.unit.2.diagnostics = other.unit.2.diagnostics := by
  have hopen : session.state.budget.halted = false := by
    cases hhalt : session.state.budget.halted with
    | false => rfl
    | true =>
      have hkept : session.unit.2.state.budget = session.state.budget ∧ _ :=
        enter_kept (kept_halted session.setting hhalt session.state.log) _ _ ⟨rfl, rfl⟩
      rw [hkept.1, hhalt] at hs
      cases hs
  have hunit : session.unit.1 = other.unit.1 ∧ InStep session.unit.2.state other.unit.2.state :=
    enter_inStep hset _ rfl (h.inStep hopen).2 hs
  obtain ⟨htree, c, hc, _⟩ := hunit
  refine ⟨htree, ?_⟩
  unfold diagnostics
  rw [hc]

/-- A session with room for more errors than it reported has not spent its budget. -/
theorem unit_not_halted (settings : Settings) (source : Source)
    (hroom : (start settings source).unit.2.errorCount <
      (Budget.start settings.recover settings.maxErrors).capacity) :
    (start settings source).unit.2.state.budget.halted = false := by
  have haccounted := afterAll_accounted settings source [.unit]
  have hterms := afterAll_terms settings source [.unit]
  rw [show (start settings source).afterAll [.unit] = (start settings source).unit.2 from rfl]
    at haccounted hterms
  cases hhalt : (start settings source).unit.2.state.budget.halted with
  | false => rfl
  | true =>
    have hspent := haccounted.halted_iff.mp hhalt
    unfold Budget.capacity at hspent hroom
    rw [hterms.1, hterms.2] at hspent
    exact absurd hspent (Nat.ne_of_lt hroom)

theorem unit_errorCount (settings : Settings) (source : Source) :
    (start settings source).unit.2.diagnostics.countP isError =
      (start settings source).unit.2.errorCount :=
  (afterAll_accounted settings source [.unit]).countP

/-- The sessions for two budgets begin together: both report the same flaws. -/
theorem start_together (settings : Settings) (source : Source) {recover : Bool} {limit more : Nat}
    (hle : (Budget.start recover limit).capacity ≤ max more 1) :
    Together source.name True (start (settings.withBudget recover limit) source).state
      (start (settings.withBudget true more) source).state := by
  have hbudget : (Budget.start recover limit).InStep (.start true more) :=
    ⟨rfl, rfl, rfl, rfl, hle, rfl⟩
  unfold start Settings.withBudget
  exact reportFlaws_together ⟨.ofItems source (lex settings.keepDocs source.text), true⟩ _
    (.inl ⟨trivial, _, rfl, hbudget⟩)

/-- A file read with room to spare is read as with more room. -/
theorem unit_withBudget (settings : Settings) (source : Source) {recover : Bool} {limit more : Nat}
    (hle : (Budget.start recover limit).capacity ≤ max more 1)
    (hroom : (start (settings.withBudget recover limit) source).unit.2.errorCount <
      (Budget.start recover limit).capacity) :
    (start (settings.withBudget recover limit) source).unit.1 =
        (start (settings.withBudget true more) source).unit.1 ∧
      (start (settings.withBudget recover limit) source).unit.2.diagnostics =
        (start (settings.withBudget true more) source).unit.2.diagnostics := by
  have hset : (start (settings.withBudget true more) source).setting =
      (start (settings.withBudget recover limit) source).setting := rfl
  exact unit_inStep hset (start_together settings source hle) (unit_not_halted _ _ hroom)

end Session

namespace Fragment

/-- What is accepted as a declaration with room for more errors than there are is accepted with more
room, as the same tree and with the same diagnostics; and so is what is refused. -/
theorem declaration_withBudget (settings : Settings) (text : String) {recover : Bool}
    {limit more : Nat} (hle : (Budget.start recover limit).capacity ≤ max more 1)
    (hroom : (unit (settings.withBudget recover limit) text).errorCount <
      (Budget.start recover limit).capacity) :
    declaration (settings.withBudget recover limit) text =
      declaration (settings.withBudget true more) text := by
  have hlayout : (Session.start (settings.withBudget true more)
      (.ofText Source.unnamed text)).layout = (Session.start (settings.withBudget recover limit)
        (.ofText Source.unnamed text)).layout := rfl
  have hcount : (unit (settings.withBudget recover limit) text).errorCount =
      (Session.start (settings.withBudget recover limit)
        (.ofText Source.unnamed text)).unit.2.errorCount := by
    unfold unit unitOf
    rw [parse_eq]
    exact Session.unit_errorCount _ _
  rw [hcount] at hroom
  have hunit : unit (settings.withBudget recover limit) text =
      unit (settings.withBudget true more) text := by
    obtain ⟨htree, hlog⟩ := Session.unit_withBudget settings _ hle hroom
    unfold unit unitOf
    rw [parse_eq, parse_eq, htree, hlog, hlayout]
  unfold declaration
  rw [hunit]

/-- Two budgets with room for more errors than there are give the same verdict. -/
theorem declaration_verdict (settings : Settings) (text : String) (recover recover' : Bool)
    (limit limit' : Nat)
    (hroom : (unit (settings.withBudget recover limit) text).errorCount <
      (Budget.start recover limit).capacity)
    (hroom' : (unit (settings.withBudget recover' limit') text).errorCount <
      (Budget.start recover' limit').capacity) :
    declaration (settings.withBudget recover limit) text =
      declaration (settings.withBudget recover' limit') text := by
  let more := max (Budget.start recover limit).capacity (Budget.start recover' limit').capacity
  have hle : (Budget.start recover limit).capacity ≤ max more 1 := by omega
  have hle' : (Budget.start recover' limit').capacity ≤ max more 1 := by omega
  rw [declaration_withBudget settings text hle hroom,
    declaration_withBudget settings text hle' hroom']

/-- One fault in the body is one too many without recovery: the verdict changes. -/
theorem declaration_verdict_spent :
    let text := "class A { int ; int y; }"
    (declaration .standard text).isOk = true ∧
      (declaration (Settings.standard.withBudget false 100) text).isOk = false ∧
      (declaration (Settings.standard.withBudget true 1) text).isOk = false := by
  decide

end Fragment

end JavaSyntax
