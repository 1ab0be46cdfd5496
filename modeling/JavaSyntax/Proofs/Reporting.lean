import JavaSyntax.Proofs.Invariant
import Mathlib.Data.List.Chain

/-!
What the diagnostics of a parse look like. The budget and the log change together: `Accounted` ties
the one to the other, `State.record` and `State.deprecation` keep it, and so it holds after any
sequence of entry points. Once the budget is spent neither of them changes any more.
-/

namespace JavaSyntax

namespace Budget

/-- How many errors the budget lets through. -/
def capacity (b : Budget) : Nat :=
  if b.recover then b.limit else 1

theorem charge_admitted {b : Budget} {offset : Nat} (h : b.admits offset = true) :
    b.charge offset =
      { b with
        count := b.count + 1
        halted := !b.recover || b.limit ≤ b.count + 1
        last := some offset } := by
  simp [charge, h]

theorem not_halted_of_admits {b : Budget} {offset : Nat} (h : b.admits offset = true) :
    b.halted = false := by
  simp only [admits, Bool.and_eq_true, Bool.not_eq_eq_eq_not, Bool.not_true] at h
  exact h.1

theorem last_ne_of_admits {b : Budget} {offset : Nat} (h : b.admits offset = true) :
    b.last ≠ some offset := by
  simp only [admits, Bool.and_eq_true, bne_iff_ne] at h
  exact h.2

end Budget

namespace Diagnostic

/-- Where a diagnostic starts. -/
def offset (d : Diagnostic) : Nat :=
  d.span.start.offset

def isNote (d : Diagnostic) : Bool :=
  d.severity == .note

/-- The errors among diagnostics, in order. -/
def errors (log : List Diagnostic) : List Diagnostic :=
  log.filter isError

/-- A log that ends with the error that spent the budget, told by a note if parsing could have gone
on without it. -/
def Closed (recover : Bool) (name : String) (log : List Diagnostic) : Prop :=
  ∃ before d, d.isError = true ∧ (∀ x ∈ before, x.isNote = false) ∧
    log = before ++ d :: if recover then [State.limitNote d.span name] else []

end Diagnostic

open Diagnostic

/-- A log agrees with the budget it was charged to. -/
structure Accounted (name : String) (b : Budget) (log : List Diagnostic) : Prop where
  limit_pos : 0 < b.limit
  count : (errors log).length = b.count
  last : (errors log).getLast?.map Diagnostic.offset = b.last
  apart : (errors log).IsChain fun a b => a.offset ≠ b.offset
  running : b.halted = false → b.count < b.capacity ∧ ∀ d ∈ log, d.isNote = false
  halted : b.halted = true → b.count = b.capacity ∧ Closed b.recover name log

namespace State

/-- What recording an admitted fault adds to the log. -/
def entry (source : Source) (fault : Fault) (start stop : Nat) : Diagnostic :=
  ⟨.error, fault.code, fault.message, source.spanOf start stop, source.name⟩

theorem record_refused {s : State} {source : Source} {fault : Fault} {start stop : Nat}
    (h : s.budget.admits (source.spanOf start stop).start.offset = false) :
    s.record source fault start stop = s :=
  if_neg (by simp [h])

theorem record_admitted {s : State} {source : Source} {fault : Fault} {start stop : Nat}
    (h : s.budget.admits (entry source fault start stop).offset = true) :
    s.record source fault start stop =
      { s with
        budget := s.budget.charge (entry source fault start stop).offset
        log := s.log ++ entry source fault start stop ::
          if (s.budget.charge (entry source fault start stop).offset).hitLimit then
            [limitNote (entry source fault start stop).span source.name]
          else [] } :=
  if_pos h

/-- A warning is logged only while the budget lasts. -/
theorem deprecation_cases (s : State) (setting : Setting) (doc : Option Mark) (name : Extent) :
    s.deprecation setting doc name = s ∨
      s.budget.halted = false ∧
        ∃ w : Diagnostic, w.severity = .warning ∧
          s.deprecation setting doc name = { s with log := s.log ++ [w] } := by
  unfold deprecation
  split
  · rename_i h
    simp only [Bool.and_eq_true, Bool.not_eq_eq_eq_not, Bool.not_true] at h
    exact .inr ⟨h.2, _, rfl, rfl⟩
  · exact .inl rfl

@[simp] theorem advance_budget (s : State) (n : Nat) : (s.advance n).budget = s.budget := by
  unfold advance
  split <;> rfl

@[simp] theorem advance_log (s : State) (n : Nat) : (s.advance n).log = s.log := by
  unfold advance
  split <;> rfl

@[simp] theorem splitAngle_budget (s : State) : s.splitAngle.budget = s.budget := by
  unfold splitAngle
  split
  · rfl
  · split <;> rfl

@[simp] theorem splitAngle_log (s : State) : s.splitAngle.log = s.log := by
  unfold splitAngle
  split
  · rfl
  · split <;> rfl

end State

/-- No diagnostic is an error. -/
def Diagnostic.Clean (log : List Diagnostic) : Prop :=
  ∀ d ∈ log, d.isError = false

namespace State

/-- Nothing was reported so far. -/
def IsFresh (s : State) : Prop :=
  s.budget.halted = false ∧ s.budget.last = none

/-- The first fault is always reported. -/
theorem not_clean_record {s : State} (hs : s.IsFresh) (source : Source) (fault : Fault)
    (start stop : Nat) : ¬Clean (s.record source fault start stop).log := by
  have hadmits : s.budget.admits (entry source fault start stop).offset = true := by
    simp [Budget.admits, hs.1, hs.2]
  rw [record_admitted hadmits]
  intro hclean
  have hentry : (entry source fault start stop).isError = false := hclean _ (by simp)
  cases hentry

/-- After a fault nothing is fresh: it was reported, or one was before. -/
theorem not_isFresh_record (s : State) (source : Source) (fault : Fault) (start stop : Nat) :
    ¬(s.record source fault start stop).IsFresh := by
  cases ha : s.budget.admits (entry source fault start stop).offset with
  | true =>
    rw [record_admitted ha]
    simp [IsFresh, Budget.charge_admitted ha]
  | false =>
    rw [record_refused ha]
    intro hs
    simp [Budget.admits, hs.1, hs.2] at ha

end State

/-- A property of budget and log alone is kept if recording and warning keep it. -/
theorem kept_of_log {setting : Setting} {P : Budget → List Diagnostic → Prop}
    (hr : ∀ (s : State) fault start stop, P s.budget s.log →
      P (s.record setting.layout.source fault start stop).budget
        (s.record setting.layout.source fault start stop).log)
    (hw : ∀ (s : State) w, s.budget.halted = false → w.severity = .warning → P s.budget s.log →
      P s.budget (s.log ++ [w])) :
    Kept setting fun s => P s.budget s.log where
  advance s n hs := by simpa using hs
  splitAngle s hs := by simpa using hs
  record := hr
  deprecation s doc name hs := by
    rcases s.deprecation_cases setting doc name with h | ⟨hrun, w, hw', h⟩
    · rwa [h]
    · rw [h]
      exact hw s w hrun hw' hs

namespace Accounted

theorem start (recover : Bool) (limit : Nat) (name : String) :
    Accounted name (.start recover limit) [] where
  limit_pos := Nat.le_max_right limit 1
  count := rfl
  last := rfl
  apart := .nil
  running _ := by
    refine ⟨?_, by simp⟩
    cases recover
    · exact Nat.one_pos
    · exact Nat.le_max_right limit 1
  halted h := by cases h

/-- Charging an admitted error spends the budget exactly when it reaches the capacity. -/
theorem charge_halted_iff {b : Budget} {offset : Nat} (h : b.admits offset = true)
    (hc : b.count < b.capacity) :
    (b.charge offset).halted = true ↔ (b.charge offset).count = (b.charge offset).capacity := by
  rw [Budget.charge_admitted h]
  cases hr : b.recover <;> simp [Budget.capacity, hr] at hc ⊢ <;> omega

theorem errors_entry {d : Diagnostic} (hd : d.isError = true) (log : List Diagnostic)
    (noted : Bool) (name : String) :
    errors (log ++ d :: if noted then [State.limitNote d.span name] else []) =
      errors log ++ [d] := by
  have hnote : (State.limitNote d.span name).isError = false := rfl
  cases noted <;> simp [errors, hd, hnote]

protected theorem record {source : Source} {s : State}
    (h : Accounted source.name s.budget s.log) (fault : Fault) (start stop : Nat) :
    Accounted source.name (s.record source fault start stop).budget
      (s.record source fault start stop).log := by
  cases ha : s.budget.admits (State.entry source fault start stop).offset with
  | false => rwa [State.record_refused ha]
  | true =>
    rw [State.record_admitted ha]
    generalize hd : State.entry source fault start stop = d at ha
    have hde : d.isError = true := by rw [← hd]; rfl
    obtain ⟨hroom, hquiet⟩ := h.running (Budget.not_halted_of_admits ha)
    have hlast := Budget.last_ne_of_admits ha
    have hspent := charge_halted_iff ha hroom
    have hfields := Budget.charge_admitted ha
    -- From here on only the fields of the charged budget matter.
    generalize s.budget.charge d.offset = b at hspent hfields
    have hcap : b.capacity = s.budget.capacity := by
      rw [hfields]
      rfl
    have hcount : b.count = s.budget.count + 1 := by rw [hfields]
    refine ⟨?_, ?_, ?_, ?_, ?_, ?_⟩
    · rw [hfields]
      exact h.limit_pos
    · rw [errors_entry hde, List.length_append, h.count, hcount]
      rfl
    · rw [errors_entry hde, hfields]
      simp
    · rw [errors_entry hde]
      refine h.apart.append (.singleton d) ?_
      intro x hx y hy
      cases hy
      rw [← h.last, hx] at hlast
      simpa using hlast
    · intro hrun
      have hopen : b.halted = false := hrun
      have hne : b.count ≠ b.capacity := hspent.not.mp (by simp [hopen])
      refine ⟨by simp only; omega, ?_⟩
      intro x hx
      simp only [Budget.hitLimit, hopen, Bool.false_and, Bool.false_eq_true, if_false] at hx
      rcases List.mem_append.mp hx with hx | hx
      · exact hquiet x hx
      · cases List.mem_singleton.mp hx
        rw [← hd]
        rfl
    · intro hhalt
      have hclosed : b.halted = true := hhalt
      refine ⟨hspent.mp hhalt, s.log, d, hde, hquiet, ?_⟩
      simp only [Budget.hitLimit, hclosed, Bool.true_and]

protected theorem warn {name : String} {b : Budget} {log : List Diagnostic}
    (h : Accounted name b log) (hrun : b.halted = false) {w : Diagnostic}
    (hw : w.severity = .warning) : Accounted name b (log ++ [w]) := by
  have herrors : errors (log ++ [w]) = errors log := by
    simp [errors, isError, hw]
  refine ⟨h.limit_pos, ?_, ?_, ?_, ?_, ?_⟩
  · rw [herrors]
    exact h.count
  · rw [herrors]
    exact h.last
  · rw [herrors]
    exact h.apart
  · intro _
    refine ⟨(h.running hrun).1, ?_⟩
    intro x hx
    rcases List.mem_append.mp hx with hx | hx
    · exact (h.running hrun).2 x hx
    · cases List.mem_singleton.mp hx
      simp [isNote, hw]
  · intro hhalt
    exact absurd (hrun.symm.trans hhalt) (by simp)

theorem kept (setting : Setting) :
    Kept setting fun s => Accounted setting.layout.source.name s.budget s.log :=
  kept_of_log (fun _ fault start stop h => h.record fault start stop)
    (fun _ _ hrun hw h => h.warn hrun hw)

end Accounted

/-- No step changes what the budget was started with. -/
theorem kept_terms (setting : Setting) (recover : Bool) (limit : Nat) :
    Kept setting fun s => s.budget.recover = recover ∧ s.budget.limit = limit := by
  refine kept_of_log (P := fun b _ => b.recover = recover ∧ b.limit = limit) ?_
    (fun _ _ _ _ h => h)
  intro s fault start stop h
  cases ha : s.budget.admits (State.entry setting.layout.source fault start stop).offset with
  | false => rwa [State.record_refused ha]
  | true =>
    rw [State.record_admitted ha, Budget.charge_admitted ha]
    exact h

/-- A spent budget stays as it is, and nothing is logged any more. -/
theorem kept_halted (setting : Setting) {b : Budget} (hb : b.halted = true)
    (log : List Diagnostic) : Kept setting fun s => s.budget = b ∧ s.log = log := by
  refine kept_of_log (P := fun c l => c = b ∧ l = log) ?_ ?_
  · intro s fault start stop h
    have ha : s.budget.admits (State.entry setting.layout.source fault start stop).offset =
        false := by
      simp [Budget.admits, h.1, hb]
    rwa [State.record_refused ha]
  · intro s w hrun _ h
    rw [h.1, hb] at hrun
    cases hrun

namespace Session

variable (settings : Settings) (source : Source) (entries : List Entry)

theorem afterAll_accounted :
    let s := ((start settings source).afterAll entries).state
    Accounted source.name s.budget s.log :=
  afterAll_kept (Accounted.kept _) entries
    (start_kept (Accounted.kept _) fun _ => Accounted.start ..)

theorem afterAll_terms :
    let s := ((start settings source).afterAll entries).state
    s.budget.recover = settings.recover ∧ s.budget.limit = max settings.maxErrors 1 :=
  afterAll_kept (kept_terms _ _ _) entries (start_kept (kept_terms _ _ _) fun _ => ⟨rfl, rfl⟩)

/-- Nothing is logged once the budget is spent, whatever rule goes on reading. -/
theorem run_log_of_halted (setting : Setting) (fuel : Nat) {β : Type} (nonterminal : Nonterminal β)
    (inLabels : Bool) {s t : State} {r : Except SyntaxError β} (hs : s.budget.halted = true)
    (h : run setting fuel nonterminal inLabels s = some (r, t)) : t.log = s.log :=
  (run_keeps (kept_halted setting hs s.log) fuel nonterminal inLabels s r t h ⟨rfl, rfl⟩).2

theorem afterAll_diagnostics_of_halted {session : Session}
    (hs : session.state.budget.halted = true) (more : List Entry) :
    (session.afterAll more).diagnostics = session.diagnostics :=
  (afterAll_kept (kept_halted session.setting hs session.state.log) more ⟨rfl, rfl⟩).2

end Session

namespace Accounted

variable {name : String} {b : Budget} {log : List Diagnostic}

theorem countP (h : Accounted name b log) : log.countP isError = b.count :=
  List.countP_eq_length_filter.trans h.count

theorem halted_iff (h : Accounted name b log) : b.halted = true ↔ b.count = b.capacity := by
  refine ⟨fun hh => (h.halted hh).1, fun hc => ?_⟩
  cases hb : b.halted with
  | true => rfl
  | false =>
    have hroom := (h.running hb).1
    omega

/-- A log without errors was charged to a budget that nothing was taken from. -/
theorem isFresh {s : State} (h : Accounted name s.budget s.log) (hclean : Clean s.log) :
    s.IsFresh := by
  have hnone : errors s.log = [] :=
    List.filter_eq_nil_iff.mpr fun d hd => by simp [hclean d hd]
  have hcount := h.count
  have hlast := h.last
  rw [hnone] at hcount hlast
  refine ⟨?_, hlast.symm⟩
  cases hb : s.budget.halted with
  | false => rfl
  | true =>
    have hspent := (h.halted hb).1
    have hroom : 0 < s.budget.capacity := by
      unfold Budget.capacity
      split
      · exact h.limit_pos
      · exact Nat.one_pos
    rw [← hcount, List.length_nil] at hspent
    omega

/-- Where nothing was taken from the budget the log has no error. -/
theorem clean {s : State} (h : Accounted name s.budget s.log) (hs : s.IsFresh) : Clean s.log := by
  have hlast := h.last
  rw [hs.2, Option.map_eq_none_iff, List.getLast?_eq_none_iff] at hlast
  intro d hd
  simpa using List.filter_eq_nil_iff.mp hlast d hd

theorem count_le (h : Accounted name b log) : b.count ≤ b.capacity := by
  cases hb : b.halted with
  | true => exact Nat.le_of_eq (h.halted hb).1
  | false => exact Nat.le_of_lt (h.running hb).1

/-- With recovery a note is logged exactly when the limit is reached, right behind the error that
reached it. -/
theorem note_iff (h : Accounted name b log) (hr : b.recover = true) :
    (∃ d ∈ log, d.severity = .note ∧ d.code = .tooManyErrors) ↔ b.count = b.limit := by
  have hcap : b.capacity = b.limit := by simp [Budget.capacity, hr]
  rw [← hcap, ← h.halted_iff]
  constructor
  · rintro ⟨d, hd, hnote, _⟩
    cases hb : b.halted with
    | true => rfl
    | false => simpa [isNote, hnote] using (h.running hb).2 d hd
  · intro hb
    obtain ⟨before, d, _, _, hlog⟩ := (h.halted hb).2
    refine ⟨State.limitNote d.span name, ?_, rfl, rfl⟩
    simp [hlog, hr]

theorem note_last (h : Accounted name b log) (hr : b.recover = true) (hc : b.count = b.limit) :
    ∃ before e note, log = before ++ [e, note] ∧ (∀ d ∈ before, d.severity ≠ .note) ∧
      e.isError = true ∧ note.severity = .note ∧ note.code = .tooManyErrors ∧
      note.span = e.span := by
  have hb : b.halted = true := h.halted_iff.mpr (by simp [Budget.capacity, hr, hc])
  obtain ⟨before, e, he, hquiet, hlog⟩ := (h.halted hb).2
  refine ⟨before, e, State.limitNote e.span name, by simpa [hr] using hlog, ?_, he, rfl, rfl, rfl⟩
  intro d hd hnote
  simpa [isNote, hnote] using hquiet d hd

/-- Without recovery the log ends with the first error, and no note is logged. -/
theorem strict (h : Accounted name b log) (hr : b.recover = false) :
    (∀ d ∈ log, d.severity ≠ .note) ∧
      ∀ before e rest, log = before ++ e :: rest → e.isError = true → rest = [] := by
  have hcap : b.capacity = 1 := by simp [Budget.capacity, hr]
  cases hb : b.halted with
  | false =>
    obtain ⟨hroom, hquiet⟩ := h.running hb
    refine ⟨fun d hd hnote => by simpa [isNote, hnote] using hquiet d hd, ?_⟩
    intro before e rest hlog he
    have hcount := h.countP
    rw [hlog, List.countP_append, List.countP_cons_of_pos he] at hcount
    omega
  | true =>
    obtain ⟨hspent, first, d, hd, hquiet, hlog⟩ := h.halted hb
    simp only [hr, Bool.false_eq_true, if_false] at hlog
    refine ⟨?_, ?_⟩
    · intro x hx hnote
      rcases List.mem_append.mp (hlog ▸ hx) with hx | hx
      · simpa [isNote, hnote] using hquiet x hx
      · cases List.mem_singleton.mp hx
        simp [isError, hnote] at hd
    · intro before e rest hlog' he
      -- A diagnostic behind `e` would put the closing error there too, which makes two errors.
      rcases List.eq_nil_or_concat rest with hnil | ⟨mid, x, hrest⟩
      · exact hnil
      · rw [hrest, List.concat_eq_append, ← List.cons_append, ← List.append_assoc] at hlog'
        obtain ⟨hfirst, _⟩ := List.append_inj' (hlog.symm.trans hlog') rfl
        have hcount := h.countP
        rw [hlog, hfirst, List.countP_append, List.countP_append, List.countP_cons_of_pos he,
          List.countP_cons_of_pos hd] at hcount
        omega

end Accounted

/-- Whatever entry points are called on a session, and in whatever order, its diagnostics follow
the budget: errors are counted, limited and never repeat the place of the one before; the limit is
told by one note at the end, and without recovery the first error ends the log. Once the budget is
spent nothing is added, although rules go on reading. -/
theorem Session.diagnostics_follow_budget (settings : Settings) (source : Source)
    (entries : List Entry) :
    let session := (start settings source).afterAll entries
    let log := session.diagnostics
    let limit := max 1 settings.maxErrors
    log.countP isError = session.errorCount ∧
    session.errorCount ≤ limit ∧
    (log.filter isError).IsChain (fun a b => a.span.start.offset ≠ b.span.start.offset) ∧
    (settings.recover = true →
      ((∃ d ∈ log, d.severity = .note ∧ d.code = .tooManyErrors) ↔ session.errorCount = limit) ∧
      (session.errorCount = limit →
        ∃ before e note, log = before ++ [e, note] ∧ (∀ d ∈ before, d.severity ≠ .note) ∧
          e.isError = true ∧ note.severity = .note ∧ note.code = .tooManyErrors ∧
          note.span = e.span)) ∧
    (settings.recover = false →
      session.errorCount ≤ 1 ∧ (∀ d ∈ log, d.severity ≠ .note) ∧
      ∀ before e rest, log = before ++ e :: rest → e.isError = true → rest = []) ∧
    (session.state.budget.halted = true ↔
      session.errorCount = if settings.recover then limit else 1) ∧
    (session.state.budget.halted = true →
      (∀ fuel (β : Type) (nonterminal : Nonterminal β) inLabels r t,
        run session.setting fuel nonterminal inLabels session.state = some (r, t) → t.log = log) ∧
      ∀ more, (session.afterAll more).diagnostics = log) := by
  intro session log limit
  have h : Accounted source.name session.state.budget log :=
    afterAll_accounted settings source entries
  obtain ⟨hrecover, hlimit⟩ := afterAll_terms settings source entries
  have hcap : session.state.budget.capacity = if settings.recover then limit else 1 := by
    simp only [Budget.capacity, session, hrecover, hlimit, limit, Nat.max_comm]
  have hle : session.errorCount ≤ if settings.recover then limit else 1 := hcap ▸ h.count_le
  have hlim : session.state.budget.limit = limit := hlimit.trans (Nat.max_comm ..)
  refine ⟨h.countP, ?_, h.apart, ?_, ?_, ?_, ?_⟩
  · refine Nat.le_trans hle ?_
    split
    · exact Nat.le_refl _
    · exact Nat.le_max_left ..
  · intro hr
    have hr' := hrecover.trans hr
    rw [← hlim]
    exact ⟨h.note_iff hr', h.note_last hr'⟩
  · intro hr
    simp only [hr, Bool.false_eq_true, if_false] at hle
    exact ⟨hle, h.strict (hrecover.trans hr)⟩
  · rw [← hcap]
    exact h.halted_iff
  · intro hh
    exact ⟨fun fuel β nonterminal inLabels r t => run_log_of_halted _ fuel nonterminal inLabels hh,
      afterAll_diagnostics_of_halted hh⟩

end JavaSyntax
