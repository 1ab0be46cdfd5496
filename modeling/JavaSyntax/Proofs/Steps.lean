import JavaSyntax.Proofs.Edges
import JavaSyntax.Proofs.Reporting
import JavaSyntax.Proofs.Termination
import Mathlib.Logic.Relation

/-!
What lies between two states of one parse. `Reaches` holds from one state to another that steps of
rules lead to; whatever a step keeps is kept along it, and every run of a nonterminal is such a way.
What is known of all runs may be used when a contract is proved, so that no rule proves it again.
-/

namespace JavaSyntax

/-- What a rule can do to the state of a parse at once. -/
inductive Step (setting : Setting) (s : State) : State → Prop where
  | advance (n : Nat) : Step setting s (s.advance n)
  | splitAngle : Step setting s s.splitAngle
  | record (fault : Fault) (start stop : Nat) :
      Step setting s (s.record setting.layout.source fault start stop)
  | deprecation (doc : Option Mark) (name : Extent) :
      Step setting s (s.deprecation setting doc name)

/-- Steps lead from one state to the other. -/
def Reaches (setting : Setting) : State → State → Prop :=
  Relation.ReflTransGen (Step setting)

namespace Reaches

variable {setting : Setting} {s t u : State}

theorem refl (s : State) : Reaches setting s s := Relation.ReflTransGen.refl

theorem trans (h : Reaches setting s t) (h' : Reaches setting t u) : Reaches setting s u :=
  Relation.ReflTransGen.trans h h'

theorem step (h : Step setting s t) : Reaches setting s t := Relation.ReflTransGen.single h

theorem kept {P : State → Prop} (hP : Kept setting P) (h : Reaches setting s t) (hs : P s) :
    P t := by
  induction h with
  | refl => exact hs
  | tail _ hstep ih =>
    cases hstep with
    | advance n => exact hP.advance _ n ih
    | splitAngle => exact hP.splitAngle _ ih
    | record fault start stop => exact hP.record _ fault start stop ih
    | deprecation doc name => exact hP.deprecation _ doc name ih

end Reaches

theorem kept_reaches (setting : Setting) (s : State) : Kept setting (Reaches setting s) where
  advance _ n h := h.trans (.step (.advance n))
  splitAngle _ h := h.trans (.step .splitAngle)
  record _ fault start stop h := h.trans (.step (.record fault start stop))
  deprecation _ doc name h := h.trans (.step (.deprecation doc name))

namespace State

@[simp] theorem isFresh_advance (s : State) (n : Nat) : (s.advance n).IsFresh ↔ s.IsFresh := by
  unfold IsFresh
  rw [advance_budget]

@[simp] theorem isFresh_splitAngle (s : State) : s.splitAngle.IsFresh ↔ s.IsFresh := by
  unfold IsFresh
  rw [splitAngle_budget]

theorem not_isFresh_report (s : State) (layout : Layout) (error : SyntaxError) :
    ¬(s.report layout error).IsFresh :=
  s.not_isFresh_record _ _ _ _

end State

theorem kept_not_isFresh (setting : Setting) : Kept setting fun s => ¬s.IsFresh where
  advance s n h := by simpa using h
  splitAngle s h := by simpa using h
  record s fault start stop _ := s.not_isFresh_record _ fault start stop
  deprecation s doc name h := by
    rcases s.deprecation_cases setting doc name with heq | ⟨_, w, _, heq⟩ <;> rwa [heq]

namespace Reaches

variable {setting : Setting} {s t : State}

theorem isFresh (h : Reaches setting s t) (ht : t.IsFresh) : s.IsFresh :=
  Classical.byContradiction fun hs => h.kept (kept_not_isFresh setting) hs ht

theorem beyond (h : Reaches setting s t) : Beyond s t :=
  h.kept (kept_beyond setting s) ⟨Nat.le_refl _, rfl⟩

theorem index_le (h : Reaches setting s t) : s.index ≤ t.index := h.beyond.1

end Reaches

/-- How far a run gets does not depend on its fuel. -/
theorem run_advanced {setting : Setting} {fuel : Nat} {β : Type} {nonterminal : Nonterminal β}
    {inLabels : Bool} {s t : State} {r : Except SyntaxError β}
    (h : run setting fuel nonterminal inLabels s = some (r, t)) : Advanced nonterminal s r t := by
  obtain ⟨r', t', hrun, hadvanced⟩ := run_meets setting
    (max fuel (16 * s.left + nonterminal.rank + 1)) nonterminal inLabels s
    (Nat.lt_of_lt_of_le (Nat.lt_succ_self _) (Nat.le_max_right ..))
  have hmore := run_more (Nat.le_max_left fuel (16 * s.left + nonterminal.rank + 1)) nonterminal
    inLabels s _ h
  cases Option.some.inj (hmore.symm.trans hrun)
  exact hadvanced

/-- A fact about every run of a nonterminal that ends. -/
def Contract.Knows (setting : Setting)
    (K : {β : Type} → Nonterminal β → State → Except SyntaxError β → State → Prop) : Prop :=
  ∀ {fuel : Nat} {β : Type} {nonterminal : Nonterminal β} {inLabels : Bool} {s t : State}
    {r : Except SyntaxError β},
    run setting fuel nonterminal inLabels s = some (r, t) → K nonterminal s r t

/-- The contract that a call also ends as every run is known to. -/
def Contract.knowing (C : Contract)
    (K : {β : Type} → Nonterminal β → State → Except SyntaxError β → State → Prop) : Contract where
  pre := C.pre
  post nonterminal inLabels s r t := C.post nonterminal inLabels s r t ∧ K nonterminal s r t

theorem run_respects_knowing {setting : Setting} {C : Contract}
    {K : {β : Type} → Nonterminal β → State → Except SyntaxError β → State → Prop}
    (hK : Contract.Knows setting K)
    (hrules : ∀ {β : Type} (nonterminal : Nonterminal β) (flag : Bool) (s : State),
      C.pre nonterminal flag s → (Grammar.rule nonterminal).Ensures setting (C.knowing K) flag s
        (C.post nonterminal flag s)) (fuel : Nat) :
    Caller.Respects (run setting fuel) (C.knowing K) := by
  induction fuel with
  | zero =>
    intro β nonterminal flag s r t _ h
    cases h
  | succ fuel ih =>
    intro β nonterminal flag s r t hpre h
    exact ⟨exec_respects ih _ s (hrules nonterminal flag s hpre) h, hK h⟩

/-- What a call can rely on, whatever the nonterminal: it goes on from where it was called, gets as
far as its nonterminal does, and keeps to its edges. -/
structure Runs (setting : Setting) {β : Type} (nonterminal : Nonterminal β) (s : State)
    (r : Except SyntaxError β) (t : State) : Prop where
  reaches : Reaches setting s t
  advanced : Advanced nonterminal s r t
  edge : ∀ value, r = .ok value → nonterminal.Edge s value t

theorem knows_runs (setting : Setting) : Contract.Knows setting (Runs setting) := fun h =>
  ⟨run_keeps (kept_reaches setting _) _ _ _ _ _ _ h (.refl _), run_advanced h,
    fun _ hr => run_edge (hr ▸ h)⟩

/-- A rule that ends well in each of several ways ends well in all of them at once. -/
theorem Rule.ensures_forall {setting : Setting} {C : Contract} {inLabels : Bool} {α : Type}
    {ι : Type} [Nonempty ι] {rule : Rule α} {s : State}
    {Q : ι → Except SyntaxError α → State → Prop}
    (h : ∀ i, rule.Ensures setting C inLabels s (Q i)) :
    rule.Ensures setting C inLabels s fun r t => ∀ i, Q i r t := by
  induction rule generalizing s with
  | done value => exact h
  | fail error => exact h
  | look rest ih => exact ih _ h
  | advance n rest ih => exact ih h
  | splitAngle rest ih => exact ih h
  | report error rest ih => exact ih h
  | deprecation doc name rest ih => exact ih h
  | call nonterminal asLabels rest ih =>
    exact ⟨(h (Classical.arbitrary ι)).1, fun r t ht => ih r fun i => (h i).2 r t ht⟩

end JavaSyntax
