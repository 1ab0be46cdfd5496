import JavaSyntax.Proofs.Cleanly
import JavaSyntax.Proofs.Lookaheads
import JavaSyntax.Proofs.MoveDeclarations

/-!
One run follows another. If a run on the first of two lists of symbols that look alike succeeds and
reports nothing, then the run on the second takes the same steps and gives the same result, moved.
Only where the first run has taken all its symbols and the second still has the tail before it may
they part.
-/

namespace JavaSyntax

open Movable (move)

namespace State

/-- The second state is `n` tokens further on, in front of symbols that look the same, and nothing
was reported up to there. -/
structure Beside (n : Nat) (tail : List Symbol) (s s' : State) : Prop where
  along : Along tail s.ahead s'.ahead
  index : s'.index = s.index + n
  taken : s'.taken = s.taken
  isFresh : s'.IsFresh

/-- Nothing is left, although the second list of symbols goes on. -/
def Spent (tail : List Symbol) (s : State) : Prop :=
  s.ahead = [] ∧ tail ≠ []

end State

theorem kept_ahead_nil (setting : Setting) : Kept setting fun s => s.ahead = [] where
  advance s n h := by simp [h]
  splitAngle s h := by simp [State.splitAngle, h]
  record s fault start stop h := by simpa using h
  deprecation s doc name h := by simpa using h

theorem kept_isFresh_deprecation {setting : Setting} {s : State} {doc : Option Mark}
    {name : Extent} :
    (s.deprecation setting doc name).IsFresh ↔ s.IsFresh := by
  rcases s.deprecation_cases setting doc name with heq | ⟨_, w, _, heq⟩ <;> rw [heq]
  exact Iff.rfl

/-- The second run ends as the first one did, unless that is spent. -/
def EndsBeside (n : Nat) (tail : List Symbol) {α : Type} [Movable α] (value : α) (t : State)
    (out : Outcome α) : Prop :=
  t.Spent tail ∨ ∃ t', out = some (.ok (move n value), t') ∧ t.Beside n tail t'

namespace State.Beside

variable {n : Nat} {tail : List Symbol} {s s' : State}

theorem view (h : s.Beside n tail s') (hs : s.IsFresh) (inLabels : Bool) :
    (s.view inLabels).Beside n (s'.view inLabels) where
  sees := h.along.sees
  index := h.index
  taken := h.taken
  running := by simp [State.view, hs.1]
  running' := by simp [State.view, h.isFresh.1]
  inLabels := rfl

theorem advance (h : s.Beside n tail s') (k : Nat) :
    (s.advance k).Spent tail ∨ (s.advance k).Beside n tail (s'.advance k) := by
  by_cases hk : k = 0
  · subst hk
    exact .inr h
  rcases h.along.drop k with hspent | halong
  · exact .inl (by simpa [Spent] using hspent)
  · refine .inr ⟨by simpa using halong, ?_, ?_, (State.isFresh_advance ..).mpr h.isFresh⟩
    · have hlength := h.along.length
      have hdropped := halong.length
      rw [List.length_drop, List.length_drop] at hdropped
      simp only [State.advance, hk, if_false, h.index]
      omega
    · simp [State.advance, hk]

theorem splitAngle (h : s.Beside n tail s') : s.splitAngle.Beside n tail s'.splitAngle := by
  have hfresh : s'.splitAngle.IsFresh := (State.isFresh_splitAngle s').mpr h.isFresh
  obtain ⟨ts, i, k, budget, log⟩ := s
  obtain ⟨us, i', k', budget', log'⟩ := s'
  obtain ⟨along, index, taken, -⟩ := h
  dsimp only at along index taken
  subst index taken
  cases along with
  | nil alone => exact ⟨.nil alone, rfl, rfl, hfresh⟩
  | @last x y kind text ends =>
    -- What ends a declaration has no angle bracket.
    have hnone : afterAngle x.kind = none := by
      rcases ends with ends | ends <;> rw [ends] <;> rfl
    simp only [State.splitAngle, kind, hnone] at hfresh ⊢
    exact ⟨.last kind text ends, rfl, rfl, hfresh⟩
  | @cons x y xs ys kind text nonSealed closes rest =>
    simp only [State.splitAngle, kind] at hfresh ⊢
    cases hleft : afterAngle x.kind with
    | none =>
      rw [hleft] at hfresh
      exact ⟨.cons kind text nonSealed closes rest, rfl, rfl, hfresh⟩
    | some left =>
      rw [hleft] at hfresh
      have hplain : left ≠ .lparen ∧ left ≠ .identifier := by
        cases hx : x.kind <;> rw [hx] at hleft <;> cases hleft <;> decide
      have hword (more : List Symbol) :
          Lookahead.isNonSealed (⟨left, left.spelling, false⟩ :: more) = false := by
        rcases more with _ | ⟨a, _ | ⟨b, more⟩⟩ <;>
          simp [Lookahead.isNonSealed, Symbol.isWord, hplain.2]
      refine ⟨.cons rfl rfl ?_ ?_ rest, rfl, rfl, hfresh⟩
      · rw [hword, hword]
      · exact fun hopen => absurd hopen hplain.1

theorem deprecation (h : s.Beside n tail s') (setting setting' : Setting)
    (doc doc' : Option Mark) (name name' : Extent) : (s.deprecation setting doc name).Beside n tail
      (s'.deprecation setting' doc' name') := by
  have hsame (s : State) (setting : Setting) (doc : Option Mark) (name : Extent) :
      (s.deprecation setting doc name).taken = s.taken := by simp
  exact ⟨by simpa using h.along, by simpa using h.index, by simpa using h.taken,
    kept_isFresh_deprecation.mpr h.isFresh⟩

end State.Beside

/-- A caller whose successful calls are followed by another. -/
def Caller.FollowedBy (n : Nat) (tail : List Symbol) (caller caller' : Caller) : Prop :=
  ∀ {β : Type} (nonterminal : Nonterminal β) (inLabels : Bool) (s s' t : State) (value : β),
    caller nonterminal inLabels s = some (.ok value, t) → t.IsFresh → s.Beside n tail s' →
    @EndsBeside n tail β nonterminal.movable value t (caller' (nonterminal.move n) inLabels s')

theorem exec_isFresh {setting : Setting} {fuel : Nat} {inLabels : Bool} {α : Type} {rule : Rule α}
    {s t : State} {r : Except SyntaxError α}
    (h : exec setting (run setting fuel) inLabels rule s = some (r, t)) (ht : t.IsFresh) :
    s.IsFresh :=
  Classical.byContradiction fun hs =>
    exec_kept (kept_not_isFresh setting) (run_keeps (kept_not_isFresh setting) fuel) rule s h hs ht

theorem run_isFresh {setting : Setting} {fuel : Nat} {inLabels : Bool} {α : Type}
    {nonterminal : Nonterminal α} {s t : State} {r : Except SyntaxError α}
    (h : run setting fuel nonterminal inLabels s = some (r, t)) (ht : t.IsFresh) : s.IsFresh :=
  Classical.byContradiction fun hs =>
    run_keeps (kept_not_isFresh setting) fuel nonterminal inLabels s r t h hs ht

theorem exec_spent {setting : Setting} {fuel : Nat} {inLabels : Bool} {α : Type} {rule : Rule α}
    {s t : State} {r : Except SyntaxError α} {tail : List Symbol}
    (h : exec setting (run setting fuel) inLabels rule s = some (r, t)) (hs : s.Spent tail) :
    t.Spent tail :=
  ⟨exec_kept (kept_ahead_nil setting) (run_keeps (kept_ahead_nil setting) fuel) rule s h hs.1,
    hs.2⟩

theorem Rule.IsFault.not_isFresh {setting : Setting} {fuel : Nat} {inLabels : Bool} {α : Type}
    {rule : Rule α} {s t : State} {value : α} (hrule : rule.IsFault)
    (h : exec setting (run setting fuel) inLabels rule s = some (.ok value, t)) : ¬t.IsFresh := by
  cases rule with
  | fail error => cases h
  | report error rest =>
    exact exec_kept (kept_not_isFresh setting) (run_keeps (kept_not_isFresh setting) fuel) rest _ h
      (s.not_isFresh_report _ _)
  | _ => cases hrule

section Runs

variable {setting setting' : Setting} {n : Nat} {tail : List Symbol}

theorem Moves.endsBeside {fuel : Nat}
    (hcalls : Caller.FollowedBy n tail (run setting fuel) (run setting' fuel)) {inLabels : Bool}
    {α : Type} [Movable α] {rule other : Rule α} (h : Moves n rule other) {s s' t : State}
    {value : α} (hrun : exec setting (run setting fuel) inLabels rule s = some (.ok value, t))
    (ht : t.IsFresh) (hs : s.Beside n tail s') :
    EndsBeside n tail value t (exec setting' (run setting' fuel) inLabels other s') := by
  induction h generalizing s s' with
  | done value =>
    cases hrun
    exact .inr ⟨s', rfl, hs⟩
  | fault isFault => exact absurd ht (isFault.not_isFresh hrun)
  | look _ ih => exact ih _ _ (hs.view (exec_isFresh hrun ht) inLabels) hrun hs
  | advance k _ ih =>
    rcases hs.advance k with hspent | hs
    · exact .inl (exec_spent (s := s.advance k) hrun hspent)
    · exact ih hrun hs
  | splitAngle _ ih => exact ih hrun hs.splitAngle
  | deprecation _ ih => exact ih hrun (hs.deprecation ..)
  | @called β nonterminal asLabels rest rest' ok error ih =>
    cases hcall : run setting fuel nonterminal (inLabels || asLabels) s with
    | none => simp [exec, hcall] at hrun
    | some out =>
      obtain ⟨result, u⟩ := out
      simp only [exec, hcall] at hrun
      cases result with
      | error e => exact absurd ht ((error e).not_isFresh hrun)
      | ok found =>
        rcases hcalls nonterminal _ s s' u found hcall (exec_isFresh hrun ht) hs with
          hspent | ⟨u', hcall', hu⟩
        · exact .inl (exec_spent hrun hspent)
        · have hrest := ih found hrun hu
          simpa only [exec, hcall'] using hrest

/-- Whatever a nonterminal reads without a fault, it reads in the second text as well. -/
theorem run_follows (setting setting' : Setting) (n : Nat) (tail : List Symbol) (fuel : Nat) :
    Caller.FollowedBy n tail (run setting fuel) (run setting' fuel) := by
  induction fuel with
  | zero =>
    intro β nonterminal inLabels s s' t value h
    cases h
  | succ fuel ih =>
    intro β nonterminal inLabels s s' t value h ht hs
    exact @Moves.endsBeside setting setting' n tail fuel ih inLabels β nonterminal.movable _ _
      (Moves.rule nonterminal) s s' t value h ht hs

end Runs

end JavaSyntax
