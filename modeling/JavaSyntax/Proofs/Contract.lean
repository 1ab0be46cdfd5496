import JavaSyntax.Proofs.Invariant

/-!
Reasoning about one rule at a time. A contract says what every nonterminal may assume when it is
called and what it then guarantees. `Rule.Ensures` asks of one rule that it calls nonterminals only
as the contract allows and that, given their guarantees, it ends as wanted; `exec_ensures` takes
this to any caller that fulfils the contract.
-/

namespace JavaSyntax

structure Contract where
  /-- What holds where a nonterminal is called. -/
  pre : {β : Type} → Nonterminal β → Bool → State → Prop
  /-- How the call then ends. -/
  post : {β : Type} → Nonterminal β → Bool → State → Except SyntaxError β → State → Prop

/-- A caller that ends every call the contract allows, and as the contract says. -/
def Caller.Meets (caller : Caller) (C : Contract) : Prop :=
  ∀ {β : Type} (nonterminal : Nonterminal β) (inLabels : Bool) (s : State),
    C.pre nonterminal inLabels s →
      ∃ r t, caller nonterminal inLabels s = some (r, t) ∧ C.post nonterminal inLabels s r t

/-- The rule keeps to the contract from this state on, and ends as wanted. -/
def Rule.Ensures (setting : Setting) (C : Contract) (inLabels : Bool) {α : Type} :
    Rule α → State → (Except SyntaxError α → State → Prop) → Prop
  | .done value, s, Q => Q (.ok value) s
  | .fail error, s, Q => Q (.error error) s
  | .look rest, s, Q => (rest (s.view inLabels)).Ensures setting C inLabels s Q
  | .advance n rest, s, Q => rest.Ensures setting C inLabels (s.advance n) Q
  | .splitAngle rest, s, Q => rest.Ensures setting C inLabels s.splitAngle Q
  | .report error rest, s, Q => rest.Ensures setting C inLabels (s.report setting.layout error) Q
  | .deprecation doc name rest, s, Q =>
    rest.Ensures setting C inLabels (s.deprecation setting doc name) Q
  | .call nonterminal asLabels rest, s, Q =>
    C.pre nonterminal (inLabels || asLabels) s ∧
      ∀ r t, C.post nonterminal (inLabels || asLabels) s r t →
        (rest r).Ensures setting C inLabels t Q

/-- While it runs in `s`, the rule calls the nonterminal in the state `t`. -/
inductive Calls (setting : Setting) (caller : Caller) (inLabels : Bool) {α β : Type}
    (nonterminal : Nonterminal β) (t : State) : Rule α → State → Prop where
  | look {rest : View → Rule α} {s : State}
      (next : Calls setting @caller inLabels nonterminal t (rest (s.view inLabels)) s) :
      Calls setting @caller inLabels nonterminal t (.look rest) s
  | advance {n : Nat} {rest : Rule α} {s : State}
      (next : Calls setting @caller inLabels nonterminal t rest (s.advance n)) :
      Calls setting @caller inLabels nonterminal t (.advance n rest) s
  | splitAngle {rest : Rule α} {s : State}
      (next : Calls setting @caller inLabels nonterminal t rest s.splitAngle) :
      Calls setting @caller inLabels nonterminal t (.splitAngle rest) s
  | report {error : SyntaxError} {rest : Rule α} {s : State}
      (next : Calls setting @caller inLabels nonterminal t rest (s.report setting.layout error)) :
      Calls setting @caller inLabels nonterminal t (.report error rest) s
  | deprecation {doc : Option Mark} {name : Extent} {rest : Rule α} {s : State}
      (next : Calls setting @caller inLabels nonterminal t rest
        (s.deprecation setting doc name)) :
      Calls setting @caller inLabels nonterminal t (.deprecation doc name rest) s
  | here {asLabels : Bool} {rest : Except SyntaxError β → Rule α} :
      Calls setting @caller inLabels nonterminal t (.call nonterminal asLabels rest) t
  | after {γ : Type} {called : Nonterminal γ} {asLabels : Bool}
      {rest : Except SyntaxError γ → Rule α} {s u : State} {r : Except SyntaxError γ}
      (returned : caller called (inLabels || asLabels) s = some (r, u))
      (next : Calls setting @caller inLabels nonterminal t (rest r) u) :
      Calls setting @caller inLabels nonterminal t (.call called asLabels rest) s

variable {setting : Setting} {C : Contract} {caller : Caller} {inLabels : Bool} {α β : Type}

/-- A rule that keeps to the contract comes to an end, and ends as wanted. -/
theorem exec_ensures (hc : caller.Meets C) (rule : Rule α) (s : State)
    {Q : Except SyntaxError α → State → Prop} (h : rule.Ensures setting C inLabels s Q) :
    ∃ r t, exec setting caller inLabels rule s = some (r, t) ∧ Q r t := by
  induction rule generalizing s with
  | done value => exact ⟨_, s, rfl, h⟩
  | fail error => exact ⟨_, s, rfl, h⟩
  | look rest ih => exact ih _ s h
  | advance n rest ih => exact ih _ h
  | splitAngle rest ih => exact ih _ h
  | report error rest ih => exact ih _ h
  | deprecation doc name rest ih => exact ih _ h
  | call nonterminal asLabels rest ih =>
    obtain ⟨hpre, hrest⟩ := h
    obtain ⟨result, u, hcall, hpost⟩ := hc nonterminal _ s hpre
    simp only [exec, hcall]
    exact ih result u (hrest result u hpost)

/-- Every call that a rule really makes is one the contract allows. -/
theorem Calls.pre {nonterminal : Nonterminal β} {t s : State} {rule : Rule α}
    {Q : Except SyntaxError α → State → Prop} (hc : caller.Meets C)
    (h : Calls setting @caller inLabels nonterminal t rule s)
    (hQ : rule.Ensures setting C inLabels s Q) : ∃ flag, C.pre nonterminal flag t := by
  induction h with
  | look _ ih => exact ih hQ
  | advance _ ih => exact ih hQ
  | splitAngle _ ih => exact ih hQ
  | report _ ih => exact ih hQ
  | deprecation _ ih => exact ih hQ
  | here => exact ⟨_, hQ.1⟩
  | after returned _ ih =>
    obtain ⟨r, u, hcall, hpost⟩ := hc _ _ _ hQ.1
    rw [returned] at hcall
    cases hcall
    exact ih (hQ.2 _ _ hpost)

/-- What every step keeps still holds where a rule calls a nonterminal. -/
theorem Calls.kept {nonterminal : Nonterminal β} {t s : State} {rule : Rule α} {P : State → Prop}
    (hP : Kept setting P) (hc : caller.Keeps P)
    (h : Calls setting @caller inLabels nonterminal t rule s) (hs : P s) : P t := by
  induction h with
  | look _ ih => exact ih hs
  | advance _ ih => exact ih (hP.advance _ _ hs)
  | splitAngle _ ih => exact ih (hP.splitAngle _ hs)
  | report _ ih => exact ih (hP.record _ _ _ _ hs)
  | deprecation _ ih => exact ih (hP.deprecation _ _ _ hs)
  | here => exact hs
  | after returned _ ih => exact ih (hc _ _ _ _ _ returned hs)

/-- A caller that may not end, but if it does, then as the contract says. -/
def Caller.Respects (caller : Caller) (C : Contract) : Prop :=
  ∀ {β : Type} (nonterminal : Nonterminal β) (inLabels : Bool) (s : State)
    (r : Except SyntaxError β) (t : State), C.pre nonterminal inLabels s →
      caller nonterminal inLabels s = some (r, t) → C.post nonterminal inLabels s r t

theorem exec_respects (hc : caller.Respects C) (rule : Rule α) (s : State) {t : State}
    {r : Except SyntaxError α} {Q : Except SyntaxError α → State → Prop}
    (h : rule.Ensures setting C inLabels s Q)
    (he : exec setting caller inLabels rule s = some (r, t)) : Q r t := by
  induction rule generalizing s with
  | done value =>
    cases he
    exact h
  | fail error =>
    cases he
    exact h
  | look rest ih => exact ih _ s h he
  | advance n rest ih => exact ih _ h he
  | splitAngle rest ih => exact ih _ h he
  | report error rest ih => exact ih _ h he
  | deprecation doc name rest ih => exact ih _ h he
  | call nonterminal asLabels rest ih =>
    cases hcall : caller nonterminal (inLabels || asLabels) s with
    | none => simp [exec, hcall] at he
    | some out =>
      obtain ⟨result, u⟩ := out
      simp only [exec, hcall] at he
      exact ih result u (h.2 result u (hc _ _ _ _ _ h.1 hcall)) he

/-- Rules that each keep to the contract keep to it together, however deep they nest. -/
theorem run_respects (hrules : ∀ {β : Type} (nonterminal : Nonterminal β) (flag : Bool) (s : State),
    C.pre nonterminal flag s → (Grammar.rule nonterminal).Ensures setting C flag s
      (C.post nonterminal flag s)) (fuel : Nat) : Caller.Respects (run setting fuel) C := by
  induction fuel with
  | zero =>
    intro β nonterminal flag s r t _ h
    cases h
  | succ fuel ih =>
    intro β nonterminal flag s r t hpre h
    exact exec_respects ih _ s (hrules nonterminal flag s hpre) h

namespace Rule

theorem Ensures.mono {rule : Rule α} {s : State} {P Q : Except SyntaxError α → State → Prop}
    (h : rule.Ensures setting C inLabels s P) (hPQ : ∀ r t, P r t → Q r t) :
    rule.Ensures setting C inLabels s Q := by
  induction rule generalizing s with
  | done value => exact hPQ _ _ h
  | fail error => exact hPQ _ _ h
  | look rest ih => exact ih _ h
  | advance n rest ih => exact ih h
  | splitAngle rest ih => exact ih h
  | report error rest ih => exact ih h
  | deprecation doc name rest ih => exact ih h
  | call nonterminal asLabels rest ih => exact ⟨h.1, fun r t ht => ih r (h.2 r t ht)⟩

/-- Where every call is allowed and every end is as wanted, nothing is to be shown. -/
theorem ensures_of_forall {rule : Rule α} {s : State}
    {Q : Except SyntaxError α → State → Prop}
    (hpre : ∀ {γ : Type} (nonterminal : Nonterminal γ) flag u, C.pre nonterminal flag u)
    (hQ : ∀ r t, Q r t) : rule.Ensures setting C inLabels s Q := by
  induction rule generalizing s with
  | done value => exact hQ _ _
  | fail error => exact hQ _ _
  | look rest ih => exact ih _
  | advance n rest ih => exact ih
  | splitAngle rest ih => exact ih
  | report error rest ih => exact ih
  | deprecation doc name rest ih => exact ih
  | call nonterminal asLabels rest ih => exact ⟨hpre _ _ _, fun r _ _ => ih r⟩

/-- A rule followed by another: the second starts where the first ended, unless that failed. -/
theorem ensures_bind {rule : Rule α} {f : α → Rule β} {s : State}
    {Q : Except SyntaxError β → State → Prop} :
    (rule >>= f).Ensures setting C inLabels s Q ↔
      rule.Ensures setting C inLabels s fun r t =>
        match r with
        | .ok value => (f value).Ensures setting C inLabels t Q
        | .error error => Q (.error error) t := by
  change (rule.bind f).Ensures setting C inLabels s Q ↔ _
  induction rule generalizing s with
  | done value => rfl
  | fail error => rfl
  | look rest ih => exact ih _
  | advance n rest ih => exact ih
  | splitAngle rest ih => exact ih
  | report error rest ih => exact ih
  | deprecation doc name rest ih => exact ih
  | call nonterminal asLabels rest ih =>
    exact and_congr_right fun _ => forall_congr' fun r => forall_congr' fun t =>
      imp_congr_right fun _ => ih r

/-! The building blocks of rules, each with what follows it. -/

section Blocks

variable {f : α → Rule β} {s : State} {Q : Except SyntaxError β → State → Prop}

theorem ensures_pure_bind {value : α} :
    ((pure value : Rule α) >>= f).Ensures setting C inLabels s Q ↔
      (f value).Ensures setting C inLabels s Q := Iff.rfl

theorem ensures_view_bind {f : View → Rule β} :
    (Grammar.view >>= f).Ensures setting C inLabels s Q ↔
      (f (s.view inLabels)).Ensures setting C inLabels s Q := Iff.rfl

theorem ensures_ahead_bind {f : List Symbol → Rule β} :
    (Grammar.ahead >>= f).Ensures setting C inLabels s Q ↔
      (f s.ahead).Ensures setting C inLabels s Q := Iff.rfl

theorem ensures_mark_bind {f : Mark → Rule β} :
    (Grammar.mark >>= f).Ensures setting C inLabels s Q ↔
      (f (s.view inLabels).mark).Ensures setting C inLabels s Q := Iff.rfl

theorem ensures_since_bind {start : Mark} {f : Extent → Rule β} :
    (Grammar.since start >>= f).Ensures setting C inLabels s Q ↔
      (f ((s.view inLabels).since start)).Ensures setting C inLabels s Q := Iff.rfl

theorem ensures_check_bind {kind : Kind} {f : Bool → Rule β} :
    (Grammar.check kind >>= f).Ensures setting C inLabels s Q ↔
      (f (Lookahead.next [kind] s.ahead)).Ensures setting C inLabels s Q := Iff.rfl

theorem ensures_advance_bind {n : Nat} {f : Unit → Rule β} :
    (Grammar.advance n >>= f).Ensures setting C inLabels s Q ↔
      (f ()).Ensures setting C inLabels (s.advance n) Q := Iff.rfl

theorem ensures_report_bind {error : SyntaxError} {f : Unit → Rule β} :
    (Grammar.report error >>= f).Ensures setting C inLabels s Q ↔
      (f ()).Ensures setting C inLabels (s.report setting.layout error) Q := Iff.rfl

theorem ensures_accept_bind {kind : Kind} {f : Bool → Rule β} :
    (Grammar.accept kind >>= f).Ensures setting C inLabels s Q ↔
      if Lookahead.next [kind] s.ahead = true then
        (f true).Ensures setting C inLabels (s.advance 1) Q
      else (f false).Ensures setting C inLabels s Q := by
  unfold Grammar.accept
  rw [ensures_bind, ensures_check_bind]
  by_cases h : Lookahead.next [kind] s.ahead = true
  · rw [h, if_pos rfl, if_pos rfl]
    rfl
  · rw [if_neg h, if_neg h, Bool.eq_false_iff.mpr h]
    rfl

theorem ensures_expect_bind {kind : Kind} {f : Unit → Rule β} :
    (Grammar.expect kind >>= f).Ensures setting C inLabels s Q ↔
      if Lookahead.next [kind] s.ahead = true then
        (f ()).Ensures setting C inLabels (s.advance 1) Q
      else Q (.error ((s.view inLabels).missing (.symbol kind))) s := by
  unfold Grammar.expect
  rw [ensures_bind, ensures_view_bind]
  by_cases h : Lookahead.next [kind] s.ahead = true
  · rw [if_pos h, if_pos (show Lookahead.next [kind] (s.view inLabels).ahead = true from h)]
    rfl
  · rw [if_neg h, if_neg (show ¬Lookahead.next [kind] (s.view inLabels).ahead = true from h)]
    rfl

theorem ensures_attempt_bind {nonterminal : Nonterminal α}
    {f : Except SyntaxError α → Rule β} :
    (Grammar.attempt nonterminal >>= f).Ensures setting C inLabels s Q ↔
      C.pre nonterminal inLabels s ∧
        ∀ r t, C.post nonterminal inLabels s r t → (f r).Ensures setting C inLabels t Q := by
  rw [ensures_bind]
  unfold Grammar.attempt
  simp only [Ensures, Bool.or_false]

theorem ensures_call {nonterminal : Nonterminal β} :
    (Grammar.call nonterminal).Ensures setting C inLabels s Q ↔
      C.pre nonterminal inLabels s ∧ ∀ r t, C.post nonterminal inLabels s r t → Q r t := by
  unfold Grammar.call
  simp only [Ensures, Bool.or_false]
  refine and_congr_right fun _ => forall_congr' fun r => forall_congr' fun t =>
    imp_congr_right fun _ => ?_
  cases r <;> rfl

end Blocks

end Rule

end JavaSyntax
