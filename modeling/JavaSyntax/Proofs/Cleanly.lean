import JavaSyntax.Proofs.Rounds

/-!
Runs that succeed and report nothing. Along such a run every symbol that a rule wants is there, and
every call succeeds. `Cleanly` asks for something at the end of these runs only, and a rule may be
followed to its end as if nothing could go wrong: a fault that is raised ends the run, and one that
is reported leaves it stale for good.
-/

namespace JavaSyntax

open Grammar

/-- What holds at the end, if the rule succeeded and nothing was reported up to there. -/
def Cleanly {α : Type} (P : α → State → Prop) : Except SyntaxError α → State → Prop
  | .ok value, t => t.IsFresh → P value t
  | .error _, _ => True

/-- The contract that `L` holds at the end of each clean run of a nonterminal. -/
def clean (setting : Setting) (L : State → {β : Type} → Nonterminal β → β → State → Prop) :
    Contract :=
  Contract.knowing
    { pre := fun _ _ _ => True
      post := fun nonterminal _ s => Cleanly (L s nonterminal) }
    (Ran setting)

/-- What clean runs come to, each rule on its own being enough. -/
theorem run_cleanly {setting : Setting}
    {L : State → {β : Type} → Nonterminal β → β → State → Prop}
    (hrules : ∀ {β : Type} (nonterminal : Nonterminal β) (flag : Bool) (s : State),
      (rule nonterminal).Ensures setting (clean setting @L) flag s (Cleanly (L s nonterminal)))
    {fuel : Nat} {β : Type} {nonterminal : Nonterminal β} {inLabels : Bool} {s t : State}
    {value : β} (h : run setting fuel nonterminal inLabels s = some (.ok value, t))
    (ht : t.IsFresh) : L s nonterminal value t :=
  (run_respects_knowing (Ran.knows setting) (fun nonterminal flag s _ => hrules nonterminal flag s)
    fuel nonterminal inLabels s _ t trivial h).1 ht

namespace State

@[simp] theorem advance_ahead (s : State) (n : Nat) : (s.advance n).ahead = s.ahead.drop n :=
  s.ahead_advance n

end State

namespace Cleanly

open Rule

variable {setting : Setting} {L : State → {β : Type} → Nonterminal β → β → State → Prop}
  {inLabels : Bool} {α β : Type} {s : State} {k : Kind} {P : β → State → Prop}

/-- A state in which something was reported has no clean run before it. -/
theorem of_stale {rule : Rule β} (hs : ¬s.IsFresh) :
    rule.Ensures setting (clean setting @L) inLabels s (Cleanly P) := by
  induction rule generalizing s with
  | done value =>
    intro ht
    exact absurd ht hs
  | fail error => trivial
  | look rest ih => exact ih _ hs
  | advance n rest ih =>
    apply ih
    simpa using hs
  | splitAngle rest ih =>
    apply ih
    simpa using hs
  | report error rest ih =>
    apply ih
    exact s.not_isFresh_report _ _
  | deprecation doc name rest ih =>
    apply ih
    exact (kept_not_isFresh setting).deprecation s doc name hs
  | call nonterminal asLabels rest ih =>
    refine ⟨trivial, fun r t ht => ih r fun hfresh => hs ?_⟩
    exact ht.2.runs.reaches.isFresh hfresh

/-- Nothing is asked of a rule of which nothing is wanted. -/
theorem any (rule : Rule α) :
    rule.Ensures setting (clean setting @L) inLabels s (Cleanly fun _ _ => True) := by
  apply ensures_of_forall
  · intro γ nonterminal flag u
    trivial
  · intro r t
    cases r <;> simp [Cleanly]

theorem mono {rule : Rule β} {Q : β → State → Prop}
    (h : rule.Ensures setting (clean setting @L) inLabels s (Cleanly P))
    (hPQ : ∀ value t, t.IsFresh → P value t → Q value t) :
    rule.Ensures setting (clean setting @L) inLabels s (Cleanly Q) := by
  apply h.mono
  intro r t hr
  cases r with
  | ok value => exact fun ht => hPQ value t ht (hr ht)
  | error error => trivial

theorem of_forall {rule : Rule β} (h : ∀ value t, P value t) :
    rule.Ensures setting (clean setting @L) inLabels s (Cleanly P) :=
  mono (any rule) fun value t _ _ => h value t

theorem bind {rule : Rule α} {f : α → Rule β} {R : α → State → Prop}
    (h : rule.Ensures setting (clean setting @L) inLabels s (Cleanly R))
    (hf : ∀ value t, t.IsFresh → R value t →
      (f value).Ensures setting (clean setting @L) inLabels t (Cleanly P)) :
    (rule >>= f).Ensures setting (clean setting @L) inLabels s (Cleanly P) := by
  rw [ensures_bind]
  apply h.mono
  intro r t hr
  cases r with
  | error error => trivial
  | ok value =>
    by_cases ht : t.IsFresh
    · exact hf value t ht (hr ht)
    · exact of_stale ht

theorem any_bind {rule : Rule α} {f : α → Rule β}
    (hf : ∀ value t, (f value).Ensures setting (clean setting @L) inLabels t (Cleanly P)) :
    (rule >>= f).Ensures setting (clean setting @L) inLabels s (Cleanly P) :=
  bind (any rule) fun value t _ _ => hf value t

theorem call {nonterminal : Nonterminal β}
    (h : ∀ value t, t.IsFresh → L s nonterminal value t → Ran setting nonterminal s (.ok value) t →
      P value t) :
    (Grammar.call nonterminal).Ensures setting (clean setting @L) inLabels s (Cleanly P) := by
  rw [ensures_call]
  refine ⟨trivial, fun r t ht => ?_⟩
  cases r with
  | ok value => exact fun hfresh => h value t hfresh (ht.1 hfresh) ht.2
  | error error => trivial

theorem call_bind {nonterminal : Nonterminal α} {f : α → Rule β}
    (hf : ∀ value t, t.IsFresh → L s nonterminal value t → Ran setting nonterminal s (.ok value) t →
      (f value).Ensures setting (clean setting @L) inLabels t (Cleanly P)) :
    (Grammar.call nonterminal >>= f).Ensures setting (clean setting @L) inLabels s (Cleanly P) :=
  bind (call fun _ _ _ h hran => And.intro h hran) fun value t ht h => hf value t ht h.1 h.2

theorem attempt_bind {nonterminal : Nonterminal α} {f : Except SyntaxError α → Rule β}
    (hf : ∀ value t, t.IsFresh → L s nonterminal value t → Ran setting nonterminal s (.ok value) t →
      (f (.ok value)).Ensures setting (clean setting @L) inLabels t (Cleanly P))
    (herror : ∀ error t,
      (f (.error error)).Ensures setting (clean setting @L) inLabels t (Cleanly P)) :
    (attempt nonterminal >>= f).Ensures setting (clean setting @L) inLabels s (Cleanly P) := by
  rw [ensures_attempt_bind]
  refine ⟨trivial, fun r t ht => ?_⟩
  cases r with
  | error error => exact herror error t
  | ok value =>
    by_cases hfresh : t.IsFresh
    · exact hf value t hfresh (ht.1 hfresh) ht.2
    · exact of_stale hfresh

theorem report_bind {error : SyntaxError} {f : Unit → Rule β} :
    (Grammar.report error >>= f).Ensures setting (clean setting @L) inLabels s (Cleanly P) := by
  rw [ensures_report_bind]
  exact of_stale (s.not_isFresh_report _ _)

/-! A symbol that is wanted is there. -/

theorem expect_bind {f : Unit → Rule β}
    (hf : ∀ x rest, s.ahead = x :: rest → x.kind = k →
      (f ()).Ensures setting (clean setting @L) inLabels (s.advance 1) (Cleanly P)) :
    (expect k >>= f).Ensures setting (clean setting @L) inLabels s (Cleanly P) := by
  rw [ensures_expect_bind]
  split
  · rename_i hnext
    obtain ⟨x, rest, hahead, hk⟩ := SoFar.ahead_of_next hnext
    exact hf x rest hahead hk
  · trivial

theorem accept_bind {f : Bool → Rule β}
    (hyes : ∀ x rest, s.ahead = x :: rest → x.kind = k →
      (f true).Ensures setting (clean setting @L) inLabels (s.advance 1) (Cleanly P))
    (hno : Lookahead.next [k] s.ahead = false →
      (f false).Ensures setting (clean setting @L) inLabels s (Cleanly P)) :
    (accept k >>= f).Ensures setting (clean setting @L) inLabels s (Cleanly P) := by
  rw [ensures_accept_bind]
  split
  · rename_i hnext
    obtain ⟨x, rest, hahead, hk⟩ := SoFar.ahead_of_next hnext
    exact hyes x rest hahead hk
  · rename_i hnext
    exact hno (by simpa using hnext)

theorem takeText_bind {f : String → Rule β} {x : Symbol} {rest : List Symbol}
    (hahead : s.ahead = x :: rest)
    (hf : (f x.text).Ensures setting (clean setting @L) inLabels (s.advance 1) (Cleanly P)) :
    (takeText >>= f).Ensures setting (clean setting @L) inLabels s (Cleanly P) := by
  unfold takeText
  rw [ensures_bind, ensures_ahead_bind, ensures_advance_bind, hahead]
  exact hf

theorem identifier_bind {f : String → Rule β}
    (hf : ∀ x rest, s.ahead = x :: rest → x.kind = .identifier →
      (f x.text).Ensures setting (clean setting @L) inLabels (s.advance 1) (Cleanly P)) :
    (identifier >>= f).Ensures setting (clean setting @L) inLabels s (Cleanly P) := by
  unfold identifier
  rw [ensures_bind, ensures_view_bind, State.view_ahead]
  split
  · rename_i hnext
    obtain ⟨x, rest, hahead, hk⟩ := SoFar.ahead_of_next hnext
    rw [← ensures_bind]
    exact takeText_bind hahead (hf x rest hahead hk)
  · trivial

theorem qualifiedName : Grammar.qualifiedName.Ensures setting (clean setting @L) inLabels s
    (Cleanly fun _ t => ∃ x rest, s.ahead = x :: rest ∧ x.kind = .identifier ∧
      t = (s.advance 1).advance (2 * (Lookahead.dottedTail rest).length)) := by
  unfold Grammar.qualifiedName
  apply identifier_bind
  intro x rest hahead hx
  rw [ensures_ahead_bind, ensures_advance_bind, State.advance_ahead, hahead]
  exact fun _ => ⟨x, rest, rfl, hx, rfl⟩

theorem dims : Grammar.dims.Ensures setting (clean setting @L) inLabels s
    (Cleanly fun _ t => t = s.advance (2 * Lookahead.dims s.ahead)) := by
  unfold Grammar.dims
  rw [ensures_ahead_bind, ensures_advance_bind]
  exact fun _ => rfl

end Cleanly

end JavaSyntax
