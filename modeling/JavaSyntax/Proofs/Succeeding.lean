import JavaSyntax.Proofs.TypeReading

/-!
Runs that succeed. `Succeeds` asks that there is a value at the end of a run and says what holds of
it; rules of which each succeeds where the one before it ended succeed together. An optional part
that is absent is passed over.
-/

namespace JavaSyntax

open Grammar Rule

/-- What holds at the end, where there must be a value. -/
def Succeeds {α : Type} (P : α → State → Prop) : Except SyntaxError α → State → Prop
  | .ok value, t => P value t
  | .error _, _ => False

section Rules

variable {setting : Setting} {inLabels : Bool} {α β : Type} {s : State}
  {P : α → State → Prop} {Q : β → State → Prop}

theorem succeeds_bind {rule : Rule α} {f : α → Rule β}
    (h : rule.Ensures setting (evaluates setting) inLabels s (Succeeds P))
    (hf : ∀ value t, P value t →
      (f value).Ensures setting (evaluates setting) inLabels t (Succeeds Q)) :
    (rule >>= f).Ensures setting (evaluates setting) inLabels s (Succeeds Q) := by
  rw [ensures_bind]
  refine h.mono fun r t hr => ?_
  cases r with
  | error error => cases hr
  | ok value => exact hf value t hr

theorem succeeds_mono {rule : Rule α} {R : α → State → Prop}
    (h : rule.Ensures setting (evaluates setting) inLabels s (Succeeds P))
    (hPR : ∀ value t, P value t → R value t) :
    rule.Ensures setting (evaluates setting) inLabels s (Succeeds R) :=
  h.mono fun r t hr => by
    cases r with
    | error error => cases hr
    | ok value => exact hPR value t hr

theorem succeeds_call {nonterminal : Nonterminal α}
    (h : (rule nonterminal).Ensures setting (evaluates setting) inLabels s (Succeeds P)) :
    (Grammar.call nonterminal).Ensures setting (evaluates setting) inLabels s (Succeeds P) :=
  ensures_rule.mpr h

/-- A call that keeps the fault of a nonterminal finds none. -/
theorem succeeds_attempt_bind {nonterminal : Nonterminal α} {f : Except SyntaxError α → Rule β}
    (h : (rule nonterminal).Ensures setting (evaluates setting) inLabels s (Succeeds P))
    (hf : ∀ value t, P value t →
      (f (.ok value)).Ensures setting (evaluates setting) inLabels t (Succeeds Q)) :
    (attempt nonterminal >>= f).Ensures setting (evaluates setting) inLabels s (Succeeds Q) := by
  obtain ⟨hends, hpost⟩ := ensures_call.mp (succeeds_call h)
  rw [ensures_attempt_bind]
  refine ⟨hends, fun r t ht => ?_⟩
  have hr := hpost r t ht
  cases r with
  | error error => cases hr
  | ok value => exact hf value t hr

theorem ComesTo.succeeds {rule : Rule α} {value : α} {t : State}
    (h : ComesTo setting inLabels rule s (pure value) t) (hP : P value t) :
    rule.Ensures setting (evaluates setting) inLabels s (Succeeds P) :=
  h _ hP

theorem ensures_require_yes {f : Unit → Rule β} {w : Word} {k : Kind} {rest : List Word}
    {R : Except SyntaxError β → State → Prop} (h : s.words = w :: rest) (hk : w.1 = k)
    (hf : (f ()).Ensures setting (evaluates setting) inLabels (s.advance 1) R) :
    (require k >>= f).Ensures setting (evaluates setting) inLabels s R := by
  unfold require
  rw [ensures_bind, ensures_view_bind, State.view_ahead, if_pos (State.next_eq_true h hk)]
  exact hf

/-- Where neither an annotation nor a modifier comes next there are none. -/
theorem ensures_modifiers_none {f : Modifiers → Rule β} {R : Except SyntaxError β → State → Prop}
    (hat : Lookahead.next [.atSign] s.ahead = false) (hnone : nextModifier s.ahead = none)
    (hf : (f ⟨[], .nil, (s.view inLabels).mark, (s.view inLabels).doc⟩).Ensures setting
      (evaluates setting) inLabels s R) :
    (modifiers >>= f).Ensures setting (evaluates setting) inLabels s R := by
  unfold modifiers
  rw [ensures_bind, ensures_view_bind]
  refine ensures_rule_bind.mpr ?_
  show (modifierRun >>= _).Ensures _ _ _ _ _
  unfold modifierRun
  rw [ensures_bind, ensures_ahead_bind, if_neg (by simp [hat]), hnone]
  exact hf

/-- The words that modifiers start with though they are names. -/
def startsModifier (w : Word) : Bool :=
  w.1 == .identifier && ["sealed", "non"].contains w.2

theorem nextModifier_eq_none {a : Symbol} {more : List Symbol} (hnone : modifier? a.kind = none)
    (hword : startsModifier a.word = false) : nextModifier (a :: more) = none := by
  have hnot (word : String) (h : word ∈ ["sealed", "non"]) : a.isWord word = false := by
    refine Bool.eq_false_iff.mpr fun his => ?_
    simp only [Symbol.isWord, Bool.and_eq_true, beq_iff_eq] at his
    obtain ⟨hkind, rfl⟩ := his
    simp [startsModifier, Symbol.word, hkind, List.contains_eq_mem, h] at hword
  have hsealed : Lookahead.isSealed (a :: more) = false := by
    cases more <;> simp [Lookahead.isSealed, hnot]
  have hnonSealed : Lookahead.isNonSealed (a :: more) = false := by
    rcases more with _ | ⟨b, _ | ⟨c, more⟩⟩ <;> simp [Lookahead.isNonSealed, hnot]
  have hlookup : lookup modifier? (a :: more) = none := hnone
  unfold nextModifier
  rw [hlookup, hsealed, hnonSealed]
  rfl

/-- A word that no modifier starts with. -/
theorem ensures_modifiers_other {f : Modifiers → Rule β} {R : Except SyntaxError β → State → Prop}
    {w : Word} {rest : List Word} (hs : s.words = w :: rest) (hat : w.1 ≠ .atSign)
    (hnone : modifier? w.1 = none) (hword : startsModifier w = false)
    (hf : (f ⟨[], .nil, (s.view inLabels).mark, (s.view inLabels).doc⟩).Ensures setting
      (evaluates setting) inLabels s R) :
    (modifiers >>= f).Ensures setting (evaluates setting) inLabels s R := by
  obtain ⟨a, more, hahead, rfl, -⟩ := State.ahead_of_words hs
  refine ensures_modifiers_none ?_ ?_ hf
  · rw [State.next_eq hs]
    exact beq_eq_false_iff_ne.mpr hat
  · rw [hahead]
    exact nextModifier_eq_none hnone hword

/-- At the end of a file nothing is added to it. -/
theorem items_end {unit : CompilationUnit} {R : CompilationUnit → State → Prop}
    (hs : s.words = []) (hR : R unit s) :
    (items unit).Ensures setting (evaluates setting) inLabels s (Succeeds R) := by
  have hahead : s.ahead = [] := List.map_eq_nil_iff.mp hs
  unfold items
  rw [ensures_view_bind, State.view_ahead, hahead]
  exact hR

/-- An item that is read is added to the file. -/
theorem items_next {unit : CompilationUnit} {P : UnitItem → State → Prop}
    {R : CompilationUnit → State → Prop} (hs : s.words ≠ []) (hrunning : s.budget.halted = false)
    (hitem : item.Ensures setting (evaluates setting) inLabels s (Succeeds P))
    (hmore : ∀ value t, P value t →
      (addItem unit value >>= fun unit => Grammar.call (.items unit)).Ensures setting
        (evaluates setting) inLabels t (Succeeds R)) :
    (items unit).Ensures setting (evaluates setting) inLabels s (Succeeds R) := by
  have hahead : s.ahead.isEmpty = false := by
    cases hs' : s.ahead with
    | nil => exact absurd (congrArg (List.map Symbol.word) hs') hs
    | cons => rfl
  unfold items
  rw [ensures_view_bind, State.view_ahead, if_neg (by simp [hahead]),
    if_neg (by simp [State.view, hrunning])]
  exact @succeeds_attempt_bind setting inLabels _ _ s P R .item _ hitem hmore

end Rules

/-- What a whole input comes to if its rule succeeds. -/
theorem Session.enter_of_succeeds {α : Type} {session : Session} {entry : Nonterminal α} {spare : α}
    {P : α → State → Prop} (hw : entry.isWhole = true)
    (h : (rule entry).Ensures session.setting (evaluates session.setting) false session.state
      (Succeeds P)) :
    P (session.enter entry spare).1 (session.enter entry spare).2.state := by
  obtain ⟨fuel, r, t, hexec, hr⟩ := exec_of_ensures h
  cases r with
  | error error => cases hr
  | ok value =>
    rw [@enter_of_ensures _ session entry spare value t hw (ensures_of_exec hexec ⟨rfl, rfl⟩)]
    exact hr

end JavaSyntax
