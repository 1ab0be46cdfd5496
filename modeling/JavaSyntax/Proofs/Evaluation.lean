import JavaSyntax.Proofs.Cutting
import JavaSyntax.Proofs.Termination

/-!
What a rule comes to, whatever the fuel. Under the contract `evaluates` a rule ends as wanted if
some fuel is enough for it to end so, and a call of a nonterminal may be replaced by its rule. The
words of a state are what its symbols tell apart from their layout.
-/

namespace JavaSyntax

/-- The contract that a nonterminal ends, and as it does. -/
def evaluates (setting : Setting) : Contract where
  pre nonterminal inLabels s := ∃ fuel out, run setting fuel nonterminal inLabels s = some out
  post nonterminal inLabels s r t :=
    ∃ fuel, run setting fuel nonterminal inLabels s = some (r, t)

section Runs

variable {setting : Setting} {inLabels : Bool} {α β : Type}

theorem run_unique {fuel fuel' : Nat} {nonterminal : Nonterminal β} {s : State}
    {out out' : Except SyntaxError β × State}
    (h : run setting fuel nonterminal inLabels s = some out)
    (h' : run setting fuel' nonterminal inLabels s = some out') : out = out' := by
  have hmore := run_more (Nat.le_max_left fuel fuel') nonterminal inLabels s out h
  have hmore' := run_more (Nat.le_max_right fuel fuel') nonterminal inLabels s out' h'
  exact Option.some.inj (hmore.symm.trans hmore')

/-- Finitely many calls are made on the way, so some fuel is enough for all of them. -/
theorem exec_of_ensures {rule : Rule α} {s : State} {Q : Except SyntaxError α → State → Prop}
    (h : rule.Ensures setting (evaluates setting) inLabels s Q) :
    ∃ fuel r t, exec setting (run setting fuel) inLabels rule s = some (r, t) ∧ Q r t := by
  induction rule generalizing s with
  | done value => exact ⟨0, _, s, rfl, h⟩
  | fail error => exact ⟨0, _, s, rfl, h⟩
  | look rest ih => exact ih _ h
  | advance n rest ih => exact ih h
  | splitAngle rest ih => exact ih h
  | report error rest ih => exact ih h
  | deprecation doc name rest ih => exact ih h
  | call nonterminal asLabels rest ih =>
    obtain ⟨⟨fuel, ⟨result, u⟩, hcall⟩, hrest⟩ := h
    obtain ⟨fuel', r, t, hexec, hQ⟩ := ih result (hrest result u ⟨fuel, hcall⟩)
    refine ⟨max fuel fuel', r, t, ?_, hQ⟩
    have hcall' := run_more (Nat.le_max_left fuel fuel') nonterminal _ s _ hcall
    simp only [exec, hcall']
    exact exec_more (run_more (Nat.le_max_right fuel fuel')) _ u hexec

theorem ensures_of_exec {fuel : Nat} {rule : Rule α} {s t : State}
    {r : Except SyntaxError α} {Q : Except SyntaxError α → State → Prop}
    (h : exec setting (run setting fuel) inLabels rule s = some (r, t)) (hQ : Q r t) :
    rule.Ensures setting (evaluates setting) inLabels s Q := by
  induction rule generalizing s with
  | done value =>
    cases h
    exact hQ
  | fail error =>
    cases h
    exact hQ
  | look rest ih => exact ih _ h
  | advance n rest ih => exact ih h
  | splitAngle rest ih => exact ih h
  | report error rest ih => exact ih h
  | deprecation doc name rest ih => exact ih h
  | call nonterminal asLabels rest ih =>
    cases hcall : run setting fuel nonterminal (inLabels || asLabels) s with
    | none => simp [exec, hcall] at h
    | some out =>
      simp only [exec, hcall] at h
      refine ⟨⟨fuel, out, hcall⟩, ?_⟩
      rintro r' t' ⟨fuel', hcall'⟩
      cases run_unique hcall hcall'
      exact ih _ h

/-- Calling a nonterminal is running its rule. -/
theorem ensures_rule {nonterminal : Nonterminal β} {s : State}
    {Q : Except SyntaxError β → State → Prop} :
    (Grammar.call nonterminal).Ensures setting (evaluates setting) inLabels s Q ↔
      (Grammar.rule nonterminal).Ensures setting (evaluates setting) inLabels s Q := by
  refine Rule.ensures_call.trans ⟨?_, ?_⟩
  · rintro ⟨⟨fuel, ⟨r, t⟩, hrun⟩, hQ⟩
    cases fuel with
    | zero => cases hrun
    | succ fuel => exact ensures_of_exec hrun (hQ r t ⟨fuel + 1, hrun⟩)
  · intro h
    obtain ⟨fuel, r, t, hexec, hQ⟩ := exec_of_ensures h
    have hrun : run setting (fuel + 1) nonterminal inLabels s = some (r, t) := hexec
    refine ⟨⟨fuel + 1, _, hrun⟩, fun r' t' ⟨fuel', hrun'⟩ => ?_⟩
    cases run_unique hrun hrun'
    exact hQ

theorem ensures_rule_bind {nonterminal : Nonterminal α} {f : α → Rule β} {s : State}
    {Q : Except SyntaxError β → State → Prop} :
    (Grammar.call nonterminal >>= f).Ensures setting (evaluates setting) inLabels s Q ↔
      (Grammar.rule nonterminal >>= f).Ensures setting (evaluates setting) inLabels s Q :=
  Rule.ensures_bind.trans (ensures_rule.trans Rule.ensures_bind.symm)

end Runs

namespace Session

/-- An entry point answers as its rule ends. -/
theorem enter_of_ensures {α : Type} {session : Session} {entry : Nonterminal α} {spare tree : α}
    {t : State} (hw : entry.isWhole = true)
    (h : (Grammar.rule entry).Ensures session.setting (evaluates session.setting) false
      session.state fun r u => r = .ok tree ∧ u = t) :
    session.enter entry spare = (tree, { session with state := t }) := by
  obtain ⟨fuel, r, u, hexec, rfl, rfl⟩ := exec_of_ensures h
  have hrun : run session.setting (fuel + 1) entry false session.state = some (.ok tree, u) :=
    hexec
  obtain ⟨hruns, _⟩ := session.enter_readsAll spare hw
  have hanswer := run_unique (hruns _ (Nat.le_refl _)) hrun
  obtain ⟨htree, hstate⟩ := Prod.mk.inj hanswer
  refine Prod.ext (Except.ok.inj htree) ?_
  rw [← hstate, ← enter_setting session entry spare]

end Session

def Symbol.word (s : Symbol) : Word := (s.kind, s.text)

/-- The first word, if there is one, is of such a kind. -/
def Heads (p : Kind → Bool) (ws : List Word) : Prop :=
  ∀ w ∈ ws.head?, p w.1 = true

namespace State

/-- The words that are ahead. -/
def words (s : State) : List Word :=
  s.ahead.map Symbol.word

theorem view_ahead (s : State) (inLabels : Bool) : (s.view inLabels).ahead = s.ahead := rfl

theorem words_advance (s : State) (n : Nat) : (s.advance n).words = s.words.drop n := by
  unfold words State.advance
  split
  · rename_i hn
    rw [hn, List.drop_zero]
  · exact List.map_drop ..

/-- The state `t` lies behind `s`, in front of these words, and nothing was reported in between. -/
structure Past (s t : State) (rest : List Word) : Prop where
  words : t.words = rest
  budget : t.budget = s.budget
  log : t.log = s.log

variable {s t u : State} {ws rest : List Word} {w : Word} {k : Kind}

theorem Past.trans (h : s.Past t ws) (h' : t.Past u rest) : s.Past u rest :=
  ⟨h'.words, h'.budget.trans h.budget, h'.log.trans h.log⟩

theorem past_self (h : s.words = rest) : s.Past s rest := ⟨h, rfl, rfl⟩

theorem past_advance (ws : List Word) (h : s.words = ws ++ rest) :
    s.Past (s.advance ws.length) rest := by
  refine ⟨by rw [words_advance, h, List.drop_left], ?_, ?_⟩
  · unfold State.advance
    split <;> rfl
  · unfold State.advance
    split <;> rfl

theorem past_one (h : s.words = w :: rest) : s.Past (s.advance 1) rest :=
  past_advance [w] h

theorem words_of_ahead {sym : Symbol} {more : List Symbol} (h : s.ahead = sym :: more) :
    s.words = sym.word :: more.map Symbol.word := by
  unfold words
  rw [h, List.map_cons]

theorem ahead_of_words (h : s.words = w :: rest) :
    ∃ sym more, s.ahead = sym :: more ∧ sym.word = w ∧ more.map Symbol.word = rest :=
  List.map_eq_cons_iff.mp h

theorem next_eq (h : s.words = w :: rest) : Lookahead.next [k] s.ahead = (w.1 == k) := by
  obtain ⟨sym, more, hahead, rfl, _⟩ := ahead_of_words h
  rw [hahead]
  exact Bool.and_true _

theorem nextOneOf_eq {ks : List Kind} (h : s.words = w :: rest) :
    Lookahead.nextOneOf ks s.ahead = ks.contains w.1 := by
  obtain ⟨sym, more, hahead, rfl, _⟩ := ahead_of_words h
  rw [hahead]
  rfl

theorem next_eq_true (h : s.words = w :: rest) (hk : w.1 = k) :
    Lookahead.next [k] s.ahead = true := by
  rw [next_eq h, hk, beq_self_eq_true]

theorem next_eq_false (h : Heads (· != k) s.words) : Lookahead.next [k] s.ahead = false := by
  unfold State.words at h
  cases hahead : s.ahead with
  | nil => rfl
  | cons sym more =>
    rw [hahead] at h
    have hne := h _ rfl
    simp only [Symbol.word, bne_iff_ne, ne_eq] at hne
    simp [Lookahead.next, hne]

theorem head_of_words (h : s.words = w :: rest) :
    s.ahead.head?.map Symbol.kind = some w.1 := by
  obtain ⟨sym, more, hahead, rfl, _⟩ := ahead_of_words h
  rw [hahead]
  rfl

theorem lookup_words {γ : Type} (table : Kind → Option γ) (h : s.words = w :: rest) :
    Grammar.lookup table s.ahead = table w.1 := by
  obtain ⟨sym, more, hahead, rfl, _⟩ := ahead_of_words h
  rw [hahead]
  rfl

end State

namespace Rule

open Grammar

variable {setting : Setting} {C : Contract} {inLabels : Bool} {α β : Type} {s : State}
  {w : Word} {rest : List Word} {k : Kind} {Q : Except SyntaxError β → State → Prop}

theorem listIf_false {c : Category} (rule : Rule (Tree (.list c))) :
    listIf false rule = pure .nil := rfl

theorem ensures_accept_yes {f : Bool → Rule β} (h : s.words = w :: rest) (hk : w.1 = k)
    (hf : (f true).Ensures setting C inLabels (s.advance 1) Q) :
    (accept k >>= f).Ensures setting C inLabels s Q := by
  rw [ensures_accept_bind, if_pos (State.next_eq_true h hk)]
  exact hf

theorem ensures_accept_no {f : Bool → Rule β} (h : Heads (· != k) s.words)
    (hf : (f false).Ensures setting C inLabels s Q) :
    (accept k >>= f).Ensures setting C inLabels s Q := by
  rw [ensures_accept_bind, if_neg (by simp [State.next_eq_false h])]
  exact hf

theorem ensures_expect_yes {f : Unit → Rule β} (h : s.words = w :: rest) (hk : w.1 = k)
    (hf : (f ()).Ensures setting C inLabels (s.advance 1) Q) :
    (expect k >>= f).Ensures setting C inLabels s Q := by
  rw [ensures_expect_bind, if_pos (State.next_eq_true h hk)]
  exact hf

theorem ensures_takeText {f : String → Rule β} (h : s.words = w :: rest)
    (hf : (f w.2).Ensures setting C inLabels (s.advance 1) Q) :
    (takeText >>= f).Ensures setting C inLabels s Q := by
  obtain ⟨sym, more, hahead, rfl, _⟩ := State.ahead_of_words h
  unfold takeText
  rw [ensures_bind, ensures_ahead_bind, ensures_advance_bind, hahead]
  exact hf

theorem ensures_identifier_yes {f : String → Rule β} (h : s.words = w :: rest)
    (hk : w.1 = .identifier) (hf : (f w.2).Ensures setting C inLabels (s.advance 1) Q) :
    (identifier >>= f).Ensures setting C inLabels s Q := by
  unfold identifier
  rw [ensures_bind, ensures_view_bind, State.view_ahead, if_pos (State.next_eq_true h hk),
    ← ensures_bind]
  exact ensures_takeText h hf

end Rule

end JavaSyntax
