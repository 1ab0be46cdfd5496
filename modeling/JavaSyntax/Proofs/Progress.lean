import JavaSyntax.Proofs.Contract

/-!
Every parse makes progress and comes to an end with nothing left ahead. Nonterminals are ranked so
that a rule which has taken no symbol yet calls only lower ones; once it has taken one it may call
any, since `Session.fuel` allows for every rank at each symbol. So each rule need only be followed
up to the first symbol it takes, and `ensures_free` covers the rest of it.
-/

namespace JavaSyntax

/-- How many symbols are ahead. -/
def State.left (s : State) : Nat := s.ahead.length

namespace State

theorem ahead_advance (s : State) (n : Nat) : (s.advance n).ahead = s.ahead.drop n := by
  unfold advance
  split
  · rename_i hn
    rw [hn, List.drop_zero]
  · rfl

@[simp] theorem left_advance (s : State) (n : Nat) : (s.advance n).left = s.left - n := by
  unfold left
  rw [ahead_advance, List.length_drop]

@[simp] theorem left_splitAngle (s : State) : s.splitAngle.left = s.left := by
  unfold splitAngle left
  split
  · rfl
  · split
    · rfl
    · simp [*]

theorem moved_advance (s : State) (n : Nat) :
    (s.advance n).index + (s.advance n).left = s.index + s.left := by
  unfold advance left
  split
  · rfl
  · simp only [List.length_drop]
    omega

@[simp] theorem index_splitAngle (s : State) : s.splitAngle.index = s.index := by
  unfold splitAngle
  split
  · rfl
  · split <;> rfl

@[simp] theorem index_record (s : State) (source : Source) (fault : Fault) (start stop : Nat) :
    (s.record source fault start stop).index = s.index := by
  unfold record
  dsimp only
  split <;> rfl

@[simp] theorem index_report (s : State) (layout : Layout) (error : SyntaxError) :
    (s.report layout error).index = s.index :=
  index_record ..

@[simp] theorem index_deprecation (s : State) (setting : Setting) (doc : Option Mark)
    (name : Extent) : (s.deprecation setting doc name).index = s.index := by
  unfold deprecation
  split <;> rfl

@[simp] theorem ahead_record (s : State) (source : Source) (fault : Fault) (start stop : Nat) :
    (s.record source fault start stop).ahead = s.ahead := by
  unfold record
  dsimp only
  split <;> rfl

@[simp] theorem ahead_report (s : State) (layout : Layout) (error : SyntaxError) :
    (s.report layout error).ahead = s.ahead :=
  ahead_record ..

@[simp] theorem ahead_deprecation (s : State) (setting : Setting) (doc : Option Mark)
    (name : Extent) : (s.deprecation setting doc name).ahead = s.ahead := by
  unfold deprecation
  split <;> rfl

@[simp] theorem left_report (s : State) (layout : Layout) (error : SyntaxError) :
    (s.report layout error).left = s.left := by
  simp [left]

@[simp] theorem left_deprecation (s : State) (setting : Setting) (doc : Option Mark)
    (name : Extent) : (s.deprecation setting doc name).left = s.left := by
  simp [left]

end State

namespace Nonterminal

/-- How deep calls can nest from a nonterminal before a symbol is taken. -/
def rank : {β : Type} → Nonterminal β → Nat
  | _, .annotations _ => 1
  | _, .typeSegments _ _ _ _ => 1
  | _, .modifierRun => 1
  | _, .switchCases _ => 1
  | _, .type => 2
  | _, .typeParamList => 2
  | _, .enumConstants => 2
  | _, .typeArgList => 3
  | _, .lambdaParamList => 3
  | _, .paramList => 3
  | _, .member _ => 3
  | _, .item => 3
  | _, .wholeType => 3
  | _, .unary => 3
  | _, .members _ => 4
  | _, .items _ => 4
  | _, .binary _ => 4
  | _, .conditional => 5
  | _, .elementValue => 6
  | _, .expr => 6
  | _, .labels => 6
  | _, .elementValues => 7
  | _, .exprList => 7
  | _, .arrayElements => 7
  | _, .standalones => 7
  | _, .resources => 7
  | _, .stmt => 7
  | _, .wholeExpr => 7
  | _, .statements _ => 8
  | _, _ => 0

/-- Nonterminals that may succeed without taking a symbol. -/
def mayBeEmpty : {β : Type} → Nonterminal β → Bool
  | _, .annotations _ => true
  | _, .elementValues => true
  | _, .typeSegments _ _ _ _ => true
  | _, .typesAfter _ => true
  | _, .binaryRest _ _ _ => true
  | _, .selectors _ _ => true
  | _, .steps _ _ => true
  | _, .sizes => true
  | _, .arrayElements => true
  | _, .switchCases _ => true
  | _, .statements _ => true
  | _, .declarators _ _ => true
  | _, .resources => true
  | _, .catches => true
  | _, .modifierRun => true
  | _, .members _ => true
  | _, .enumConstants => true
  | _, .directives => true
  | _, .items _ => true
  | _, .wholeExpr => true
  | _, .wholeType => true
  | _, _ => false

/-- Nonterminals that read all there is and never fail. -/
def isWhole : {β : Type} → Nonterminal β → Bool
  | _, .items _ => true
  | _, .wholeExpr => true
  | _, .wholeType => true
  | _, _ => false

theorem rank_lt {β : Type} (nonterminal : Nonterminal β) : nonterminal.rank < 16 := by
  cases nonterminal <;> simp [rank]

end Nonterminal

/-- Nothing was put back, and a success took a symbol. -/
def Took {α : Type} (s : State) (r : Except SyntaxError α) (t : State) : Prop :=
  t.left ≤ s.left ∧ (r.isOk = true → t.left < s.left)

theorem Took.failed {α : Type} (s : State) (error : SyntaxError) :
    Took s (.error error : Except SyntaxError α) s :=
  ⟨Nat.le_refl _, fun h => by cases h⟩

/-- How far a call of a nonterminal gets. -/
structure Advanced {β : Type} (nonterminal : Nonterminal β) (s : State)
    (r : Except SyntaxError β) (t : State) : Prop where
  left_le : t.left ≤ s.left
  left_lt : nonterminal.mayBeEmpty = false → r.isOk = true → t.left < s.left
  whole : nonterminal.isWhole = true → r.isOk = true ∧ t.left = 0
  /-- What is no longer ahead was counted as taken. -/
  moved : t.index + t.left = s.index + s.left

/-- Calls that leave room for all calls they can lead to: `bound` is the depth still allowed. -/
def progress (bound : Nat) : Contract where
  pre nonterminal _ s := 16 * s.left + nonterminal.rank < bound
  post nonterminal _ := Advanced nonterminal

namespace Rule

variable {setting : Setting} {bound : Nat} {inLabels : Bool} {α β : Type}

/-- With a symbol's worth of depth to spare a rule may do whatever it likes. -/
theorem ensures_free (rule : Rule α) (s : State) (h : 16 * s.left + 16 ≤ bound) :
    rule.Ensures setting (progress bound) inLabels s fun _ t => t.left ≤ s.left := by
  induction rule generalizing s with
  | done value => exact Nat.le_refl _
  | fail error => exact Nat.le_refl _
  | look rest ih => exact ih _ s h
  | advance n rest ih =>
    refine (ih (s.advance n) ?_).mono fun _ t ht => ?_
    · rw [State.left_advance]
      omega
    · rw [State.left_advance] at ht
      omega
  | splitAngle rest ih =>
    have hrest := ih s.splitAngle (by simpa using h)
    rw [State.left_splitAngle] at hrest
    exact hrest
  | report error rest ih =>
    have hrest := ih (s.report setting.layout error) (by simpa using h)
    rw [State.left_report] at hrest
    exact hrest
  | deprecation doc name rest ih =>
    have hrest := ih (s.deprecation setting doc name) (by simpa using h)
    rw [State.left_deprecation] at hrest
    exact hrest
  | call nonterminal asLabels rest ih =>
    have hrank := nonterminal.rank_lt
    refine ⟨show 16 * s.left + nonterminal.rank < bound by omega, fun r t ht => ?_⟩
    have hle : t.left ≤ s.left := ht.left_le
    exact (ih r t (by omega)).mono fun _ u hu => Nat.le_trans hu hle

/-- Whatever a rule does, it counts the symbols it takes. -/
theorem Ensures.moved {rule : Rule α} {s : State} {Q : Except SyntaxError α → State → Prop}
    (h : rule.Ensures setting (progress bound) inLabels s Q) :
    rule.Ensures setting (progress bound) inLabels s
      fun r t => Q r t ∧ t.index + t.left = s.index + s.left := by
  induction rule generalizing s with
  | done value => exact ⟨h, rfl⟩
  | fail error => exact ⟨h, rfl⟩
  | look rest ih => exact ih _ h
  | advance n rest ih =>
    have hrest := ih h
    rw [State.moved_advance] at hrest
    exact hrest
  | splitAngle rest ih =>
    have hrest := ih h
    rw [State.left_splitAngle, State.index_splitAngle] at hrest
    exact hrest
  | report error rest ih =>
    have hrest := ih h
    rw [State.left_report, State.index_report] at hrest
    exact hrest
  | deprecation doc name rest ih =>
    have hrest := ih h
    rw [State.left_deprecation, State.index_deprecation] at hrest
    exact hrest
  | call nonterminal asLabels rest ih =>
    refine ⟨h.1, fun r t ht => ?_⟩
    have hmoved : t.index + t.left = s.index + s.left := ht.moved
    have hrest := ih r (h.2 r t ht)
    rw [hmoved] at hrest
    exact hrest

theorem Ensures.idle {rule : Rule α} {s : State}
    (h : rule.Ensures setting (progress bound) inLabels s (Took s)) :
    rule.Ensures setting (progress bound) inLabels s fun _ t => t.left ≤ s.left :=
  h.mono fun _ _ ht => ht.1

/-- Once the first part has taken a symbol the rest is free. -/
theorem ensures_took_bind {rule : Rule α} {f : α → Rule β} {s : State} (hb : 16 * s.left ≤ bound)
    (h : rule.Ensures setting (progress bound) inLabels s (Took s)) :
    (rule >>= f).Ensures setting (progress bound) inLabels s (Took s) := by
  rw [ensures_bind]
  refine h.mono fun r t ht => ?_
  cases r with
  | error error => exact ⟨ht.1, fun hr => by cases hr⟩
  | ok value =>
    have hlt : t.left < s.left := ht.2 rfl
    exact (ensures_free (f value) t (by omega)).mono fun _ u hu =>
      ⟨by omega, fun _ => by omega⟩

/-- A first part that need not take a symbol leaves it to the rest. -/
theorem ensures_idle_bind {rule : Rule α} {f : α → Rule β} {s : State}
    (h : rule.Ensures setting (progress bound) inLabels s fun _ t => t.left ≤ s.left)
    (hf : ∀ value t, t.left ≤ s.left →
      (f value).Ensures setting (progress bound) inLabels t (Took t)) :
    (rule >>= f).Ensures setting (progress bound) inLabels s (Took s) := by
  rw [ensures_bind]
  refine h.mono fun r t ht => ?_
  cases r with
  | error error => exact ⟨ht, fun hr => by cases hr⟩
  | ok value =>
    exact (hf value t ht).mono fun _ u hu => ⟨Nat.le_trans hu.1 ht, fun hr =>
      Nat.lt_of_lt_of_le (hu.2 hr) ht⟩

theorem ensures_bind_idle {rule : Rule α} {f : α → Rule β} {s : State}
    (h : rule.Ensures setting (progress bound) inLabels s fun _ t => t.left ≤ s.left)
    (hf : ∀ value t, t.left ≤ s.left →
      (f value).Ensures setting (progress bound) inLabels t fun _ u => u.left ≤ t.left) :
    (rule >>= f).Ensures setting (progress bound) inLabels s fun _ t => t.left ≤ s.left := by
  rw [ensures_bind]
  refine h.mono fun r t ht => ?_
  cases r with
  | error error => exact ht
  | ok value => exact (hf value t ht).mono fun _ u hu => Nat.le_trans hu ht

section Blocks

variable {s : State}

theorem left_pos (h : s.ahead ≠ []) : 0 < s.left := List.length_pos_iff.mpr h

theorem left_pos_of_next {kinds : List Kind} {kind : Kind}
    (h : Lookahead.next (kind :: kinds) s.ahead = true) : 0 < s.left :=
  left_pos fun hs => by simp [hs, Lookahead.next] at h

theorem left_pos_of_nextWord {word : String} (h : Lookahead.nextWord word s.ahead = true) :
    0 < s.left :=
  left_pos fun hs => by simp [hs, Lookahead.nextWord] at h

theorem left_pos_of_head {p : Symbol → Bool} (h : s.ahead.head?.any p = true) : 0 < s.left :=
  left_pos fun hs => by simp [hs] at h

theorem left_pos_of_lookup {γ : Type} {table : Kind → Option γ} {found : γ}
    (h : Grammar.lookup table s.ahead = some found) : 0 < s.left :=
  left_pos fun hs => by simp [hs, Grammar.lookup] at h

theorem left_pos_of_not_isEmpty (h : ¬s.ahead.isEmpty = true) : 0 < s.left :=
  left_pos fun hs => by simp [hs] at h

theorem left_pos_of_kind {kind : Kind} (h : s.ahead.head?.map Symbol.kind = some kind) :
    0 < s.left :=
  left_pos fun hs => by simp [hs] at h

theorem advance_took {n : Nat} (hn : 0 < n) (hs : 0 < s.left) :
    (Grammar.advance n).Ensures setting (progress bound) inLabels s (Took s) := by
  have hleft := s.left_advance n
  exact ⟨by omega, fun _ => by omega⟩

theorem takeText_took (hs : 0 < s.left) :
    Grammar.takeText.Ensures setting (progress bound) inLabels s (Took s) := by
  have hleft := s.left_advance 1
  exact ⟨by omega, fun _ => by omega⟩

theorem expect_took {kind : Kind} :
    (Grammar.expect kind).Ensures setting (progress bound) inLabels s (Took s) := by
  unfold Grammar.expect
  rw [ensures_view_bind]
  split
  · rename_i h
    exact advance_took Nat.one_pos (left_pos_of_next h)
  · exact Took.failed ..

theorem identifier_took :
    Grammar.identifier.Ensures setting (progress bound) inLabels s (Took s) := by
  unfold Grammar.identifier
  rw [ensures_view_bind]
  split
  · rename_i h
    exact takeText_took (left_pos_of_next h)
  · exact Took.failed ..

theorem call_idle {nonterminal : Nonterminal α} (hb : 16 * s.left + nonterminal.rank < bound) :
    (Grammar.call nonterminal).Ensures setting (progress bound) inLabels s
      fun _ t => t.left ≤ s.left := by
  rw [ensures_call]
  exact ⟨hb, fun r t ht => ht.left_le⟩

theorem call_took {nonterminal : Nonterminal α} (hn : nonterminal.mayBeEmpty = false)
    (hb : 16 * s.left + nonterminal.rank < bound) :
    (Grammar.call nonterminal).Ensures setting (progress bound) inLabels s (Took s) := by
  rw [ensures_call]
  exact ⟨hb, fun r t ht => ⟨ht.left_le, ht.left_lt hn⟩⟩

/-- A rule that may take a symbol first, or leave it: what it does then is up to the rest. -/
theorem ensures_accept_took {kind : Kind} {f : Bool → Rule β} (hb : 16 * s.left ≤ bound)
    (hf : (f false).Ensures setting (progress bound) inLabels s (Took s)) :
    (Grammar.accept kind >>= f).Ensures setting (progress bound) inLabels s (Took s) := by
  rw [ensures_accept_bind]
  split
  · rename_i h
    exact ensures_took_bind (f := fun _ => f true) hb
      (advance_took Nat.one_pos (left_pos_of_next h))
  · exact hf

theorem ensures_accept_idle {kind : Kind} {f : Bool → Rule β} (hb : 16 * s.left ≤ bound)
    (hf : (f false).Ensures setting (progress bound) inLabels s fun _ t => t.left ≤ s.left) :
    (Grammar.accept kind >>= f).Ensures setting (progress bound) inLabels s
      fun _ t => t.left ≤ s.left := by
  rw [ensures_accept_bind]
  split
  · rename_i h
    have htook : (Grammar.advance 1 >>= fun _ => f true).Ensures setting (progress bound) inLabels
        s (Took s) :=
      ensures_took_bind hb (advance_took Nat.one_pos (left_pos_of_next h))
    exact htook.idle
  · exact hf

end Blocks

end Rule

/-! Recovery only ever skips, and it skips something if the failed rule took nothing. -/

namespace Resync

theorem length_skipGroup_le (opener closer : Kind) (depth : Nat) (ts : List Symbol) :
    (skipGroup opener closer depth ts).length ≤ ts.length := by
  fun_induction skipGroup opener closer depth ts <;> grind

theorem length_skipBalanced_le (ts : List Symbol) :
    (skipBalanced ts).length ≤ ts.length - 1 := by
  unfold skipBalanced
  split
  · exact Nat.zero_le _
  · split
    all_goals first | exact length_skipGroup_le .. | exact Nat.le_refl _

theorem length_topLevel_le (ts : List Symbol) : (topLevel ts).length ≤ ts.length := by
  have hbalanced := length_skipBalanced_le
  fun_induction topLevel ts <;> grind

theorem length_classBody_le (ts : List Symbol) : (classBody ts).length ≤ ts.length := by
  have hbalanced := length_skipBalanced_le
  fun_induction classBody ts <;> grind

theorem length_block_le (inSwitch : Bool) (depth : Nat) (ts : List Symbol) :
    (block inSwitch depth ts).length ≤ ts.length := by
  fun_induction block inSwitch depth ts <;> grind

end Resync

/-- After a fault in what began at `s` and got to `t`, a loop goes on with fewer symbols ahead. -/
theorem Rule.ensures_recover_bind {setting : Setting} {C : Contract} {inLabels : Bool} {β : Type}
    {s t : State} {goOn : List Symbol → List Symbol} {error : SyntaxError} {f : Extent → Rule β}
    {Q : Except SyntaxError β → State → Prop} (hgo : ∀ ts, (goOn ts).length ≤ ts.length)
    (hs : 0 < s.left) (hle : t.left ≤ s.left) (hmoved : t.index + t.left = s.index + s.left)
    (hf : ∀ u n, u = (t.report setting.layout error).advance n → u.left < s.left →
      (f ((u.view inLabels).since (s.view inLabels).mark)).Ensures setting C inLabels u Q) :
    (Grammar.report error >>= fun _ => Grammar.resync goOn (s.view inLabels) >>= f).Ensures
      setting C inLabels t Q := by
  rw [ensures_report_bind]
  refine hf _ _ rfl ?_
  have hskip := Resync.length_skipBalanced_le t.ahead
  have hgo₁ := hgo (Resync.skipBalanced t.ahead)
  have hgo₂ := hgo t.ahead
  simp only [State.left_advance, State.left_report]
  simp only [State.view, State.index_report, State.ahead_report]
  unfold State.left at *
  split <;> omega

end JavaSyntax
