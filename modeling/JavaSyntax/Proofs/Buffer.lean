import JavaSyntax.Proofs.Places

/-!
A parse that keeps all its tokens. The state of a parse holds only what is ahead; here the tokens
that were taken stay in a buffer, the position in it moves on, an angle bracket is taken off a token
by changing it in place, and the flag for labels of a switch is set for a call and put back behind
it. `run_mirrors` shows that this is the same parse: what is ahead in the buffer is what the state
holds, and every call gives the same answer.
-/

namespace JavaSyntax

namespace Token

/-- What is left of a token without its first angle bracket. No documentation is in front of it. -/
def afterAngle? (t : Token) : Option Token :=
  (State.afterAngle t.kind).map fun kind => ⟨kind, kind.spelling, t.start + 1, t.stop, none⟩

/-- What is left of a token without its first `n` angle brackets. -/
def afterAngles : Nat → Token → Option Token
  | 0, t => some t
  | n + 1, t => (t.afterAngles n).bind afterAngle?

variable {t u v : Token} {n m : Nat}

theorem afterAngles_add (h : t.afterAngles n = some u) (h' : u.afterAngles m = some v) :
    t.afterAngles (n + m) = some v := by
  induction m generalizing v with
  | zero =>
    cases h'
    exact h
  | succ m ih =>
    obtain ⟨w, hw, hv⟩ := Option.bind_eq_some_iff.mp h'
    exact Option.bind_eq_some_iff.mpr ⟨w, ih hw, hv⟩

/-- The brackets that are gone moved the start of the token, and nothing else of its place. -/
theorem place_afterAngles (h : t.afterAngles n = some u) :
    u.start = t.start + n ∧ u.stop = t.stop := by
  induction n generalizing u with
  | zero =>
    cases h
    exact ⟨rfl, rfl⟩
  | succ n ih =>
    obtain ⟨w, hw, hu⟩ := Option.bind_eq_some_iff.mp h
    obtain ⟨kind, -, rfl⟩ := Option.map_eq_some_iff.mp hu
    obtain ⟨hstart, hstop⟩ := ih hw
    exact ⟨by rw [hstart, Nat.add_assoc], hstop⟩

theorem kind_afterAngles (h : t.afterAngles n = some u) :
    JavaSyntax.afterAngles n t.kind = some u.kind := by
  induction n generalizing u with
  | zero =>
    cases h
    rfl
  | succ n ih =>
    obtain ⟨w, hw, hu⟩ := Option.bind_eq_some_iff.mp h
    obtain ⟨kind, hkind, rfl⟩ := Option.map_eq_some_iff.mp hu
    exact Option.bind_eq_some_iff.mpr ⟨w.kind, ih hw, hkind⟩

/-- A token that angle brackets were taken off is written in full and has no documentation. -/
theorem rest_afterAngles (h : t.afterAngles (n + 1) = some u) :
    u.text = u.kind.spelling ∧ u.doc = none := by
  obtain ⟨w, -, hu⟩ := Option.bind_eq_some_iff.mp h
  obtain ⟨kind, -, rfl⟩ := Option.map_eq_some_iff.mp hu
  exact ⟨rfl, rfl⟩

end Token

/-- The second list has, token by token, what is left of the first. -/
def Worn (ts us : List Token) : Prop :=
  us.length = ts.length ∧
    ∀ (i : Nat) (t : Token), ts[i]? = some t → ∃ n u, t.afterAngles n = some u ∧ us[i]? = some u

namespace Worn

variable {ts us vs : List Token} {i : Nat} {t u : Token}

theorem refl (ts : List Token) : Worn ts ts :=
  ⟨rfl, fun _ t h => ⟨0, t, rfl, h⟩⟩

theorem trans (h : Worn ts us) (h' : Worn us vs) : Worn ts vs := by
  refine ⟨h'.1.trans h.1, fun i t ht => ?_⟩
  obtain ⟨n, u, hu, hi⟩ := h.2 i t ht
  obtain ⟨m, v, hv, hi'⟩ := h'.2 i u hi
  exact ⟨n + m, v, Token.afterAngles_add hu hv, hi'⟩

theorem set (ht : ts[i]? = some t) (hu : t.afterAngle? = some u) : Worn ts (ts.set i u) := by
  refine ⟨List.length_set .., fun j v hv => ?_⟩
  by_cases hij : i = j
  · subst hij
    cases ht.symm.trans hv
    have hlt := (List.getElem?_eq_some_iff.mp ht).1
    exact ⟨1, u, hu, List.getElem?_set_self hlt⟩
  · exact ⟨0, v, rfl, (List.getElem?_set_ne hij).trans hv⟩

/-- Whatever is there now is left of something. -/
theorem whole (h : Worn ts us) (hu : us[i]? = some u) :
    ∃ t n, ts[i]? = some t ∧ t.afterAngles n = some u := by
  have hlt : i < ts.length := h.1 ▸ (List.getElem?_eq_some_iff.mp hu).1
  obtain ⟨n, v, hv, hi⟩ := h.2 i _ (List.getElem?_eq_getElem hlt)
  cases hi.symm.trans hu
  exact ⟨_, n, List.getElem?_eq_getElem hlt, hv⟩

end Worn

/-- A parse with all its tokens. -/
structure Buffer where
  tokens : List Token
  /-- The next token. -/
  current : Nat
  /-- Whether labels of a switch are being read. -/
  inLabels : Bool
  budget : Budget
  log : List Diagnostic

namespace Buffer

/-- Where the last token in front of the next one stops. -/
def last (b : Buffer) : Option Nat :=
  match b.current with
  | 0 => none
  | i + 1 => b.tokens[i]?.map Token.stop

def ahead (b : Buffer) : List Symbol :=
  Layout.symbolsFrom b.last (b.tokens.drop b.current)

/-- How many bytes of the next token are gone, compared with the tokens as they were. -/
def taken (b : Buffer) (layout : Layout) : Nat :=
  match b.tokens[b.current]?, layout.tokens[b.current]? with
  | some t, some whole => t.start - whole.start
  | _, _ => 0

/-- The parse as it sees itself. -/
def state (b : Buffer) (layout : Layout) : State :=
  ⟨b.ahead, b.current, b.taken layout, b.budget, b.log⟩

def view (b : Buffer) (layout : Layout) : View :=
  (b.state layout).view b.inLabels

/-- Moves on by `n` tokens, but not past the last one. -/
def advance (b : Buffer) (n : Nat) : Buffer :=
  { b with current := min (b.current + n) b.tokens.length }

/-- Puts a token in the place of the next one. -/
def put (b : Buffer) (t : Token) : Buffer :=
  { b with tokens := b.tokens.set b.current t }

/-- Takes the first angle bracket off the next token. -/
def splitAngle (b : Buffer) : Buffer :=
  match b.tokens[b.current]?.bind Token.afterAngle? with
  | some t => b.put t
  | none => b

/-- Logs what a state has logged. -/
def told (b : Buffer) (s : State) : Buffer :=
  { b with budget := s.budget, log := s.log }

def record (b : Buffer) (layout : Layout) (fault : Fault) (start stop : Nat) : Buffer :=
  b.told ((b.state layout).record layout.source fault start stop)

def report (b : Buffer) (layout : Layout) (error : SyntaxError) : Buffer :=
  b.record layout error.fault (layout.offset error.extent.start) (layout.offset error.extent.stop)

def deprecation (b : Buffer) (setting : Setting) (doc : Option Mark) (name : Extent) : Buffer :=
  b.told ((b.state setting.layout).deprecation setting doc name)

/-- Sets the flag for a call that reads labels. -/
def calling (b : Buffer) (asLabels : Bool) : Buffer :=
  if asLabels then { b with inLabels := true } else b

/-- Puts the flag back behind such a call, however that ended. -/
def called (b : Buffer) (asLabels saved : Bool) : Buffer :=
  if asLabels then { b with inLabels := saved } else b

/-- A value or a fault with the buffer behind it; nothing if the fuel ran out. -/
abbrev Outcome (α : Type) : Type := Option (Except SyntaxError α × Buffer)

abbrev Caller : Type 1 := {β : Type} → Nonterminal β → Buffer → Outcome β

def exec (setting : Setting) (caller : Caller) {α : Type} : Rule α → Buffer → Outcome α
  | .done value, b => some (.ok value, b)
  | .fail error, b => some (.error error, b)
  | .look rest, b => exec setting caller (rest (b.view setting.layout)) b
  | .advance n rest, b => exec setting caller rest (b.advance n)
  | .splitAngle rest, b => exec setting caller rest b.splitAngle
  | .report error rest, b => exec setting caller rest (b.report setting.layout error)
  | .deprecation doc name rest, b => exec setting caller rest (b.deprecation setting doc name)
  | .call nonterminal asLabels rest, b =>
    match caller nonterminal (b.calling asLabels) with
    | none => none
    | some (result, c) => exec setting caller (rest result) (c.called asLabels b.inLabels)

def run (setting : Setting) : Nat → {β : Type} → Nonterminal β → Buffer → Outcome β
  | 0, _, _, _ => none
  | fuel + 1, _, nonterminal, b => exec setting (run setting fuel) (Grammar.rule nonterminal) b

/-- The buffer holds what is left of the tokens of a layout, and those that were not reached yet as
they were. -/
structure Faithful (b : Buffer) (layout : Layout) : Prop where
  worn : Worn layout.tokens.toList b.tokens
  current_le : b.current ≤ b.tokens.length
  later : ∀ i, b.current < i → b.tokens[i]? = layout.tokens.toList[i]?

end Buffer

theorem Layout.drop_succ_symbolsFrom (last : Option Nat) (ts : List Token) (n : Nat) :
    (symbolsFrom last ts).drop (n + 1) =
      symbolsFrom (ts[n]?.map Token.stop) (ts.drop (n + 1)) := by
  induction ts generalizing last n with
  | nil => rfl
  | cons t rest ih =>
    cases n with
    | zero => rfl
    | succ n => exact ih (some t.stop) n

namespace Buffer

variable {b : Buffer} {layout : Layout} {t u : Token}

theorem ahead_cons (ht : b.tokens[b.current]? = some t) :
    b.ahead = ⟨t.kind, t.text, b.last == some t.start⟩ ::
      Layout.symbolsFrom (some t.stop) (b.tokens.drop (b.current + 1)) := by
  obtain ⟨hlt, rfl⟩ := List.getElem?_eq_some_iff.mp ht
  rw [ahead, List.drop_eq_getElem_cons hlt]
  rfl

theorem taken_eq {whole : Token} (ht : b.tokens[b.current]? = some t)
    (hwhole : layout.tokens[b.current]? = some whole) : b.taken layout = t.start - whole.start := by
  simp only [taken, ht, hwhole]

/-- Nothing of the next token is gone if it is as it was. -/
theorem taken_whole (h : b.tokens[b.current]? = layout.tokens.toList[b.current]?) :
    b.taken layout = 0 := by
  rw [Array.getElem?_toList] at h
  cases hwhole : layout.tokens[b.current]? with
  | none => simp only [taken, h, hwhole]
  | some t =>
    rw [taken_eq (h.trans hwhole) hwhole]
    exact Nat.sub_self _

theorem last_put (b : Buffer) (t : Token) : (b.put t).last = b.last := by
  unfold last put
  cases b.current with
  | zero => rfl
  | succ i =>
    dsimp only
    rw [List.getElem?_set_ne (Nat.succ_ne_self i)]

theorem next_put (h : b.current < b.tokens.length) (t : Token) :
    (b.put t).tokens[(b.put t).current]? = some t :=
  List.getElem?_set_self h

theorem ahead_put (h : b.current < b.tokens.length) (t : Token) :
    (b.put t).ahead = ⟨t.kind, t.text, b.last == some t.start⟩ ::
      Layout.symbolsFrom (some t.stop) (b.tokens.drop (b.current + 1)) := by
  have hrest : (b.put t).tokens.drop ((b.put t).current + 1) = b.tokens.drop (b.current + 1) :=
    List.drop_set_of_lt (Nat.lt_succ_self _)
  rw [ahead_cons (next_put h t), last_put, hrest]

theorem splitAngle_cases (b : Buffer) : b.splitAngle = b ∨
    ∃ t u, b.tokens[b.current]? = some t ∧ t.afterAngle? = some u ∧ b.splitAngle = b.put u := by
  unfold splitAngle
  split
  · rename_i u hu
    obtain ⟨t, ht, hafter⟩ := Option.bind_eq_some_iff.mp hu
    exact .inr ⟨t, u, ht, hafter, rfl⟩
  · exact .inl rfl

theorem ahead_advance (b : Buffer) (n : Nat) :
    (b.advance (n + 1)).ahead = b.ahead.drop (n + 1) := by
  have hdrop : b.ahead.drop (n + 1) = _ := Layout.drop_succ_symbolsFrom ..
  rw [hdrop, List.drop_drop, List.getElem?_drop, ahead]
  by_cases hle : b.current + n + 1 ≤ b.tokens.length
  · have hnext : (b.advance (n + 1)).current = b.current + n + 1 := Nat.min_eq_left hle
    rw [last, hnext]
    rfl
  · have hnext : (b.advance (n + 1)).current = b.tokens.length := Nat.min_eq_right (by omega)
    have hpast : (b.advance (n + 1)).tokens.drop b.tokens.length = [] := List.drop_length ..
    rw [hnext, hpast, List.drop_eq_nil_of_le (by omega)]
    rfl

namespace Faithful

/-- The next token, and the whole of it. -/
theorem next (h : b.Faithful layout) (ht : b.tokens[b.current]? = some t) :
    ∃ whole n, layout.tokens[b.current]? = some whole ∧ whole.afterAngles n = some t ∧
      b.taken layout = n := by
  obtain ⟨whole, n, hwhole, hn⟩ := h.worn.whole ht
  rw [Array.getElem?_toList] at hwhole
  refine ⟨whole, n, hwhole, hn, ?_⟩
  rw [taken_eq ht hwhole, (Token.place_afterAngles hn).1, Nat.add_sub_cancel_left]

/-- No token touches what angle brackets were taken off. -/
theorem last_ne (h : b.Faithful layout) (hl : layout.Tiled) (ht : b.tokens[b.current]? = some t) :
    b.last ≠ some (t.start + 1) := by
  intro hlast
  obtain ⟨whole, n, hwhole, hn, -⟩ := h.next ht
  unfold last at hlast
  split at hlast
  · cases hlast
  · rename_i i hi
    obtain ⟨u, hu, hstop⟩ := Option.map_eq_some_iff.mp hlast
    obtain ⟨before, m, hbefore, hm⟩ := h.worn.whole hu
    rw [Array.getElem?_toList] at hbefore
    have hle := hl.stop_le_start hbefore (hi ▸ hwhole) (Nat.lt_succ_self i)
    have hstart := (Token.place_afterAngles hn).1
    have hsame := (Token.place_afterAngles hm).2
    omega

/-! Each step does to the buffer what it does to the state. -/

theorem advance (h : b.Faithful layout) (n : Nat) : (b.advance n).Faithful layout where
  worn := h.worn
  current_le := Nat.min_le_right ..
  later i hi := by
    have hcurrent := h.current_le
    by_cases hlt : b.current < i
    · exact h.later i hlt
    · have hmin : min (b.current + n) b.tokens.length < i := hi
      omega

theorem taken_advance (h : b.Faithful layout) (n : Nat) :
    (b.advance (n + 1)).taken layout = 0 := by
  refine taken_whole ?_
  by_cases hmoved : b.current < (b.advance (n + 1)).current
  · exact h.later _ hmoved
  · -- It stays only at the end, where there is no token in either list.
    have hend : b.tokens.length ≤ (b.advance (n + 1)).current := by
      show b.tokens.length ≤ min (b.current + (n + 1)) b.tokens.length
      have hstays : ¬b.current < min (b.current + (n + 1)) b.tokens.length := hmoved
      omega
    have hend' : layout.tokens.toList.length ≤ (b.advance (n + 1)).current := h.worn.1 ▸ hend
    exact (List.getElem?_eq_none hend).trans (List.getElem?_eq_none hend').symm

theorem advance_state (h : b.Faithful layout) (n : Nat) :
    (b.advance n).state layout = (b.state layout).advance n := by
  have hcurrent := h.current_le
  cases n with
  | zero =>
    have hsame : b.advance 0 = b := by
      simp [Buffer.advance, Nat.min_eq_left hcurrent]
    rw [hsame]
    rfl
  | succ n =>
    have hindex : (b.advance (n + 1)).current =
        b.current + min (n + 1) (b.state layout).ahead.length := by
      rw [state, ahead, Layout.length_symbolsFrom, List.length_drop]
      show min (b.current + (n + 1)) b.tokens.length = _
      omega
    simp only [state, ahead_advance, hindex, h.taken_advance]
    rfl

theorem splitAngle (h : b.Faithful layout) : b.splitAngle.Faithful layout := by
  rcases b.splitAngle_cases with hsame | ⟨t, u, ht, hu, hsplit⟩
  · rw [hsame]
    exact h
  · rw [hsplit]
    refine ⟨h.worn.trans (.set ht hu), ?_, fun i hi => ?_⟩
    · exact Nat.le_trans h.current_le (Nat.le_of_eq (List.length_set ..).symm)
    · exact (List.getElem?_set_ne (Nat.ne_of_lt hi)).trans (h.later i hi)

theorem taken_put (h : b.Faithful layout) (ht : b.tokens[b.current]? = some t)
    (hu : t.afterAngle? = some u) : (b.put u).taken layout = b.taken layout + 1 := by
  obtain ⟨whole, n, hwhole, hn, htaken⟩ := h.next ht
  have hn' : whole.afterAngles (n + 1) = some u := Option.bind_eq_some_iff.mpr ⟨t, hn, hu⟩
  rw [taken_eq (next_put (List.getElem?_eq_some_iff.mp ht).1 u) hwhole, htaken,
    (Token.place_afterAngles hn').1, Nat.add_sub_cancel_left]

theorem put_state (h : b.Faithful layout) (hl : layout.Tiled)
    (ht : b.tokens[b.current]? = some t) (hu : t.afterAngle? = some u) :
    (b.put u).state layout = (b.state layout).splitAngle := by
  obtain ⟨kind, hkind, rfl⟩ := Option.map_eq_some_iff.mp hu
  have hjoined : (b.last == some (t.start + 1)) = false :=
    beq_eq_false_iff_ne.mpr (h.last_ne hl ht)
  simp only [state, State.splitAngle, ahead_cons ht, hkind, h.taken_put ht hu,
    ahead_put (List.getElem?_eq_some_iff.mp ht).1, hjoined]
  rfl

theorem splitAngle_state (h : b.Faithful layout) (hl : layout.Tiled) :
    b.splitAngle.state layout = (b.state layout).splitAngle := by
  cases ht : b.tokens[b.current]? with
  | none =>
    have hsame : b.splitAngle = b := by simp [Buffer.splitAngle, ht]
    have hnil : b.ahead = [] := by
      rw [ahead, List.drop_eq_nil_of_le (List.getElem?_eq_none_iff.mp ht)]
      rfl
    simp only [hsame, state, State.splitAngle, hnil]
  | some t =>
    cases hu : t.afterAngle? with
    | none =>
      have hsame : b.splitAngle = b := by simp [Buffer.splitAngle, ht, hu]
      have hkind : State.afterAngle t.kind = none := Option.map_eq_none_iff.mp hu
      simp only [hsame, state, State.splitAngle, ahead_cons ht, hkind]
    | some u =>
      have hsplit : b.splitAngle = b.put u := by simp [Buffer.splitAngle, ht, hu]
      rw [hsplit]
      exact h.put_state hl ht hu

theorem told (h : b.Faithful layout) (s : State) : (b.told s).Faithful layout :=
  ⟨h.worn, h.current_le, h.later⟩

theorem calling (h : b.Faithful layout) (asLabels : Bool) :
    (b.calling asLabels).Faithful layout := by
  cases asLabels with
  | false => exact h
  | true => exact ⟨h.worn, h.current_le, h.later⟩

theorem called (h : b.Faithful layout) (asLabels saved : Bool) :
    (b.called asLabels saved).Faithful layout := by
  cases asLabels with
  | false => exact h
  | true => exact ⟨h.worn, h.current_le, h.later⟩

end Faithful

variable {setting : Setting}

/-! Reporting and the flag. -/

theorem told_state {s : State} (hahead : s.ahead = b.ahead) (hindex : s.index = b.current)
    (htaken : s.taken = b.taken layout) : (b.told s).state layout = s := by
  cases s
  cases hahead
  cases hindex
  cases htaken
  rfl

theorem record_state (b : Buffer) (layout : Layout) (fault : Fault) (start stop : Nat) :
    (b.record layout fault start stop).state layout =
      (b.state layout).record layout.source fault start stop :=
  told_state (State.ahead_record ..) (State.index_record ..) (State.taken_record ..)

theorem deprecation_state (b : Buffer) (setting : Setting) (doc : Option Mark) (name : Extent) :
    (b.deprecation setting doc name).state setting.layout =
      (b.state setting.layout).deprecation setting doc name :=
  told_state (State.ahead_deprecation ..) (State.index_deprecation ..) (State.taken_deprecation ..)

theorem calling_state (b : Buffer) (asLabels : Bool) :
    (b.calling asLabels).state layout = b.state layout := by
  cases asLabels <;> rfl

theorem calling_inLabels (b : Buffer) (asLabels : Bool) :
    (b.calling asLabels).inLabels = (b.inLabels || asLabels) := by
  cases asLabels with
  | false => exact (Bool.or_false _).symm
  | true => exact (Bool.or_true _).symm

theorem inLabels_splitAngle (b : Buffer) : b.splitAngle.inLabels = b.inLabels := by
  unfold Buffer.splitAngle
  split <;> rfl

theorem called_state (b : Buffer) (asLabels saved : Bool) :
    (b.called asLabels saved).state layout = b.state layout := by
  cases asLabels <;> rfl

/-- The flag is put back if the call was one for labels, and else it is as the call left it. -/
theorem called_inLabels {c : Buffer} {asLabels saved : Bool}
    (h : c.inLabels = (saved || asLabels)) : (c.called asLabels saved).inLabels = saved := by
  cases asLabels with
  | false => exact h.trans (Bool.or_false _)
  | true => rfl

/-- Two answers agree: with all tokens at hand the flag is as it was in front of the call. -/
structure Mirrors (layout : Layout) (inLabels : Bool) {α : Type}
    (answer : Except SyntaxError α × Buffer) (expected : Except SyntaxError α × State) : Prop where
  result : answer.1 = expected.1
  state : answer.2.state layout = expected.2
  faithful : answer.2.Faithful layout
  inLabels : answer.2.inLabels = inLabels

theorem exec_mirrors (hl : setting.layout.Tiled) {buffered : Caller} {caller : JavaSyntax.Caller}
    (hc : ∀ {β : Type} (nonterminal : Nonterminal β) (b : Buffer), b.Faithful setting.layout →
      Option.Rel (Mirrors setting.layout b.inLabels) (buffered nonterminal b)
        (caller nonterminal b.inLabels (b.state setting.layout)))
    {α : Type} (rule : Rule α) (hb : b.Faithful setting.layout) :
    Option.Rel (Mirrors setting.layout b.inLabels) (exec setting buffered rule b)
      (JavaSyntax.exec setting caller b.inLabels rule (b.state setting.layout)) := by
  induction rule generalizing b with
  | done value => exact .some ⟨rfl, rfl, hb, rfl⟩
  | fail error => exact .some ⟨rfl, rfl, hb, rfl⟩
  | look rest ih => exact ih _ hb
  | advance n rest ih =>
    have hrest := ih (hb.advance n)
    rw [hb.advance_state] at hrest
    exact hrest
  | splitAngle rest ih =>
    have hrest := ih hb.splitAngle
    rw [hb.splitAngle_state hl, inLabels_splitAngle] at hrest
    exact hrest
  | report error rest ih =>
    have hreport : (b.report setting.layout error).Faithful setting.layout := hb.told _
    have hrest := ih hreport
    rw [report, record_state] at hrest
    exact hrest
  | deprecation doc name rest ih =>
    have hreport : (b.deprecation setting doc name).Faithful setting.layout := hb.told _
    have hrest := ih hreport
    rw [deprecation_state] at hrest
    exact hrest
  | call nonterminal asLabels rest ih =>
    have hcall := hc nonterminal (b.calling asLabels) (hb.calling asLabels)
    rw [calling_inLabels, calling_state] at hcall
    simp only [exec, JavaSyntax.exec]
    generalize buffered nonterminal (b.calling asLabels) = answer at hcall
    generalize caller nonterminal (b.inLabels || asLabels) (b.state setting.layout) = expected
      at hcall
    cases hcall with
    | none => exact .none
    | @some answer expected hagree =>
      -- The flag is put back before the rest of the rule sees whether the call failed.
      obtain ⟨result, c⟩ := answer
      obtain ⟨result', s⟩ := expected
      obtain ⟨rfl, rfl, hfaithful, hflag⟩ := hagree
      have hrest := ih result (hfaithful.called asLabels b.inLabels)
      rw [called_state, called_inLabels hflag] at hrest
      exact hrest

/-- With its tokens in a buffer every call gives the answer that it gives without. -/
theorem run_mirrors (hl : setting.layout.Tiled) (fuel : Nat) {β : Type}
    (nonterminal : Nonterminal β) (hb : b.Faithful setting.layout) :
    Option.Rel (Mirrors setting.layout b.inLabels) (run setting fuel nonterminal b)
      (JavaSyntax.run setting fuel nonterminal b.inLabels (b.state setting.layout)) := by
  induction fuel generalizing β b with
  | zero => exact .none
  | succ fuel ih => exact exec_mirrors hl (fun nonterminal _ => ih nonterminal) _ hb

theorem isSome_run (hl : setting.layout.Tiled) (fuel : Nat) {β : Type}
    (nonterminal : Nonterminal β) (hb : b.Faithful setting.layout) :
    (run setting fuel nonterminal b).isSome =
      (JavaSyntax.run setting fuel nonterminal b.inLabels (b.state setting.layout)).isSome := by
  have hagree := run_mirrors hl fuel nonterminal hb
  generalize run setting fuel nonterminal b = answer at hagree
  generalize JavaSyntax.run setting fuel nonterminal b.inLabels (b.state setting.layout) = expected
    at hagree
  cases hagree <;> rfl

theorem run_some (hl : setting.layout.Tiled) {fuel : Nat} {β : Type} {nonterminal : Nonterminal β}
    (hb : b.Faithful setting.layout) {r : Except SyntaxError β} {c : Buffer}
    (h : run setting fuel nonterminal b = some (r, c)) :
    JavaSyntax.run setting fuel nonterminal b.inLabels (b.state setting.layout) =
        some (r, c.state setting.layout) ∧
      c.Faithful setting.layout ∧ c.inLabels = b.inLabels := by
  have hagree := run_mirrors hl fuel nonterminal hb
  rw [h] at hagree
  generalize JavaSyntax.run setting fuel nonterminal b.inLabels (b.state setting.layout) = expected
    at hagree
  cases hagree with
  | @some _ expected hsame =>
    obtain ⟨result, s⟩ := expected
    obtain ⟨rfl, rfl, hfaithful, hflag⟩ := hsame
    exact ⟨rfl, hfaithful, hflag⟩

end Buffer

end JavaSyntax
