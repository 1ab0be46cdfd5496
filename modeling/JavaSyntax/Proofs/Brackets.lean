import JavaSyntax.Proofs.Lookaheads
import JavaSyntax.Proofs.Openings
import Mathlib.Order.Bounds.Basic

/-!
Groups in brackets. Three loops look for the end of a group: one looks ahead past parentheses, one
skips what could not be parsed, and one passes over the arguments of an annotation. Each counts the
brackets that are open. Here the counter is taken out of them, with its subtractions checked: it
stops where for the first time as many brackets were closed as opened, and since it starts in front
of an opening bracket it never has to go below zero. So the three loops find the same end.
-/

namespace JavaSyntax

/-- The brackets that make groups. -/
inductive Grouping where
  | parens
  | braces
  | brackets
deriving DecidableEq

/-- How counting ends: with the symbols behind the bracket that closes the last one open, with the
symbols used up, or with a bracket that closes although none is open. -/
inductive Counted where
  | closed (rest : List Symbol)
  | unclosed
  | underflow
deriving DecidableEq

namespace Counted

/-- What looking ahead makes of it. -/
def closed? : Counted → Option (List Symbol)
  | .closed rest => some rest
  | .unclosed | .underflow => none

/-- What is left for a loop that goes on behind the group. -/
def rest : Counted → List Symbol
  | .closed rest => rest
  | .unclosed | .underflow => []

end Counted

namespace Grouping

def opener : Grouping → Kind
  | .parens => .lparen
  | .braces => .lbrace
  | .brackets => .lbracket

def closer : Grouping → Kind
  | .parens => .rparen
  | .braces => .rbrace
  | .brackets => .rbracket

theorem closer_ne_opener (g : Grouping) : g.closer ≠ g.opener := by
  cases g <;> decide

/-- Counts on from `depth` open brackets until none is open. -/
def count (g : Grouping) : Nat → List Symbol → Counted
  | _, [] => .unclosed
  | depth, s :: rest =>
    if s.kind = g.opener then g.count (depth + 1) rest
    else if s.kind = g.closer then
      match depth with
      | 0 => .underflow
      | 1 => .closed rest
      | d + 2 => g.count (d + 1) rest
    else g.count depth rest

section Counts

variable {g : Grouping} {s : Symbol} {rest : List Symbol} {depth : Nat}

theorem count_opener (hs : s.kind = g.opener) :
    g.count depth (s :: rest) = g.count (depth + 1) rest := by
  simp only [count, hs, if_true]

theorem count_closer (hs : s.kind = g.closer) : g.count depth (s :: rest) =
    match depth with
    | 0 => .underflow
    | 1 => .closed rest
    | d + 2 => g.count (d + 1) rest := by
  simp only [count, hs, g.closer_ne_opener, if_true, if_false]

theorem count_other (hopener : s.kind ≠ g.opener) (hcloser : s.kind ≠ g.closer) :
    g.count depth (s :: rest) = g.count depth rest := by
  simp only [count, hopener, hcloser, if_false]

end Counts

/-- So many brackets are open in front of the symbols, and up to the one at `j` as many are closed
as are open or opened. -/
def Level (g : Grouping) (depth : Nat) (ts : List Symbol) (j : Nat) : Prop :=
  depth + (ts.take (j + 1)).countP (·.kind == g.opener) =
    (ts.take (j + 1)).countP (·.kind == g.closer)

/-- From `i` up to `k`, both included, as many brackets are closed as opened, and `k` is the first
symbol of which this is true. -/
def ClosesAt (g : Grouping) (ts : List Symbol) (i k : Nat) : Prop :=
  IsLeast {k | i ≤ k ∧ k < ts.length ∧
    ((ts.drop i).take (k + 1 - i)).countP (·.kind == g.opener) =
      ((ts.drop i).take (k + 1 - i)).countP (·.kind == g.closer)} k

section Levels

variable {g : Grouping} {s : Symbol} {rest : List Symbol} {depth j : Nat}

theorem level_opener (hs : s.kind = g.opener) :
    ¬g.Level depth (s :: rest) 0 ∧
      ∀ j, g.Level depth (s :: rest) (j + 1) ↔ g.Level (depth + 1) rest j := by
  have hcloser : (g.opener == g.closer) = false := by cases g <;> rfl
  simp only [Level, List.take_succ_cons, List.countP_cons, hs, hcloser, beq_self_eq_true, if_true,
    Bool.false_eq_true, if_false, List.take_zero, List.countP_nil]
  exact ⟨by omega, fun j => by omega⟩

theorem level_closer (hs : s.kind = g.closer) :
    (g.Level depth (s :: rest) 0 ↔ depth = 1) ∧
      ∀ j, g.Level (depth + 1) (s :: rest) (j + 1) ↔ g.Level depth rest j := by
  have hopener : (g.closer == g.opener) = false := by cases g <;> rfl
  simp only [Level, List.take_succ_cons, List.countP_cons, hs, hopener, beq_self_eq_true, if_true,
    Bool.false_eq_true, if_false, List.take_zero, List.countP_nil]
  exact ⟨by omega, fun j => by omega⟩

theorem level_other (hopener : s.kind ≠ g.opener) (hcloser : s.kind ≠ g.closer) :
    (g.Level depth (s :: rest) 0 ↔ depth = 0) ∧
      ∀ j, g.Level depth (s :: rest) (j + 1) ↔ g.Level depth rest j := by
  simp only [Level, List.take_succ_cons, List.countP_cons, beq_eq_false_iff_ne.mpr hopener,
    beq_eq_false_iff_ne.mpr hcloser, Bool.false_eq_true, if_false, List.take_zero, List.countP_nil]
  exact ⟨by omega, fun j => by omega⟩

end Levels

/-- Where a counter stops that starts with `depth` open brackets: behind the first symbol up to
which as many were closed, or at the end if there is none. -/
inductive Ends (g : Grouping) (depth : Nat) (ts : List Symbol) : Counted → Prop where
  | closed {j : Nat} (least : IsLeast {j | j < ts.length ∧ g.Level depth ts j} j) :
      g.Ends depth ts (.closed (ts.drop (j + 1)))
  | unclosed (never : ∀ j < ts.length, ¬g.Level depth ts j) : g.Ends depth ts .unclosed

section Ends

variable {g : Grouping} {s : Symbol} {ts rest : List Symbol} {depth depth' : Nat} {c : Counted}

/-- A symbol in front that closes nothing for good only moves the end. -/
theorem Ends.cons (h : g.Ends depth' rest c) (hfirst : ¬g.Level depth (s :: rest) 0)
    (hlater : ∀ j, g.Level depth (s :: rest) (j + 1) ↔ g.Level depth' rest j) :
    g.Ends depth (s :: rest) c := by
  cases h with
  | @closed j least =>
    obtain ⟨⟨hlt, hlevel⟩, hleast⟩ := least
    have hclosed : IsLeast {j | j < (s :: rest).length ∧ g.Level depth (s :: rest) j} (j + 1) := by
      refine ⟨⟨Nat.succ_lt_succ hlt, (hlater j).mpr hlevel⟩, ?_⟩
      rintro (_ | i) ⟨hi, hlevel⟩
      · exact absurd hlevel hfirst
      · exact Nat.succ_le_succ (hleast ⟨Nat.lt_of_succ_lt_succ hi, (hlater i).mp hlevel⟩)
    exact .closed hclosed
  | unclosed never =>
    refine .unclosed ?_
    rintro (_ | i) hi
    · exact hfirst
    · exact fun hlevel => never i (Nat.lt_of_succ_lt_succ hi) ((hlater i).mp hlevel)

/-- While a bracket is open the counter can go down. -/
theorem count_ends (ts : List Symbol) (hopen : 0 < depth) : g.Ends depth ts (g.count depth ts) := by
  induction ts generalizing depth with
  | nil => exact .unclosed fun j hj => absurd hj (Nat.not_lt_zero j)
  | cons s rest ih =>
    by_cases hopener : s.kind = g.opener
    · obtain ⟨hfirst, hlater⟩ := level_opener hopener
      rw [count_opener hopener]
      exact (ih (Nat.succ_pos depth)).cons hfirst hlater
    · by_cases hcloser : s.kind = g.closer
      · rw [count_closer hcloser]
        match depth, hopen with
        | 1, _ =>
          -- Only here is none open any more, and counting ends with that.
          have hlevel : g.Level 1 (s :: rest) 0 := (level_closer hcloser).1.mpr rfl
          exact .closed ⟨⟨Nat.succ_pos _, hlevel⟩, fun _ _ => Nat.zero_le _⟩
        | d + 2, _ =>
          refine (ih (Nat.succ_pos d)).cons (fun hlevel => ?_) (level_closer hcloser).2
          have hone := (level_closer hcloser).1.mp hlevel
          omega
      · obtain ⟨hfirst, hlater⟩ := level_other hopener hcloser
        rw [count_other hopener hcloser]
        exact (ih hopen).cons (fun hlevel => Nat.ne_of_gt hopen (hfirst.mp hlevel)) hlater

/-- A counter that starts at an opening bracket never goes below zero. -/
theorem count_group (hs : s.kind = g.opener) :
    g.Ends 0 (s :: rest) (g.count 0 (s :: rest)) := by
  rw [count_opener hs]
  exact (count_ends rest Nat.one_pos).cons (level_opener hs).1 (level_opener hs).2

end Ends

end Grouping

/-! The loops. -/

namespace Lookahead

/-- Looking ahead gives up where the subtraction fails. -/
theorem afterClosing_eq (depth : Nat) (ts : List Symbol) :
    afterClosing depth ts = (Grouping.parens.count depth ts).closed? := by
  induction ts generalizing depth with
  | nil => rfl
  | cons s rest ih =>
    simp only [afterClosing]
    split
    · rw [Grouping.count_opener (g := .parens) (by assumption)]
      exact ih (depth + 1)
    · split
      · rw [Grouping.count_closer (g := .parens) (by assumption)]
        rcases depth with _ | _ | d
        · rfl
        · rfl
        · exact ih (d + 1)
      · rw [Grouping.count_other (g := .parens) (by assumption) (by assumption)]
        exact ih depth

/-- The place of the parenthesis that closes the one at `i`. -/
def matchingParen (ts : List Symbol) (i : Nat) : Option Nat :=
  (afterClosing 0 (ts.drop i)).map fun rest => ts.length - rest.length - 1

end Lookahead

namespace Resync

theorem skipGroup_eq (g : Grouping) (d : Nat) (ts : List Symbol) :
    skipGroup g.opener g.closer (d + 1) ts = (g.count (d + 1) ts).rest := by
  induction ts generalizing d with
  | nil => rfl
  | cons s rest ih =>
    simp only [skipGroup, Grouping.count]
    split
    · exact ih (d + 1)
    · split
      · cases d with
        | zero => rfl
        | succ d => exact ih d
      · exact ih d

theorem skipBalanced_group {g : Grouping} {s : Symbol} (hs : s.kind = g.opener)
    (rest : List Symbol) : skipBalanced (s :: rest) = (g.count 0 (s :: rest)).rest := by
  rw [Grouping.count_opener hs, ← skipGroup_eq]
  cases g <;> simp only [skipBalanced, hs, Grouping.opener, Grouping.closer]

end Resync

/-! Places. -/

namespace Grouping

variable {g : Grouping} {s : Symbol} {ts : List Symbol} {i : Nat}

theorem closesAt_add (g : Grouping) (ts : List Symbol) (i j : Nat) : g.ClosesAt ts i (i + j) ↔
    IsLeast {j | j < (ts.drop i).length ∧ g.Level 0 (ts.drop i) j} j := by
  have hplace (j : Nat) : i + j + 1 - i = j + 1 := by omega
  have hmem (j : Nat) : i + j ∈ {k | i ≤ k ∧ k < ts.length ∧
      ((ts.drop i).take (k + 1 - i)).countP (·.kind == g.opener) =
        ((ts.drop i).take (k + 1 - i)).countP (·.kind == g.closer)} ↔
      j ∈ {j | j < (ts.drop i).length ∧ g.Level 0 (ts.drop i) j} := by
    simp only [Set.mem_ofPred_eq, hplace, Level, Nat.zero_add, List.length_drop]
    omega
  refine and_congr (hmem j) ⟨fun hleast l hl => ?_, fun hleast k hk => ?_⟩
  · exact Nat.le_of_add_le_add_left (hleast ((hmem l).mpr hl))
  · obtain ⟨l, rfl⟩ := Nat.exists_eq_add_of_le hk.1
    exact Nat.add_le_add_left (hleast ((hmem l).mp hk)) i

/-- A group closes at one place or at none, and the counter finds which. -/
theorem closes_or (hi : ts[i]? = some s) (hs : s.kind = g.opener) :
    (∃ k < ts.length, g.ClosesAt ts i k ∧ g.count 0 (ts.drop i) = .closed (ts.drop (k + 1))) ∨
      (∀ k, ¬g.ClosesAt ts i k) ∧ g.count 0 (ts.drop i) = .unclosed := by
  have hends : g.Ends 0 (ts.drop i) (g.count 0 (ts.drop i)) := by
    obtain ⟨hlt, rfl⟩ := List.getElem?_eq_some_iff.mp hi
    rw [List.drop_eq_getElem_cons hlt]
    exact count_group hs
  generalize g.count 0 (ts.drop i) = c at hends
  cases hends with
  | @closed j least =>
    have hclose := (closesAt_add g ts i j).mpr least
    refine .inl ⟨i + j, hclose.1.2.1, hclose, ?_⟩
    rw [List.drop_drop, Nat.add_assoc]
  | unclosed never =>
    refine .inr ⟨fun k hclose => ?_, rfl⟩
    obtain ⟨j, rfl⟩ := Nat.exists_eq_add_of_le hclose.1.1
    obtain ⟨⟨hj, hlevel⟩, -⟩ := (closesAt_add g ts i j).mp hclose
    exact never j hj hlevel

/-- What skipping makes of the group that opens at `i`: a loop with a counter that never goes below
zero, which ends behind the bracket that closes the group, or at the end of the symbols. -/
structure SkippedAt (g : Grouping) (ts : List Symbol) (i : Nat) : Prop where
  counted : Resync.skipBalanced (ts.drop i) = (g.count 0 (ts.drop i)).rest
  positive : g.count 0 (ts.drop i) ≠ .underflow
  closed : ∀ k, g.ClosesAt ts i k → Resync.skipBalanced (ts.drop i) = ts.drop (k + 1)
  unclosed : (∀ k, ¬g.ClosesAt ts i k) → Resync.skipBalanced (ts.drop i) = []

theorem skippedAt (hi : ts[i]? = some s) (hs : s.kind = g.opener) : g.SkippedAt ts i := by
  have hcounted : Resync.skipBalanced (ts.drop i) = (g.count 0 (ts.drop i)).rest := by
    obtain ⟨hlt, rfl⟩ := List.getElem?_eq_some_iff.mp hi
    rw [List.drop_eq_getElem_cons hlt]
    exact Resync.skipBalanced_group hs _
  rcases closes_or hi hs with ⟨k, _, hclose, hcount⟩ | ⟨hnever, hcount⟩
  · refine ⟨hcounted, by rw [hcount]; nofun, fun l hl => ?_, fun hnever => absurd hclose (hnever k)⟩
    rw [hcounted, hcount, hl.unique hclose]
    rfl
  · refine ⟨hcounted, by rw [hcount]; nofun, fun l hl => absurd hl (hnever l), fun _ => ?_⟩
    rw [hcounted, hcount]
    rfl

end Grouping

/-- What the three loops make of a parenthesis that opens at `i`. -/
structure ParensAgree (ts : List Symbol) (i : Nat) : Prop where
  /-- Each of the loops runs the same counter, and it never goes below zero. -/
  looking : Lookahead.afterClosing 0 (ts.drop i) = (Grouping.parens.count 0 (ts.drop i)).closed?
  skipping : Resync.skipBalanced (ts.drop i) = (Grouping.parens.count 0 (ts.drop i)).rest
  passing : Leading.skipParens 0 (ts.drop i) = (Grouping.parens.count 0 (ts.drop i)).rest
  positive : Grouping.parens.count 0 (ts.drop i) ≠ .underflow
  /-- Looking ahead finds the first place up to which as many are closed as opened. -/
  found : ∀ k, Lookahead.matchingParen ts i = some k ↔ Grouping.parens.ClosesAt ts i k
  /-- The others stop behind it, or at the end. -/
  closed : ∀ k, Lookahead.matchingParen ts i = some k →
    Resync.skipBalanced (ts.drop i) = ts.drop (k + 1) ∧
      Leading.skipParens 0 (ts.drop i) = ts.drop (k + 1)
  unclosed : Lookahead.matchingParen ts i = none →
    Resync.skipBalanced (ts.drop i) = [] ∧ Leading.skipParens 0 (ts.drop i) = []

theorem Leading.skipParens_group {s : Symbol} (hs : s.kind = .lparen) (rest : List Symbol) :
    skipParens 0 (s :: rest) = Resync.skipBalanced (s :: rest) := by
  simp only [skipParens_eq, Resync.skipGroup, Resync.skipBalanced, hs, if_true, Nat.zero_add]

theorem parensAgree {s : Symbol} {ts : List Symbol} {i : Nat} (hi : ts[i]? = some s)
    (hs : s.kind = .lparen) : ParensAgree ts i := by
  have hskipped : Grouping.parens.SkippedAt ts i := Grouping.skippedAt hi hs
  have hpassing : Leading.skipParens 0 (ts.drop i) = Resync.skipBalanced (ts.drop i) := by
    obtain ⟨hlt, rfl⟩ := List.getElem?_eq_some_iff.mp hi
    rw [List.drop_eq_getElem_cons hlt]
    exact Leading.skipParens_group hs _
  have hfound (k : Nat) :
      Lookahead.matchingParen ts i = some k ↔ Grouping.parens.ClosesAt ts i k := by
    unfold Lookahead.matchingParen
    rw [Lookahead.afterClosing_eq]
    rcases Grouping.closes_or (g := .parens) hi hs with
      ⟨l, hl, hclose, hcount⟩ | ⟨hnever, hcount⟩
    · have hplace : ts.length - (ts.drop (l + 1)).length - 1 = l := by
        rw [List.length_drop]
        omega
      rw [hcount, Counted.closed?, Option.map_some, hplace, Option.some.injEq]
      exact ⟨fun h => h ▸ hclose, fun h => hclose.unique h⟩
    · rw [hcount]
      exact ⟨nofun, fun h => absurd h (hnever k)⟩
  refine ⟨Lookahead.afterClosing_eq 0 _, hskipped.counted, hpassing.trans hskipped.counted,
    hskipped.positive, hfound, fun k hk => ?_, fun hnone => ?_⟩
  · have hclosed := hskipped.closed k ((hfound k).mp hk)
    exact ⟨hclosed, hpassing.trans hclosed⟩
  · have hunclosed := hskipped.unclosed fun k hk => by
      rw [(hfound k).mpr hk] at hnone
      cases hnone
    exact ⟨hunclosed, hpassing.trans hunclosed⟩

/-- In every list of symbols: where a parenthesis opens, looking ahead, skipping after a fault and
passing over an annotation find the same end of its group, the first symbol up to which as many
are closed as opened, or none. Groups in other brackets are skipped to their ends as well. No count
of open brackets goes below zero, and skipping takes a symbol if there is one. -/
theorem groups_matched (ts : List Symbol) (i : Nat) :
    (∀ s, ts[i]? = some s → s.kind = .lparen → ParensAgree ts i) ∧
    (∀ (g : Grouping) s, ts[i]? = some s → s.kind = g.opener → g.SkippedAt ts i) ∧
    (i < ts.length → (Resync.skipBalanced (ts.drop i)).length < (ts.drop i).length) := by
  refine ⟨fun s hi hs => parensAgree hi hs, fun g s hi hs => Grouping.skippedAt hi hs, fun hi => ?_⟩
  have hle := Resync.length_skipBalanced_le (ts.drop i)
  rw [List.length_drop] at hle ⊢
  omega

/-- A group with a group inside; the square bracket in it never closes. -/
theorem groups_matched_nested :
    let ts : List Symbol := [⟨.lparen, "(", false⟩, ⟨.lparen, "(", true⟩, ⟨.rparen, ")", true⟩,
      ⟨.lbracket, "[", true⟩, ⟨.rparen, ")", true⟩, ⟨.semicolon, ";", true⟩]
    (Lookahead.matchingParen ts 0 = some 4 ∧ Grouping.parens.ClosesAt ts 0 4 ∧
      Resync.skipBalanced (ts.drop 0) = ts.drop 5 ∧ Leading.skipParens 0 (ts.drop 0) = ts.drop 5) ∧
    (Grouping.brackets.count 0 (ts.drop 3) ≠ .underflow ∧ Resync.skipBalanced (ts.drop 3) = []) ∧
    (Resync.skipBalanced (ts.drop 5)).length < (ts.drop 5).length := by
  intro ts
  have hparens := (groups_matched ts 0).1 _ rfl rfl
  have hbrackets := (groups_matched ts 3).2.1 .brackets _ rfl rfl
  have hfour : Lookahead.matchingParen ts 0 = some 4 := by decide
  exact ⟨⟨hfour, (hparens.found 4).mp hfour, hparens.closed 4 hfour⟩,
    ⟨hbrackets.positive, hbrackets.counted.trans (by decide)⟩,
    (groups_matched ts 5).2.2 (by decide)⟩

end JavaSyntax
