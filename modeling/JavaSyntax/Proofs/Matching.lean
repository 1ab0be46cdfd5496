import JavaSyntax.Token.Pattern

/-!
Patterns are matched character by character: what may follow a first character is a list of patterns
again. So a match is decided, the longest one is found by trying, and what the patterns of the lexer
begin with is seen by going through their list.
-/

namespace JavaSyntax.Lexer

namespace Pattern

/-- The pattern matches the empty text. -/
def nullable : Pattern → Bool
  | .text chars => chars.isEmpty
  | .one _ => false
  | .many _ | .optional _ => true
  | .seq q r => q.nullable && r.nullable

/-- The patterns that may go on after a first character. -/
def after (x : Char) : Pattern → List Pattern
  | .text [] => []
  | .text (c :: chars) => if x = c then [.text chars] else []
  | .one p => if p x then [.text []] else []
  | .many p => if p x then [.many p] else []
  | .optional q => q.after x
  | .seq q r => (q.after x).map (.seq · r) ++ if q.nullable then r.after x else []

/-- A match may start with the character. -/
def starts (x : Char) : Pattern → Bool
  | .text chars => chars.head? == some x
  | .one p | .many p => p x
  | .optional q => q.starts x
  | .seq q r => q.starts x || q.nullable && r.starts x

/-- The character may occur in a match. -/
def mentions (x : Char) : Pattern → Bool
  | .text chars => chars.contains x
  | .one p | .many p => p x
  | .optional q => q.mentions x
  | .seq q r => q.mentions x || r.mentions x

theorem matches_nil (p : Pattern) : p.Matches [] ↔ p.nullable = true := by
  induction p with
  | text chars => cases chars <;> simp [Matches, nullable]
  | one p => simp [Matches, nullable]
  | many p => simp [Matches, nullable]
  | optional q => simp [Matches, nullable]
  | seq q r ihq ihr =>
    have hsplit : (∃ front back, [] = front ++ back ∧ q.Matches front ∧ r.Matches back) ↔
        q.Matches [] ∧ r.Matches [] := by
      constructor
      · rintro ⟨front, back, heq, hq, hr⟩
        obtain ⟨rfl, rfl⟩ := List.append_eq_nil_iff.mp heq.symm
        exact ⟨hq, hr⟩
      · rintro ⟨hq, hr⟩
        exact ⟨[], [], rfl, hq, hr⟩
    rw [Matches, hsplit, ihq, ihr, nullable, Bool.and_eq_true]

theorem matches_cons (p : Pattern) (x : Char) (cs : List Char) :
    p.Matches (x :: cs) ↔ ∃ q ∈ p.after x, q.Matches cs := by
  induction p generalizing cs with
  | text chars =>
    cases chars with
    | nil => simp [Matches, after]
    | cons c chars => by_cases hc : x = c <;> simp [Matches, after, hc]
  | one p =>
    have hone : (∃ c, x :: cs = [c] ∧ p c = true) ↔ p x = true ∧ cs = [] := by
      constructor
      · rintro ⟨c, heq, hc⟩
        obtain ⟨rfl, rfl⟩ := List.cons.inj heq
        exact ⟨hc, rfl⟩
      · rintro ⟨hx, rfl⟩
        exact ⟨x, rfl, hx⟩
    rw [Matches, hone]
    by_cases hx : p x = true <;> simp [Matches, after, hx]
  | many p => by_cases hx : p x = true <;> simp [Matches, after, hx]
  | optional q ih => simp [Matches, after, ih]
  | seq q r ihq ihr =>
    have hsplit : (∃ front back, x :: cs = front ++ back ∧ q.Matches front ∧ r.Matches back) ↔
        (∃ front back, cs = front ++ back ∧ q.Matches (x :: front) ∧ r.Matches back) ∨
          q.Matches [] ∧ r.Matches (x :: cs) := by
      constructor
      · rintro ⟨front, back, heq, hq, hr⟩
        cases front with
        | nil => exact .inr ⟨hq, heq ▸ hr⟩
        | cons c front =>
          obtain ⟨rfl, rfl⟩ := List.cons.inj heq
          exact .inl ⟨front, back, rfl, hq, hr⟩
      · rintro (⟨front, back, rfl, hq, hr⟩ | ⟨hq, hr⟩)
        · exact ⟨x :: front, back, rfl, hq, hr⟩
        · exact ⟨[], x :: cs, rfl, hq, hr⟩
    have hafter : (∃ front back, cs = front ++ back ∧ q.Matches (x :: front) ∧ r.Matches back) ↔
        ∃ s ∈ (q.after x).map (Pattern.seq · r), s.Matches cs := by
      constructor
      · rintro ⟨front, back, heq, hq, hr⟩
        obtain ⟨s, hs, hfront⟩ := (ihq front).mp hq
        exact ⟨s.seq r, List.mem_map_of_mem hs, front, back, heq, hfront, hr⟩
      · rintro ⟨_, hmem, hmatches⟩
        obtain ⟨s, hs, rfl⟩ := List.mem_map.mp hmem
        obtain ⟨front, back, heq, hfront, hr⟩ := hmatches
        exact ⟨front, back, heq, (ihq front).mpr ⟨s, hs, hfront⟩, hr⟩
    have hnext : q.Matches [] ∧ r.Matches (x :: cs) ↔
        ∃ s ∈ if q.nullable then r.after x else [], s.Matches cs := by
      by_cases hq : q.nullable = true <;> simp [hq, matches_nil, ihr]
    rw [Matches, hsplit, hafter, hnext, after]
    simp only [List.mem_append, or_and_right, exists_or]

theorem starts_of_matches {p : Pattern} {x : Char} {cs : List Char} (h : p.Matches (x :: cs)) :
    p.starts x = true := by
  induction p generalizing cs with
  | text chars =>
    obtain rfl := h
    simp [starts]
  | one p =>
    obtain ⟨c, heq, hc⟩ := h
    cases heq
    exact hc
  | many p => exact h x List.mem_cons_self
  | optional q ih =>
    rcases h with h | h
    · cases h
    · exact ih h
  | seq q r ihq ihr =>
    obtain ⟨front, back, heq, hq, hr⟩ := h
    cases front with
    | nil =>
      have hnullable := (matches_nil q).mp hq
      rw [List.nil_append] at heq
      simp [starts, hnullable, ihr (heq ▸ hr)]
    | cons c front =>
      cases heq
      simp [starts, ihq hq]

theorem mentions_of_mem {p : Pattern} {cs : List Char} (h : p.Matches cs) {x : Char}
    (hx : x ∈ cs) : p.mentions x = true := by
  induction p generalizing cs with
  | text chars =>
    obtain rfl := h
    exact List.contains_iff_mem.mpr hx
  | one p =>
    obtain ⟨c, rfl, hc⟩ := h
    rwa [List.mem_singleton.mp hx]
  | many p => exact h x hx
  | optional q ih =>
    rcases h with rfl | h
    · cases hx
    · exact ih h hx
  | seq q r ihq ihr =>
    obtain ⟨front, back, rfl, hq, hr⟩ := h
    rcases List.mem_append.mp hx with hx | hx
    · exact Bool.or_eq_true_iff.mpr (.inl (ihq hq hx))
    · exact Bool.or_eq_true_iff.mpr (.inr (ihr hr hx))

def accepts : Pattern → List Char → Bool
  | p, [] => p.nullable
  | p, x :: cs => (p.after x).any fun q => q.accepts cs

theorem accepts_iff (p : Pattern) (cs : List Char) : p.accepts cs = true ↔ p.Matches cs := by
  induction cs generalizing p with
  | nil => exact (matches_nil p).symm
  | cons x cs ih => simp only [accepts, List.any_eq_true, ih, matches_cons]

instance (p : Pattern) (cs : List Char) : Decidable (p.Matches cs) :=
  decidable_of_iff _ (accepts_iff p cs)

end Pattern

/-- The first pattern that matches the given number of characters, or else fewer of them. -/
def longestUpTo (cs : List Char) : Nat → Option (Matcher × Nat)
  | 0 => none
  | n + 1 =>
    match matchers.find? fun m => m.pattern.Matches (cs.take (n + 1)) with
    | some m => some (m, n + 1)
    | none => longestUpTo cs n

/-- The scanner that tries the longest texts first. -/
def longest : Scanner := fun cs => longestUpTo cs cs.length

theorem Best.mem {cs : List Char} {m : Matcher} {n : Nat} (h : Best cs m n) : m ∈ matchers := by
  obtain ⟨before, later, hlist, -⟩ := h.first
  exact hlist ▸ List.mem_append_right _ List.mem_cons_self

theorem Best.find {cs : List Char} {m : Matcher} {n : Nat} (h : Best cs m n) :
    matchers.find? (fun m => m.pattern.Matches (cs.take n)) = some m := by
  refine List.find?_eq_some_iff_append.mpr ⟨decide_eq_true h.matched, ?_⟩
  obtain ⟨before, later, hlist, hfirst⟩ := h.first
  exact ⟨before, later, hlist, fun l hl => by simpa using hfirst l hl⟩

/-- There is one best match at most. -/
theorem Best.unique {cs : List Char} {m l : Matcher} {n k : Nat} (h : Best cs m n)
    (h' : Best cs l k) : (m, n) = (l, k) := by
  obtain rfl : n = k := Nat.le_antisymm (h'.longest m h.mem n h.le h.matched)
    (h.longest l h'.mem k h'.le h'.matched)
  exact Prod.ext (Option.some.inj (h.find.symm.trans h'.find)) rfl

section Trying

variable {cs : List Char} {bound : Nat}

/-- Nothing is found only if nothing matches. -/
theorem longestUpTo_none (h : longestUpTo cs bound = none) :
    ∀ l ∈ matchers, ∀ k ≤ bound, l.pattern.Matches (cs.take k) → k = 0 := by
  induction bound with
  | zero => exact fun l hl k hk _ => Nat.le_zero.mp hk
  | succ bound ih =>
    rw [longestUpTo] at h
    split at h
    · cases h
    · rename_i hnone
      intro l hl k hk hmatches
      rcases Nat.le_or_eq_of_le_succ hk with hk | rfl
      · exact ih h l hl k hk hmatches
      · exact absurd (decide_eq_true hmatches) (List.find?_eq_none.mp hnone l hl)

/-- What is found matches, and nothing longer does. -/
theorem longestUpTo_some {m : Matcher} {n : Nat} (h : longestUpTo cs bound = some (m, n)) :
    0 < n ∧ n ≤ bound ∧ matchers.find? (fun m => m.pattern.Matches (cs.take n)) = some m ∧
      ∀ l ∈ matchers, ∀ k ≤ bound, l.pattern.Matches (cs.take k) → k ≤ n := by
  induction bound with
  | zero => cases h
  | succ bound ih =>
    rw [longestUpTo] at h
    split at h
    · rename_i hfound
      cases h
      exact ⟨Nat.succ_pos _, Nat.le_refl _, hfound, fun l hl k hk _ => hk⟩
    · rename_i hnone
      obtain ⟨hpos, hle, hfound, hlongest⟩ := ih h
      refine ⟨hpos, Nat.le_succ_of_le hle, hfound, fun l hl k hk hmatches => ?_⟩
      rcases Nat.le_or_eq_of_le_succ hk with hk | rfl
      · exact hlongest l hl k hk hmatches
      · exact absurd (decide_eq_true hmatches) (List.find?_eq_none.mp hnone l hl)

end Trying

theorem best_of_longest {cs : List Char} {m : Matcher} {n : Nat}
    (h : longest cs = some (m, n)) : Best cs m n := by
  obtain ⟨hpos, hle, hfound, hlongest⟩ := longestUpTo_some h
  obtain ⟨hmatches, before, later, hlist, hfirst⟩ := List.find?_eq_some_iff_append.mp hfound
  exact ⟨hpos, hle, of_decide_eq_true hmatches, hlongest, before, later, hlist,
    fun l hl => by simpa using hfirst l hl⟩

/-- Trying the longest texts first takes the longest match. -/
theorem longest_takesLongest : longest.TakesLongest := by
  refine fun cs m n => ⟨best_of_longest, fun h => ?_⟩
  cases hfound : longest cs with
  | none =>
    exact absurd (longestUpTo_none hfound m h.mem n h.le h.matched) (Nat.pos_iff_ne_zero.mp h.pos)
  | some found => exact congrArg some ((best_of_longest hfound).unique h)

end JavaSyntax.Lexer
