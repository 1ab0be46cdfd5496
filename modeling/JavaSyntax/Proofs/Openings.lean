import JavaSyntax.Fragment.Leading
import JavaSyntax.Proofs.Reading

/-!
What a list of symbols opens with. Modifiers and annotations are passed over one at a time, and what
stands behind them decides. A name is passed over only if it is `sealed`, or `non` with `sealed` two
symbols on; so what may follow a name without opening a declaration is told from two symbols.
-/

namespace JavaSyntax

open Lookahead (next nextWord)

namespace Leading

/-- The construct that the symbols open with. -/
def opening (ts : List Symbol) : Option Leading :=
  ofSymbols (skipModifiers ts.length ts)

theorem length_skipName_le (ts : List Symbol) : (skipName ts).length ≤ ts.length := by
  fun_induction skipName ts with
  | case1 s t rest _ _ ih =>
    simp only [List.length_cons]
    omega
  | case2 | case3 | case4 | case5 | case6 => simp

/-- Parentheses are passed over here as they are where parsing goes on after a fault. -/
theorem skipParens_eq (depth : Nat) (ts : List Symbol) :
    skipParens depth ts = Resync.skipGroup .lparen .rparen depth ts := by
  induction ts generalizing depth with
  | nil => rfl
  | cons s rest ih => simp only [skipParens, Resync.skipGroup, ih, Nat.sub_eq_zero_iff_le]

theorem length_skipAnnot_le (ts : List Symbol) : (skipAnnot ts).length ≤ ts.length := by
  have hname := length_skipName_le ts
  have hgroup := Resync.length_skipGroup_le .lparen .rparen 0 (skipName ts)
  rw [← skipParens_eq] at hgroup
  unfold skipAnnot
  dsimp only
  split <;> omega

/-- More fuel than there are symbols skips no more of them. -/
theorem skipModifiers_fuel {fuel : Nat} {ts : List Symbol} (h : ts.length ≤ fuel) :
    skipModifiers fuel ts = skipModifiers ts.length ts := by
  induction fuel using Nat.strongRecOn generalizing ts with
  | ind fuel ih =>
    cases ts with
    | nil => cases fuel <;> rfl
    | cons s rest =>
      obtain ⟨fuel, rfl⟩ := Nat.exists_eq_succ_of_ne_zero (show fuel ≠ 0 by simp at h; omega)
      have hrest : rest.length ≤ fuel := by simpa using h
      have hsmaller {us : List Symbol} (hus : us.length ≤ rest.length) :
          skipModifiers fuel us = skipModifiers rest.length us := by
        rw [ih fuel (Nat.lt_succ_self _) (Nat.le_trans hus hrest)]
        rcases Nat.lt_or_eq_of_le hrest with hlt | heq
        · exact (ih rest.length (by omega) hus).symm
        · rw [heq]
          exact (ih fuel (Nat.lt_succ_self _) (Nat.le_trans hus hrest)).symm
      simp only [skipModifiers, List.length_cons]
      rw [hsmaller (length_skipAnnot_le rest), hsmaller (Nat.le_refl _),
        hsmaller (by simp : (rest.drop 2).length ≤ rest.length)]

theorem opening_cons (s : Symbol) (rest : List Symbol) : opening (s :: rest) =
    if s.kind = .atSign ∧ !next [.interfaceKw] rest then opening (skipAnnot rest)
    else if s.kind.isModifier ∨ s.isWord "sealed" then opening rest
    else if s.isWord "non" ∧ nextWord "sealed" (rest.drop 1) then opening (rest.drop 2)
    else ofSymbols (s :: rest) := by
  have hsmaller {us : List Symbol} (hus : us.length ≤ rest.length) :
      ofSymbols (skipModifiers rest.length us) = opening us := by
    unfold opening
    rw [skipModifiers_fuel hus]
  unfold opening
  simp only [skipModifiers, List.length_cons]
  split
  · exact hsmaller (length_skipAnnot_le rest)
  · split
    · exact hsmaller (Nat.le_refl _)
    · split
      · exact hsmaller (by simp)
      · rfl

/-- Symbols that open no construct, whatever stands behind them. -/
def isInner (k : Kind) : Bool :=
  !(k.isModifier || [.identifier, .atSign, .packageKw, .importKw, .classKw, .interfaceKw,
    .enumKw].contains k)

/-- No construct opens here, whatever stands further on. -/
def Inner (ts : List Symbol) : Prop :=
  ∀ x ∈ ts.head?, isInner x.kind = true

/-- If the word `sealed` stands here, it and what follows open nothing. -/
def Lone (ts : List Symbol) : Prop :=
  nextWord "sealed" ts = true → opening ts = none

/-- What may follow a name without a construct being opened at the name. -/
structure MayFollow (ts : List Symbol) : Prop where
  inner : Inner ts
  lone : Lone (ts.drop 1)

theorem inner_nil : Inner [] := nofun

theorem inner_cons {x : Symbol} {rest : List Symbol} (h : isInner x.kind = true) :
    Inner (x :: rest) := by
  intro y hy
  cases hy
  exact h

theorem not_identifier_of_inner {k : Kind} (h : isInner k = true) : k ≠ .identifier := by
  rintro rfl
  cases h

theorem Inner.not_identifier {ts : List Symbol} (h : Inner ts) :
    next [.identifier] ts = false := by
  cases ts with
  | nil => rfl
  | cons x rest =>
    have hx := not_identifier_of_inner (h x rfl)
    simp [next, hx]

theorem not_nextWord {word : String} {ts : List Symbol} (h : next [.identifier] ts = false) :
    nextWord word ts = false := by
  cases ts with
  | nil => rfl
  | cons x rest =>
    have hx : x.kind ≠ .identifier := by simpa [next] using h
    simp [nextWord, Symbol.isWord, hx]

theorem Inner.opening_eq_none {ts : List Symbol} (h : Inner ts) : opening ts = none := by
  cases ts with
  | nil => rfl
  | cons x rest =>
    have hx : isInner x.kind = true := h x rfl
    have hname := not_identifier_of_inner hx
    rw [opening_cons, if_neg, if_neg, if_neg]
    · obtain ⟨kind, text, joined⟩ := x
      cases kind <;> first | rfl | cases hx
    · simp [Symbol.isWord, hname]
    · rintro (hmod | hword)
      · simp [isInner, hmod] at hx
      · simp [Symbol.isWord, hname] at hword
    · rintro ⟨hat, _⟩
      rw [hat] at hx
      cases hx

theorem lone_of_not_identifier {ts : List Symbol} (h : next [.identifier] ts = false) :
    Lone ts := by
  intro hword
  rw [not_nextWord h] at hword
  cases hword

theorem Inner.lone {ts : List Symbol} (h : Inner ts) : Lone ts :=
  lone_of_not_identifier h.not_identifier

theorem lone_of_opening {ts : List Symbol} (h : opening ts = none) : Lone ts := fun _ => h

theorem Lone.mayFollow {x : Symbol} {rest : List Symbol} (h : Lone rest)
    (hx : isInner x.kind = true) : MayFollow (x :: rest) :=
  ⟨inner_cons hx, h⟩

theorem opening_sealed {x : Symbol} {rest : List Symbol} (hx : x.isWord "sealed" = true) :
    opening (x :: rest) = opening rest := by
  have hkind : x.kind = .identifier := by
    simp only [Symbol.isWord, Bool.and_eq_true, beq_iff_eq] at hx
    exact hx.1
  rw [opening_cons, if_neg (by simp [hkind]), if_pos (.inr hx)]

/-- A single name opens nothing if what follows goes on with it or ends. -/
theorem MayFollow.opening_name {x : Symbol} {rest : List Symbol} (h : MayFollow rest)
    (hx : x.kind = .identifier) : opening (x :: rest) = none := by
  by_cases hsealed : x.isWord "sealed" = true
  · rw [opening_sealed hsealed]
    exact h.inner.opening_eq_none
  · rw [opening_cons, if_neg (by simp [hx]), if_neg (by simp [hx, Kind.isModifier, hsealed])]
    split
    · rename_i hnon
      -- The word behind `non` is passed over together with it.
      cases hrest : rest.drop 1 with
      | nil =>
        rw [hrest] at hnon
        simp [nextWord] at hnon
      | cons y more =>
        have hword : y.isWord "sealed" = true := by
          rw [hrest] at hnon
          exact hnon.2
        have hlone := h.lone
        rw [hrest] at hlone
        have hdrop : rest.drop 2 = more := by
          rw [show 2 = 1 + 1 from rfl, ← List.drop_drop, hrest]
          rfl
        rw [hdrop, ← opening_sealed hword]
        exact hlone hword
    · have hnext := h.inner.not_identifier
      simp [ofSymbols, hx, hnext, not_nextWord hnext]

theorem MayFollow.lone_name {x : Symbol} {rest : List Symbol} (h : MayFollow rest)
    (hx : x.kind = .identifier) : Lone (x :: rest) :=
  lone_of_opening (h.opening_name hx)

/-! Annotations. -/

/-- A dotted name is passed over whole, unless a dot is left behind it. -/
theorem skipName_name {x : Symbol} {rest : List Symbol} (hx : x.kind = .identifier)
    (hdot : next [.dot] (rest.drop (2 * (Lookahead.dottedTail rest).length)) = false) :
    skipName (x :: rest) = rest.drop (2 * (Lookahead.dottedTail rest).length) := by
  fun_induction Lookahead.dottedTail rest generalizing x with
  | case1 t u rest hsegment ih =>
    simp only [List.length_cons, Nat.mul_add, Nat.mul_one, List.drop_succ_cons] at hdot ⊢
    simp only [skipName, hx, hsegment.1, if_true]
    exact ih hsegment.2 hdot
  | case2 t u rest hsegment =>
    have ht : t.kind ≠ .dot := by simpa [next] using hdot
    simp [skipName, hx, ht]
  | case3 rest hshort =>
    cases rest with
    | nil => simp [skipName, hx]
    | cons t more =>
      have ht : t.kind ≠ .dot := by simpa [next] using hdot
      simp [skipName, hx, ht]

theorem skipAnnot_name {x : Symbol} {rest : List Symbol} (hx : x.kind = .identifier)
    (hdot : next [.dot] (rest.drop (2 * (Lookahead.dottedTail rest).length)) = false)
    (hparen : next [.lparen] (rest.drop (2 * (Lookahead.dottedTail rest).length)) = false) :
    skipAnnot (x :: rest) = rest.drop (2 * (Lookahead.dottedTail rest).length) := by
  unfold skipAnnot
  simp only [skipName_name hx hdot, hparen, Bool.false_eq_true, if_false]

theorem skipAnnot_parens {x y : Symbol} {rest more : List Symbol} (hx : x.kind = .identifier)
    (hrest : rest.drop (2 * (Lookahead.dottedTail rest).length) = y :: more)
    (hy : y.kind = .lparen) :
    skipAnnot (x :: rest) = Resync.skipGroup .lparen .rparen 1 more := by
  have hdot : next [.dot] (rest.drop (2 * (Lookahead.dottedTail rest).length)) = false := by
    simp [hrest, next, hy]
  unfold skipAnnot
  simp [skipName_name hx hdot, hrest, next, hy, skipParens_eq, Resync.skipGroup]

/-- An annotation opens what stands behind it. -/
theorem opening_annot {a x : Symbol} {rest : List Symbol} (ha : a.kind = .atSign)
    (hx : x.kind = .identifier) : opening (a :: x :: rest) = opening (skipAnnot (x :: rest)) := by
  rw [opening_cons, if_pos]
  simp [ha, next, hx]

theorem opening_modifier {x : Symbol} {rest : List Symbol} (hx : x.kind.isModifier = true) :
    opening (x :: rest) = opening rest := by
  have hat : x.kind ≠ .atSign := by
    intro hat
    rw [hat] at hx
    cases hx
  rw [opening_cons, if_neg (by simp [hat]), if_pos (.inl hx)]

theorem opening_nonSealed {x y z : Symbol} {rest : List Symbol} (hx : x.isWord "non" = true)
    (hz : z.isWord "sealed" = true) : opening (x :: y :: z :: rest) = opening rest := by
  have hword : x.kind = .identifier ∧ x.text = "non" := by
    simpa [Symbol.isWord] using hx
  rw [opening_cons, if_neg (by simp [hword.1]), if_neg, if_pos]
  · rfl
  · exact ⟨hx, hz⟩
  · simp [hword.1, hword.2, Symbol.isWord, Kind.isModifier]

end Leading

end JavaSyntax
