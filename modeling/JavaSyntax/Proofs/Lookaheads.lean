import JavaSyntax.Proofs.Alongside
import JavaSyntax.Proofs.Reading

/-!
How far looking ahead goes. A list of symbols that ends with a closing brace or a semicolon, and in
which all parentheses close, looks the same with further symbols behind it: no scan gets past its
last symbol. What symbols touch is seen only where `non-sealed` might stand.
-/

namespace JavaSyntax

open Lookahead

/-- The second list looks like the first with `tail` behind it. If there is a tail then the first
list ends with a closing brace or a semicolon, and its parentheses close. -/
inductive Along (tail : List Symbol) : List Symbol → List Symbol → Prop where
  | nil (alone : tail = []) : Along tail [] []
  | last {x y : Symbol} (kind : y.kind = x.kind) (text : y.text = x.text)
      (ends : x.kind = .rbrace ∨ x.kind = .semicolon) : Along tail [x] (y :: tail)
  | cons {x y : Symbol} {xs ys : List Symbol} (kind : y.kind = x.kind) (text : y.text = x.text)
      (nonSealed : isNonSealed (y :: ys) = isNonSealed (x :: xs))
      (closes : x.kind = .lparen → tail = [] ∨ (afterClosing 1 xs).isSome = true)
      (rest : Along tail xs ys) : Along tail (x :: xs) (y :: ys)

namespace Along

variable {tail ts us : List Symbol} {x x' y : Symbol} {xs ys : List Symbol}

theorem head (h : Along tail (x :: xs) us) :
    ∃ y ys, us = y :: ys ∧ y.kind = x.kind ∧ y.text = x.text ∧
      isNonSealed us = isNonSealed (x :: xs) ∧
      (xs = [] ∧ ys = tail ∧ (x.kind = .rbrace ∨ x.kind = .semicolon) ∨ Along tail xs ys) := by
  cases h with
  | @last _ y kind text ends =>
    refine ⟨y, tail, rfl, kind, text, ?_, .inl ⟨rfl, rfl, ends⟩⟩
    have hword : y.isWord "non" = false := by
      rcases ends with ends | ends <;> simp [Symbol.isWord, kind, ends]
    rcases tail with _ | ⟨a, _ | ⟨b, more⟩⟩
    · rfl
    · rfl
    · simp [isNonSealed, hword]
  | cons kind text nonSealed closes rest => exact ⟨_, _, rfl, kind, text, nonSealed, .inr rest⟩

/-- Behind a symbol that ends nothing both lists go on. -/
theorem behind (h : Along tail (x :: xs) us) (hx : x.kind ≠ .rbrace ∧ x.kind ≠ .semicolon) :
    ∃ y ys, us = y :: ys ∧ y.kind = x.kind ∧ y.text = x.text ∧ Along tail xs ys := by
  obtain ⟨y, ys, rfl, hkind, htext, -, ⟨-, -, ends⟩ | rest⟩ := h.head
  · exact absurd ends (by simp [hx.1, hx.2])
  · exact ⟨y, ys, rfl, hkind, htext, rest⟩

protected theorem next (h : Along tail ts us) (k : Kind) : next [k] us = next [k] ts := by
  cases h with
  | nil => rfl
  | last kind | cons kind => simp [Lookahead.next, kind]

/-- Behind a next symbol that ends nothing both lists go on. -/
theorem drop_one (h : Along tail ts us) {k : Kind} (hk : Lookahead.next [k] ts = true)
    (hends : k ≠ .rbrace ∧ k ≠ .semicolon) : Along tail (ts.drop 1) (us.drop 1) := by
  cases ts with
  | nil => cases hk
  | cons x xs =>
    have hx : x.kind = k := by simpa [Lookahead.next] using hk
    obtain ⟨y, ys, rfl, -, -, hrest⟩ := h.behind (hx ▸ hends)
    exact hrest

theorem closing (h : Along tail (x :: xs) us) (hx : x.kind = .lparen) :
    tail = [] ∨ (afterClosing 1 xs).isSome = true := by
  cases h with
  | last _ _ ends =>
    rw [hx] at ends
    rcases ends with ends | ends <;> cases ends
  | cons _ _ _ closes => exact closes hx

/-- Where the first list ends without its last symbol there is no tail. -/
theorem eq_tail (h : Along tail [] us) : us = tail := by
  cases h with
  | nil alone => exact alone.symm

theorem length (h : Along tail ts us) : us.length = ts.length + tail.length := by
  induction h with
  | nil alone => simp [alone]
  | last => simp [Nat.add_comm]
  | cons _ _ _ _ _ ih => simp [ih, Nat.add_right_comm]

protected theorem drop (h : Along tail ts us) (k : Nat) :
    (ts.drop k = [] ∧ tail ≠ []) ∨ Along tail (ts.drop k) (us.drop k) := by
  induction h generalizing k with
  | nil alone =>
    simp only [List.drop_nil]
    exact .inr (.nil alone)
  | last kind text ends =>
    cases k with
    | zero => exact .inr (.last kind text ends)
    | succ k =>
      by_cases htail : tail = []
      · subst htail
        simp only [List.drop_succ_cons, List.drop_nil]
        exact .inr (.nil rfl)
      · exact .inl ⟨by simp, htail⟩
  | cons kind text nonSealed closes rest ih =>
    cases k with
    | zero => exact .inr (.cons kind text nonSealed closes rest)
    | succ k => exact ih k

theorem refl (ts : List Symbol) : Along [] ts ts := by
  induction ts with
  | nil => exact .nil rfl
  | cons x xs ih => exact .cons rfl rfl rfl (fun _ => .inl rfl) ih

/-! Each scan stops at the same place. -/

theorem afterClosing (h : Along tail ts us) (d : Nat)
    (hclose : tail = [] ∨ (Lookahead.afterClosing d ts).isSome = true) :
    Option.Rel (Along tail) (Lookahead.afterClosing d ts) (Lookahead.afterClosing d us) := by
  induction h generalizing d with
  | nil => exact .none
  | @last x y kind text ends =>
    have hplain : x.kind ≠ .lparen ∧ x.kind ≠ .rparen := by
      rcases ends with ends | ends <;> simp [ends]
    simp only [Lookahead.afterClosing, kind, hplain.1, hplain.2, if_false] at hclose ⊢
    rcases hclose with rfl | hclose
    · exact .none
    · cases hclose
  | @cons x y xs ys kind text nonSealed closes rest ih =>
    simp only [Lookahead.afterClosing, kind] at hclose ⊢
    split
    · rename_i hopen
      rw [if_pos hopen] at hclose
      exact ih _ hclose
    · rename_i hopen
      rw [if_neg hopen] at hclose
      split
      · rename_i hshut
        rw [if_pos hshut] at hclose
        rcases d with _ | _ | d
        · exact .none
        · exact .some rest
        · exact ih _ hclose
      · rename_i hshut
        rw [if_neg hshut] at hclose
        exact ih _ hclose

end Along

namespace Lookahead

theorem length_afterClosing {d : Nat} {ts rest : List Symbol} (h : afterClosing d ts = some rest) :
    rest.length < ts.length := by
  obtain ⟨before, s, rfl, -⟩ := split_afterClosing h
  simp only [List.length_append, List.length_cons]
  omega

/-- Inside parentheses annotations are passed over up to where these close. -/
theorem skipAnnotations_inside (finals : Bool) (d : Nat) (ts : List Symbol) :
    skipAnnotations finals (.inside d) ts =
      (afterClosing (d + 1) ts).bind (skipAnnotations finals .outside) := by
  induction ts generalizing d with
  | nil => rfl
  | cons s rest ih =>
    simp only [skipAnnotations, afterClosing]
    split
    · exact ih (d + 1)
    · split
      · cases d with
        | zero => rfl
        | succ d => exact ih d
      · exact ih d

/-- How annotations begin, without regard to how many symbols there are. -/
theorem skipAnnotations_cons (finals named : Bool) (s : Symbol) (rest : List Symbol) :
    skipAnnotations finals (if named then .named else .outside) (s :: rest) =
      if named = true ∧ s.kind = .dot ∧ next [.identifier] rest = true then
        skipAnnotations finals .named (rest.drop 1)
      else if named = true ∧ s.kind = .lparen then skipAnnotations finals (.inside 0) rest
      else if s.kind = .atSign ∧ next [.interfaceKw] rest = false then
        if next [.identifier] rest then skipAnnotations finals .named (rest.drop 1) else none
      else if finals = true ∧ s.kind = .finalKw then skipAnnotations finals .outside rest
      else some (s :: rest) := by
  cases named <;> cases rest <;> grind [skipAnnotations, next]

theorem length_skipAnnotations {finals : Bool} {scan : AnnotationScan} {ts rest : List Symbol}
    (h : skipAnnotations finals scan ts = some rest) : rest.length ≤ ts.length := by
  fun_induction skipAnnotations finals scan ts <;> grind

theorem length_skipDims (ts : List Symbol) : (skipDims ts).length ≤ ts.length := by
  fun_induction skipDims ts <;> grind

theorem dottedTail_cons (s : Symbol) (rest : List Symbol) : dottedTail (s :: rest) =
    if s.kind = .dot ∧ next [.identifier] rest = true then
      (rest.head?.map Symbol.text).getD "" :: dottedTail (rest.drop 1)
    else [] := by
  cases rest <;> simp [dottedTail, next]

theorem dims_cons (s : Symbol) (rest : List Symbol) : dims (s :: rest) =
    if s.kind = .lbracket ∧ next [.rbracket] rest = true then dims (rest.drop 1) + 1 else 0 := by
  cases rest <;> simp [dims, next]

theorem skipDims_cons (s : Symbol) (rest : List Symbol) : skipDims (s :: rest) =
    if s.kind = .lbracket ∧ next [.rbracket] rest = true then skipDims (rest.drop 1)
    else s :: rest := by
  cases rest <;> simp [skipDims, next]

theorem skipSegments_cons (fresh : Bool) (s : Symbol) (rest : List Symbol) :
    skipSegments fresh 0 (s :: rest) =
      if fresh = true ∧ s.kind = .less then skipSegments false 1 rest
      else if s.kind = .dot ∧ next [.identifier] rest = true then
        skipSegments true 0 (rest.drop 1)
      else some (s :: rest) := by
  cases rest <;> simp [skipSegments, next]

theorem length_skipSegments {fresh : Bool} {depth : Nat} {ts rest : List Symbol}
    (h : skipSegments fresh depth ts = some rest) : rest.length ≤ ts.length := by
  fun_induction skipSegments fresh depth ts <;> grind

theorem length_skipType {ts rest : List Symbol} (h : skipType ts = some rest) :
    rest.length < ts.length := by
  unfold skipType at h
  split at h
  · rename_i s more hskip
    have hmore := length_skipAnnotations hskip
    rw [List.length_cons] at hmore
    split at h
    · cases h
      have hdims := length_skipDims more
      omega
    · split at h
      · obtain ⟨segments, hsegments, rfl⟩ := Option.map_eq_some_iff.mp h
        have hrest := length_skipSegments hsegments
        have hdims := length_skipDims segments
        omega
      · cases h
  · cases h

theorem skipType_eq (ts : List Symbol) : skipType ts =
    (skipAnnotations false .outside ts).bind fun us => match us with
      | [] => none
      | s :: rest =>
        if s.kind.isPrimitive ∧ s.kind ≠ .voidKw then some (skipDims rest)
        else if s.kind = .identifier then (skipSegments true 0 rest).map skipDims
        else none := by
  unfold skipType
  rcases skipAnnotations false .outside ts with _ | _ | ⟨s, rest⟩ <;> rfl

theorem localVariable_eq (ts : List Symbol) : localVariable ts =
    ((skipAnnotations true .outside ts).bind skipType).bind fun rest =>
      if next [.identifier] rest then some rest else none := by
  unfold localVariable
  split <;> rename_i hskip <;> rw [hskip] <;> rfl

theorem isTypeQualifier_eq (ts : List Symbol) : isTypeQualifier ts =
    (skipType ts).any fun rest =>
      ((ts.take (ts.length - rest.length)).any fun s => s.kind == .less || s.kind == .lbracket) &&
        (next [.doubleColon] rest || next [.dot, .classKw] rest) := by
  unfold isTypeQualifier
  split <;> rename_i hskip <;> rw [hskip] <;> rfl

/-- More fuel than there are symbols passes over no more bounds. -/
theorem skipBounds_fuel {fuel : Nat} {ts : List Symbol} (h : ts.length ≤ fuel) :
    skipBounds fuel ts = skipBounds ts.length ts := by
  induction fuel using Nat.strongRecOn generalizing ts with
  | ind fuel ih =>
    cases ts with
    | nil => cases fuel <;> rfl
    | cons s rest =>
      obtain ⟨fuel, rfl⟩ := Nat.exists_eq_succ_of_ne_zero (show fuel ≠ 0 by simp at h; omega)
      have hrest : rest.length ≤ fuel := by simpa using h
      simp only [skipBounds, List.length_cons]
      split
      · cases htype : skipType rest with
        | none => rfl
        | some more =>
          have hmore := length_skipType htype
          have hlong : skipBounds fuel more = skipBounds more.length more :=
            ih fuel (Nat.lt_succ_self _) (by omega)
          have hshort : skipBounds rest.length more = skipBounds more.length more :=
            ih rest.length (by omega) (by omega)
          exact hlong.trans hshort.symm
      · rfl

end Lookahead

namespace Along

variable {tail ts us : List Symbol}

theorem bind {r : List Symbol → List Symbol → Prop} {a b : Option (List Symbol)}
    {f : List Symbol → Option (List Symbol)} (h : Option.Rel (Along tail) a b)
    (hf : ∀ x y, a = some x → Along tail x y → Option.Rel r (f x) (f y)) :
    Option.Rel r (a.bind f) (b.bind f) := by
  cases h with
  | none => exact .none
  | some h => exact hf _ _ rfl h

/-- Annotations end, or one of them is wrong, at the same place. -/
theorem skipAnnotations (finals named : Bool) (h : Along tail ts us) :
    Option.Rel (Along tail)
      (Lookahead.skipAnnotations finals (if named then .named else .outside) ts)
      (Lookahead.skipAnnotations finals (if named then .named else .outside) us) := by
  induction hlength : ts.length using Nat.strongRecOn generalizing ts us named with
  | ind m ih =>
    have go {xs ys : List Symbol} (named : Bool) (hshorter : xs.length < m)
        (hrest : Along tail xs ys) := ih _ hshorter named hrest rfl
    cases h with
    | nil alone => cases named <;> exact .some (.nil alone)
    | @last x y kind text ends =>
      have hx : x.kind ≠ .atSign ∧ x.kind ≠ .finalKw ∧ x.kind ≠ .lparen ∧ x.kind ≠ .dot := by
        rcases ends with ends | ends <;> simp [ends]
      rw [skipAnnotations_cons, skipAnnotations_cons]
      simp only [kind, hx, false_and, and_false, if_false]
      exact .some (.last kind text ends)
    | @cons x y xs ys kind text nonSealed closes rest =>
      have hnext (k : Kind) : next [k] ys = next [k] xs := rest.next k
      have hshorter : xs.length < m := by simp [← hlength]
      have hdrop (hname : next [.identifier] xs = true) : Along tail (xs.drop 1) (ys.drop 1) :=
        rest.drop_one hname (by decide)
      have hless : (xs.drop 1).length < m := by rw [List.length_drop]; omega
      rw [skipAnnotations_cons, skipAnnotations_cons, kind, hnext, hnext]
      split
      · rename_i hdot
        exact go true hless (hdrop hdot.2.2)
      split
      · rename_i hopen
        rw [skipAnnotations_inside, skipAnnotations_inside]
        apply bind (rest.afterClosing 1 (closes hopen.2))
        intro more more' hmore halong
        exact go false (Nat.lt_trans (length_afterClosing hmore) hshorter) halong
      split
      · split
        · rename_i hname
          exact go true hless (hdrop hname)
        · exact .none
      split
      · exact go false hshorter rest
      · exact .some (.cons kind text nonSealed closes rest)

theorem skipDims (h : Along tail ts us) :
    Along tail (Lookahead.skipDims ts) (Lookahead.skipDims us) := by
  induction hlength : ts.length using Nat.strongRecOn generalizing ts us with
  | ind m ih =>
    cases h with
    | nil alone => exact .nil alone
    | @last x y kind text ends =>
      have hx : x.kind ≠ .lbracket := by
        rcases ends with ends | ends <;> simp [ends]
      rw [skipDims_cons, skipDims_cons]
      simp only [kind, hx, false_and, if_false]
      exact .last kind text ends
    | @cons x y xs ys kind text nonSealed closes rest =>
      have hshorter : (xs.drop 1).length < m := by
        rw [← hlength, List.length_drop, List.length_cons]
        omega
      rw [skipDims_cons, skipDims_cons, kind, rest.next]
      split
      · rename_i hpair
        exact ih _ hshorter (rest.drop_one hpair.2 (by decide)) rfl
      · exact .cons kind text nonSealed closes rest

theorem skipSegments (fresh : Bool) (d : Nat) (h : Along tail ts us) :
    Option.Rel (Along tail) (Lookahead.skipSegments fresh d ts)
      (Lookahead.skipSegments fresh d us) := by
  induction hlength : ts.length using Nat.strongRecOn generalizing ts us fresh d with
  | ind m ih =>
    have go {xs ys : List Symbol} (fresh : Bool) (d : Nat) (hshorter : xs.length < m)
        (hrest : Along tail xs ys) := ih _ hshorter fresh d hrest rfl
    cases h with
    | nil alone =>
      cases d with
      | zero => exact .some (.nil alone)
      | succ d => exact .none
    | @last x y kind text ends =>
      have hx : x.kind ≠ .less ∧ x.kind ≠ .dot ∧ closers x.kind = 0 ∧
          isTypeArgPart x.kind = false := by
        rcases ends with ends | ends <;> rw [ends] <;> decide
      cases d with
      | zero =>
        rw [skipSegments_cons, skipSegments_cons]
        simp only [kind, hx, and_false, false_and, if_false]
        exact .some (.last kind text ends)
      | succ d =>
        simp only [Lookahead.skipSegments, kind, hx, Nat.lt_irrefl, Bool.false_eq_true, if_false]
        exact .none
    | @cons x y xs ys kind text nonSealed closes rest =>
      have hshorter : xs.length < m := by simp [← hlength]
      cases d with
      | zero =>
        rw [skipSegments_cons, skipSegments_cons, kind, rest.next]
        split
        · exact go false 1 hshorter rest
        split
        · rename_i hdot
          apply go true 0 _ (rest.drop_one hdot.2 (by decide))
          rw [List.length_drop]
          omega
        · exact .some (.cons kind text nonSealed closes rest)
      | succ d =>
        simp only [Lookahead.skipSegments, kind]
        split
        · exact go false (d + 2) hshorter rest
        split
        · split
          · exact go false _ hshorter rest
          · exact .none
        split
        · exact go false (d + 1) hshorter rest
        · exact .none

theorem skipType (h : Along tail ts us) :
    Option.Rel (Along tail) (Lookahead.skipType ts) (Lookahead.skipType us) := by
  rw [skipType_eq, skipType_eq]
  apply bind (h.skipAnnotations false false)
  intro xs ys _ hrest
  cases hrest with
  | nil => exact .none
  | last kind _ ends =>
    rcases ends with ends | ends <;> simp only [kind, ends] <;> exact .none
  | cons kind _ _ _ rest =>
    simp only [kind]
    split
    · exact .some rest.skipDims
    split
    · rw [Option.map_eq_bind, Option.map_eq_bind]
      exact bind (rest.skipSegments true 0) fun _ _ _ halong => .some halong.skipDims
    · exact .none

theorem skipBounds (fuel : Nat) (h : Along tail ts us) :
    Option.Rel (Along tail) (Lookahead.skipBounds fuel ts) (Lookahead.skipBounds fuel us) := by
  induction fuel generalizing ts us with
  | zero => exact .some h
  | succ fuel ih =>
    cases h with
    | nil alone => exact .some (.nil alone)
    | @last x y kind text ends =>
      have hx : x.kind ≠ .amp := by
        rcases ends with ends | ends <;> simp [ends]
      simp only [Lookahead.skipBounds, kind, hx, if_false]
      exact .some (.last kind text ends)
    | cons kind text nonSealed closes rest =>
      simp only [Lookahead.skipBounds, kind]
      split
      · exact bind rest.skipType fun _ _ _ halong => ih halong
      · exact .some (.cons kind text nonSealed closes rest)

theorem localVariable (h : Along tail ts us) :
    Option.Rel (Along tail) (Lookahead.localVariable ts) (Lookahead.localVariable us) := by
  rw [localVariable_eq, localVariable_eq]
  apply bind (bind (h.skipAnnotations true false) fun _ _ _ halong => halong.skipType)
  intro xs ys _ halong
  simp only [halong.next]
  split
  · exact .some halong
  · exact .none

/-! What is learnt from the symbols. -/

theorem nexts {ks : List Kind} (h : Along tail ts us) (hks : isInward ks = true) :
    Lookahead.next ks us = Lookahead.next ks ts := by
  induction ks generalizing ts us with
  | nil => rfl
  | cons k ks ih =>
    cases h with
    | nil => rfl
    | @last x y kind text ends =>
      cases ks with
      | nil => simp [Lookahead.next, kind]
      | cons k' ks =>
        have hk : k ≠ .rbrace ∧ k ≠ .semicolon := by
          simp only [isInward, List.dropLast_cons_cons, List.all_cons, Bool.and_eq_true,
            bne_iff_ne] at hks
          exact hks.1
        have hx : (x.kind == k) = false := by
          rcases ends with ends | ends <;> simp [ends, hk.1.symm, hk.2.symm]
        simp only [Lookahead.next, kind, hx, Bool.false_and]
    | cons kind _ _ _ rest =>
      have hrest : isInward ks = true := by
        cases ks with
        | nil => rfl
        | cons k' ks =>
          simp only [isInward, List.dropLast_cons_cons, List.all_cons, Bool.and_eq_true] at hks ⊢
          exact hks.2
      simp only [Lookahead.next, kind, ih rest hrest]

/-- As many symbols as the first list has are of the same kinds. -/
theorem take_kinds (h : Along tail ts us) {k : Nat} (hk : k ≤ ts.length) :
    (us.take k).map Symbol.kind = (ts.take k).map Symbol.kind := by
  induction h generalizing k with
  | nil alone => rfl
  | last kind =>
    rcases Nat.le_one_iff_eq_zero_or_eq_one.mp hk with rfl | rfl <;> simp [kind]
  | cons kind _ _ _ _ ih =>
    cases k with
    | zero => rfl
    | succ k => simp [kind, ih (Nat.le_of_succ_le_succ hk)]

theorem nextWord (h : Along tail ts us) (word : String) :
    Lookahead.nextWord word us = Lookahead.nextWord word ts := by
  cases h with
  | nil => rfl
  | last kind text | cons kind text => simp [Lookahead.nextWord, Symbol.isWord, kind, text]

theorem next_of_nextWord {word : String} (hword : Lookahead.nextWord word ts = true) :
    Lookahead.next [.identifier] ts = true := by
  cases ts with
  | nil => cases hword
  | cons x xs =>
    simp only [Lookahead.nextWord, Symbol.isWord, Bool.and_eq_true] at hword
    simp only [Lookahead.next, hword.1, Bool.and_true]

/-- A parenthesis in front closes at the same place. -/
theorem closed (h : Along tail ts us) (hopen : Lookahead.next [.lparen] ts = true) :
    Option.Rel (Along tail) (Lookahead.afterClosing 0 ts) (Lookahead.afterClosing 0 us) := by
  apply h.afterClosing
  cases ts with
  | nil => cases hopen
  | cons x xs =>
    have hx : x.kind = .lparen := by simpa [Lookahead.next] using hopen
    rw [Lookahead.afterClosing, if_pos hx]
    exact h.closing hx

theorem any_eq {a b : Option (List Symbol)} {f g : List Symbol → Bool}
    (h : Option.Rel (Along tail) a b) (hf : ∀ x y, Along tail x y → g y = f x) :
    b.any g = a.any f := by
  cases h with
  | none => rfl
  | some h => exact hf _ _ h

theorem isLambda (h : Along tail ts us) : Lookahead.isLambda us = Lookahead.isLambda ts := by
  unfold Lookahead.isLambda
  rw [h.nexts rfl, h.next]
  cases hopen : Lookahead.next [.lparen] ts with
  | false => rfl
  | true => rw [any_eq (h.closed hopen) fun _ _ halong => halong.next .arrow]

theorem head_eq (h : Along tail ts us) :
    (us.head?.map fun s => (s.kind, s.text)) = ts.head?.map fun s => (s.kind, s.text) := by
  cases h with
  | nil => rfl
  | last kind text | cons kind text => simp [kind, text]

theorem head_any (h : Along tail ts us) (p : Kind → Bool) :
    (us.head?.any fun s => p s.kind) = ts.head?.any fun s => p s.kind := by
  cases h with
  | nil => rfl
  | last kind | cons kind => simp [kind]

theorem isCast (h : Along tail ts us) (hopen : Lookahead.next [.lparen] ts = true) :
    Lookahead.isCast us = Lookahead.isCast ts := by
  have hinner : Along tail (ts.drop 1) (us.drop 1) := h.drop_one hopen (by decide)
  have hbounds : Option.Rel (Along tail)
      ((Lookahead.skipType (ts.drop 1)).bind (Lookahead.skipBounds ts.length))
      ((Lookahead.skipType (us.drop 1)).bind (Lookahead.skipBounds us.length)) := by
    have hfuel : (Lookahead.skipType (ts.drop 1)).bind (Lookahead.skipBounds ts.length) =
        (Lookahead.skipType (ts.drop 1)).bind (Lookahead.skipBounds us.length) := by
      cases htype : Lookahead.skipType (ts.drop 1) with
      | none => rfl
      | some more =>
        have hmore := length_skipType htype
        have hlength := h.length
        rw [List.length_drop] at hmore
        exact (skipBounds_fuel (by omega)).trans (skipBounds_fuel (by omega)).symm
    rw [hfuel]
    exact bind hinner.skipType fun _ _ _ halong => halong.skipBounds _
  have hprimitive : ((Lookahead.skipAnnotations false .outside (us.drop 1)).any fun us =>
        us.head?.any fun s => s.kind.isPrimitive) =
      ((Lookahead.skipAnnotations false .outside (ts.drop 1)).any fun us =>
        us.head?.any fun s => s.kind.isPrimitive) :=
    any_eq (hinner.skipAnnotations false false) fun _ _ halong => halong.head_any _
  have hclosed := h.closed hopen
  unfold Lookahead.isCast
  rw [hprimitive]
  generalize Lookahead.afterClosing 0 ts = after, Lookahead.afterClosing 0 us = after' at hclosed ⊢
  generalize (Lookahead.skipType (ts.drop 1)).bind _ = bounds,
    (Lookahead.skipType (us.drop 1)).bind _ = bounds' at hbounds ⊢
  cases hclosed with
  | none => rfl
  | @some rest rest' hafter =>
    cases hbounds with
    | none => rfl
    | @some inner inner' hinner =>
      have hlength : (inner'.length == rest'.length + 1) = (inner.length == rest.length + 1) := by
        rw [hinner.length, hafter.length, Bool.eq_iff_iff, beq_iff_eq, beq_iff_eq]
        omega
      dsimp only
      rw [hafter.next, hafter.head_any startsOperand, hlength]

theorem isTypeQualifier (h : Along tail ts us) :
    Lookahead.isTypeQualifier us = Lookahead.isTypeQualifier ts := by
  rw [isTypeQualifier_eq, isTypeQualifier_eq]
  apply any_eq h.skipType
  intro xs ys halong
  have hcount : us.length - ys.length = ts.length - xs.length := by
    rw [halong.length, h.length]
    omega
  have hkinds : (us.take (us.length - ys.length)).map Symbol.kind =
      (ts.take (ts.length - xs.length)).map Symbol.kind := by
    rw [hcount]
    exact h.take_kinds (by omega)
  have hany := congrArg (List.any · fun k => k == .less || k == .lbracket) hkinds
  simp only [List.any_map] at hany
  rw [halong.next, halong.nexts rfl]
  exact congrArg (· && _) hany

theorem isSealed (h : Along tail ts us) : Lookahead.isSealed us = Lookahead.isSealed ts := by
  cases h with
  | nil => rfl
  | @last x y kind text ends =>
    have hword : y.kind ≠ .identifier := by
      rcases ends with ends | ends <;> simp [kind, ends]
    cases tail <;> simp [Lookahead.isSealed, Symbol.isWord, hword]
  | cons kind text nonSealed closes rest =>
    cases rest with
    | nil => rfl
    | last kind' text' | cons kind' text' =>
      simp only [Lookahead.isSealed, Symbol.isWord, kind, text, kind', text']

theorem isYield (h : Along tail ts us) : Lookahead.isYield us = Lookahead.isYield ts := by
  cases h with
  | nil => rfl
  | @last x y kind text ends =>
    have hword : y.kind ≠ .identifier := by
      rcases ends with ends | ends <;> simp [kind, ends]
    cases tail <;> simp [Lookahead.isYield, Symbol.isWord, hword]
  | cons kind text nonSealed closes rest =>
    cases rest with
    | nil => rfl
    | last kind' | cons kind' =>
      simp only [Lookahead.isYield, Symbol.isWord, kind, text, kind']

theorem isModule (h : Along tail ts us) : Lookahead.isModule us = Lookahead.isModule ts := by
  have hrest : Along tail (if Lookahead.nextWord "open" ts then ts.drop 1 else ts)
      (if Lookahead.nextWord "open" us then us.drop 1 else us) := by
    rw [h.nextWord]
    split
    · rename_i hword
      exact h.drop_one (next_of_nextWord hword) (by decide)
    · exact h
  unfold Lookahead.isModule
  dsimp only
  rw [hrest.nextWord, hrest.nexts rfl]

theorem isNonSealed (h : Along tail ts us) :
    Lookahead.isNonSealed us = Lookahead.isNonSealed ts := by
  cases ts with
  | nil =>
    cases h
    rfl
  | cons x xs =>
    obtain ⟨y, ys, rfl, -, -, hsame, -⟩ := h.head
    exact hsame

theorem dottedTail (h : Along tail ts us) :
    Lookahead.dottedTail us = Lookahead.dottedTail ts := by
  induction hlength : ts.length using Nat.strongRecOn generalizing ts us with
  | ind m ih =>
    cases h with
    | nil => rfl
    | @last x y kind text ends =>
      have hx : x.kind ≠ .dot := by
        rcases ends with ends | ends <;> simp [ends]
      simp only [dottedTail_cons, kind, hx, false_and, if_false]
    | @cons x y xs ys kind text nonSealed closes rest =>
      have hshorter : (xs.drop 1).length < m := by
        rw [← hlength, List.length_drop, List.length_cons]
        omega
      have htext : ys.head?.map Symbol.text = xs.head?.map Symbol.text := by
        have hpair := congrArg (Option.map Prod.snd) rest.head_eq
        rw [Option.map_map, Option.map_map] at hpair
        exact hpair
      rw [dottedTail_cons, dottedTail_cons, kind, rest.next, htext]
      split
      · rename_i hdot
        rw [ih _ hshorter (rest.drop_one hdot.2 (by decide)) rfl]
      · rfl

theorem dims (h : Along tail ts us) : Lookahead.dims us = Lookahead.dims ts := by
  induction hlength : ts.length using Nat.strongRecOn generalizing ts us with
  | ind m ih =>
    cases h with
    | nil => rfl
    | @last x y kind text ends =>
      have hx : x.kind ≠ .lbracket := by
        rcases ends with ends | ends <;> simp [ends]
      simp only [dims_cons, kind, hx, false_and, if_false]
    | @cons x y xs ys kind text nonSealed closes rest =>
      have hshorter : (xs.drop 1).length < m := by
        rw [← hlength, List.length_drop, List.length_cons]
        omega
      rw [dims_cons, dims_cons, kind, rest.next]
      split
      · rename_i hpair
        rw [ih _ hshorter (rest.drop_one hpair.2 (by decide)) rfl]
      · rfl

theorem requireWords (h : Along tail ts us) :
    Lookahead.requireWords us = Lookahead.requireWords ts := by
  induction h with
  | nil => rfl
  | last kind text ends =>
    rcases ends with ends | ends <;> simp [Lookahead.requireWords, Symbol.isWord, kind, ends]
  | @cons x y xs ys kind text nonSealed closes rest ih =>
    have hnext : nextOneOf [.semicolon, .dot] ys = nextOneOf [.semicolon, .dot] xs := by
      cases rest with
      | nil => rfl
      | last kind | cons kind => simp [nextOneOf, kind]
    simp only [Lookahead.requireWords, Symbol.isWord, kind, text, hnext, ih]

theorem sees (h : Along tail ts us) : Sees ts us where
  head := h.head_eq
  next _ hks := h.nexts hks
  isLambda := h.isLambda
  isCast := h.isCast
  isTypeQualifier := h.isTypeQualifier
  isLocalVariable := by
    rw [Lookahead.isLocalVariable, Lookahead.isLocalVariable, ← Option.any_true, ← Option.any_true]
    exact any_eq h.localVariable fun _ _ _ => rfl
  isForEach := any_eq h.localVariable fun _ _ halong => halong.nexts rfl
  isSealed := h.isSealed
  isNonSealed := h.isNonSealed
  isModule := h.isModule
  isYield := h.isYield
  dottedTail := h.dottedTail
  dims := h.dims
  requireWords := h.requireWords

end Along

end JavaSyntax
