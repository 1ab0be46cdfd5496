import JavaSyntax.Proofs.Erasure
import JavaSyntax.Proofs.Evaluation
import Mathlib.Data.List.Chain

/-!
The words an expression is written with. `Spelled n tree words` is the grammar of plain expressions,
those of names, literals, calls, selections and operators: the words spell the tree where an
expression of level `n` may stand. Level 1 takes any expression, 2 a conditional one, 3 to 12 the
binary operators in the order of their strength, 13 leading operators, 14 trailing ones, and 15 a
primary with its selectors; level 0 is for the arguments of a call.
-/

namespace JavaSyntax

/-- What a literal word stands for; with `negated` a minus sign in front belongs to it. -/
def Word.value? (w : Word) (negated : Bool) : Option (Except LiteralError Literal) :=
  Grammar.literalValue ⟨w.1, w.2, false⟩ negated

def isNumber (k : Kind) : Bool :=
  k == .integerLit || k == .floatingLit

/-- Expressions of names, literals, calls, selections and operators. -/
def Tree.isPlain : {c : Category} → Tree c → Bool
  | _, .nil => true
  | _, .cons head tail => head.isPlain && tail.isPlain
  | _, .none => true
  | _, .some value => value.isPlain
  | _, .literal _ _ => true
  | _, .ident _ _ => true
  | _, .binary left _ right _ => left.isPlain && right.isPlain
  | _, .unary _ operand _ => operand.isPlain
  | _, .assign target _ value _ => target.isPlain && value.isPlain
  | _, .call target typeArgs _ arguments _ =>
    target.isPlain && typeArgs.isNil && arguments.isPlain
  | _, .select target name _ => target.isPlain && name != "class"
  | _, .index array index _ => array.isPlain && index.isPlain
  | _, .conditional condition yes no _ => condition.isPlain && yes.isPlain && no.isPlain
  | _, .paren inner _ => inner.isPlain
  | _, _ => false

/-- Type arguments that say nothing: none, or an empty list in front of a name. -/
def NoTypeArgs (gs : List Word) (k : Kind) : Prop :=
  gs = [] ∨ k = .identifier ∧ ∃ l g, gs = [l, g] ∧ l.1 = .less ∧ g.1 = .greater

open Grammar in
inductive Spelled : {c : Category} → Nat → Tree c → List Word → Prop where
  | lower {n : Nat} {tree : Tree .expr} {ws : List Word} (pos : 0 < n) (lt : n < 15)
      (spelled : Spelled (n + 1) tree ws) : Spelled n tree ws
  | nil : Spelled 0 (.nil : Tree (.list .expr)) []
  | one {arg : Tree .expr} {ws : List Word} (spelled : Spelled 1 arg ws) :
      Spelled 0 (.cons arg .nil) ws
  | more {arg next : Tree .expr} {args : Tree (.list .expr)} {ws us : List Word} {comma : Word}
      (first : Spelled 1 arg ws) (isComma : comma.1 = .comma)
      (others : Spelled 0 (.cons next args) us) :
      Spelled 0 (.cons arg (.cons next args)) (ws ++ comma :: us)
  | literal {value read : Literal} {extent : Extent} {w : Word}
      (reads : w.value? false = some (.ok read)) (same : read.erase = value.erase) :
      Spelled 15 (.literal value extent) [w]
  | negative {value read : Literal} {extent : Extent} {sign w : Word} (isMinus : sign.1 = .minus)
      (number : isNumber w.1 = true) (reads : w.value? true = some (.ok read))
      (same : read.erase = value.erase) : Spelled 15 (.literal value extent) [sign, w]
  | ident {extent : Extent} {w : Word} (named : isName w.1 = true) :
      Spelled 15 (.ident w.2 extent) [w]
  | paren {inner : Tree .expr} {extent : Extent} {ws : List Word} {l r : Word}
      (opens : l.1 = .lparen) (closes : r.1 = .rparen) (spelled : Spelled 1 inner ws) :
      Spelled 15 (.paren inner extent) (l :: (ws ++ [r]))
  | call {args : Tree (.list .expr)} {extent : Extent} {ws : List Word} {w l r : Word}
      (named : isName w.1 = true) (opens : l.1 = .lparen) (closes : r.1 = .rparen)
      (spelled : Spelled 0 args ws) :
      Spelled 15 (.call .none .nil w.2 args extent) (w :: l :: (ws ++ [r]))
  | select {target : Tree .expr} {extent : Extent} {ws gs : List Word} {dot w : Word}
      (spelled : Spelled 15 target ws) (isDot : dot.1 = .dot) (bare : NoTypeArgs gs w.1)
      (named : isName w.1 = true) :
      Spelled 15 (.select target w.2 extent) (ws ++ dot :: (gs ++ [w]))
  | callOn {target : Tree .expr} {args : Tree (.list .expr)} {extent : Extent}
      {ws gs us : List Word} {dot w l r : Word} (spelled : Spelled 15 target ws)
      (isDot : dot.1 = .dot) (bare : NoTypeArgs gs w.1) (named : isName w.1 = true)
      (notThis : w.1 ≠ .thisKw) (opens : l.1 = .lparen) (closes : r.1 = .rparen)
      (arguments : Spelled 0 args us) :
      Spelled 15 (.call (.some target) .nil w.2 args extent)
        (ws ++ dot :: (gs ++ w :: l :: (us ++ [r])))
  | index {array index : Tree .expr} {extent : Extent} {ws us : List Word} {l r : Word}
      (spelled : Spelled 15 array ws) (opens : l.1 = .lbracket) (closes : r.1 = .rbracket)
      (inner : Spelled 1 index us) : Spelled 15 (.index array index extent) (ws ++ l :: (us ++ [r]))
  | trailing {op : UnaryOp} {operand : Tree .expr} {extent : Extent} {ws : List Word} {w : Word}
      (spelled : Spelled 14 operand ws) (unsigned : Heads (· != .minus) ws)
      (isOp : trailingOp? w.1 = some op) : Spelled 14 (.unary op operand extent) (ws ++ [w])
  | leading {op : UnaryOp} {operand : Tree .expr} {extent : Extent} {ws : List Word} {w : Word}
      (isOp : leadingOp? w.1 = some op) (apart : op = .minus → Heads (!isNumber ·) ws)
      (spelled : Spelled 13 operand ws) : Spelled 13 (.unary op operand extent) (w :: ws)
  | binary {op : BinaryOp} {level : Nat} {left right : Tree .expr} {extent : Extent}
      {ws us : List Word} {w : Word} (isOp : binaryOp? w.1 = some (op, level))
      (first : Spelled (level + 2) left ws) (second : Spelled (level + 3) right us) :
      Spelled (level + 2) (.binary left op right extent) (ws ++ w :: us)
  | conditional {condition yes no : Tree .expr} {extent : Extent} {ws us vs : List Word}
      {question colon : Word} (test : Spelled 3 condition ws) (isQuestion : question.1 = .question)
      (first : Spelled 1 yes us) (isColon : colon.1 = .colon) (second : Spelled 2 no vs) :
      Spelled 2 (.conditional condition yes no extent) (ws ++ question :: (us ++ colon :: vs))
  | assign {op : AssignOp} {target value : Tree .expr} {extent : Extent} {ws us : List Word}
      {w : Word} (first : Spelled 2 target ws) (isOp : assignOp? w.1 = some op)
      (second : Spelled 1 value us) : Spelled 1 (.assign target op value extent) (ws ++ w :: us)

/-- How strongly a word behind an expression holds on to it: the level of the expression that the
word would go on with, and zero if it cannot. A parenthesis makes a call of a name. -/
def bindsAt (k : Kind) : Nat :=
  if k = .lparen then 16
  else if k = .dot ∨ k = .lbracket ∨ k = .doubleColon then 15
  else if (Grammar.trailingOp? k).isSome then 14
  else if k = .instanceofKw then Grammar.instanceOfLevel + 2
  else
    match Grammar.binaryOp? k with
    | some (_, level) => level + 2
    | none => if k = .question then 2 else if (Grammar.assignOp? k).isSome then 1 else 0

def nextBinds (ws : List Word) : Nat :=
  (ws.head?.map fun w => bindsAt w.1).getD 0

theorem nextBinds_le {w : Word} {ws : List Word} {k : Kind} {n : Nat} (hw : w.1 = k)
    (hk : bindsAt k ≤ n) : nextBinds (w :: ws) ≤ n := by
  rwa [← hw] at hk

/-- Words that open neither a lambda nor a type, wherever they stand. -/
def isQuiet (k : Kind) : Bool :=
  !k.isPrimitive && k != .arrow && k != .doubleColon && k != .classKw

/-- Words that stand between two expressions. -/
def separates (k : Kind) : Bool :=
  isQuiet k && k != .rparen && !Lookahead.startsOperand k

/-- Words among which nothing can be mistaken for a lambda, a cast or a type: a closing parenthesis
is never followed by what could be the operand of a cast. -/
structure Quiet (ws : List Word) : Prop where
  all : ∀ w ∈ ws, isQuiet w.1 = true
  apart : ws.IsChain fun a b => a.1 = .rparen → Lookahead.startsOperand b.1 = false

namespace Quiet

variable {ws us : List Word} {w : Word}

theorem nil : Quiet [] := ⟨by simp, .nil⟩

theorem single (hw : isQuiet w.1 = true) : Quiet [w] := ⟨by simpa using hw, .singleton w⟩

theorem cons (hw : isQuiet w.1 = true) (hr : w.1 ≠ .rparen) (h : Quiet us) : Quiet (w :: us) := by
  refine ⟨?_, ?_⟩
  · intro x hx
    rcases List.mem_cons.mp hx with rfl | hx
    · exact hw
    · exact h.all x hx
  · exact List.isChain_cons.mpr ⟨fun y _ hc => absurd hc hr, h.apart⟩

theorem append (h : Quiet ws) (h' : Quiet us) (hhead : Heads (!Lookahead.startsOperand ·) us) :
    Quiet (ws ++ us) := by
  refine ⟨?_, List.isChain_append.mpr ⟨h.apart, h'.apart, ?_⟩⟩
  · intro x hx
    rcases List.mem_append.mp hx with hx | hx
    · exact h.all x hx
    · exact h'.all x hx
  · intro x _ y hy _
    simpa using hhead y hy

theorem of_append (h : Quiet (ws ++ us)) : Quiet us :=
  ⟨fun w hw => h.all w (List.mem_append_right ws hw), (List.isChain_append.mp h.apart).2.1⟩

theorem tail (h : Quiet (w :: us)) : Quiet us :=
  ⟨fun x hx => h.all x (List.mem_cons_of_mem w hx), h.apart.tail⟩

theorem past {s t : State} (h : Quiet s.words) (hwords : s.words = ws ++ us)
    (hpast : s.Past t us) : Quiet t.words := by
  rw [hpast.words]
  rw [hwords] at h
  exact h.of_append

theorem past_one {s : State} (h : Quiet s.words) (hwords : s.words = w :: us) :
    Quiet (s.advance 1).words :=
  @past [w] us s _ h hwords (State.past_one hwords)

/-- A word between two quiet stretches. -/
theorem between (h : Quiet ws) (hw : separates w.1 = true) (h' : Quiet us) :
    Quiet (ws ++ w :: us) := by
  simp only [separates, Bool.and_eq_true, bne_iff_ne] at hw
  obtain ⟨⟨hquiet, hr⟩, hoperand⟩ := hw
  exact h.append (h'.cons hquiet hr) fun y hy => by cases hy; exact hoperand

/-- A word behind a quiet stretch. -/
theorem snoc (h : Quiet ws) (hw : isQuiet w.1 = true) (ho : Lookahead.startsOperand w.1 = false) :
    Quiet (ws ++ [w]) :=
  h.append (.single hw) fun y hy => by cases hy; simp [ho]

end Quiet

section Operators

open Grammar

variable {k : Kind}

theorem binaryOp?_facts {op : BinaryOp} {level : Nat} (h : binaryOp? k = some (op, level)) :
    separates k = true ∧ bindsAt k = level + 2 ∧ 1 ≤ level ∧ level ≤ 10 := by
  unfold binaryOp? at h
  split at h <;> cases h <;> decide

theorem assignOp?_facts {op : AssignOp} (h : assignOp? k = some op) :
    separates k = true ∧ bindsAt k = 1 := by
  unfold assignOp? at h
  split at h <;> cases h <;> decide

theorem trailingOp?_facts {op : UnaryOp} (h : trailingOp? k = some op) :
    isQuiet k = true ∧ Lookahead.startsOperand k = false ∧ bindsAt k = 14 := by
  unfold trailingOp? at h
  split at h <;> cases h <;> decide

theorem leadingOp?_facts {op : UnaryOp} (h : leadingOp? k = some op) :
    isQuiet k = true ∧ k ≠ .rparen := by
  unfold leadingOp? at h
  split at h <;> cases h <;> decide

theorem isName_facts (h : isName k = true) :
    isQuiet k = true ∧ k ≠ .rparen ∧ leadingOp? k = none := by
  simp only [isName, Bool.or_eq_true, beq_iff_eq] at h
  rcases h with (rfl | rfl) | rfl <;> decide

theorem value?_facts {w : Word} {negated : Bool} {result : Except LiteralError Literal}
    (h : w.value? negated = some result) :
    isQuiet w.1 = true ∧ w.1 ≠ .rparen ∧ leadingOp? w.1 = none ∧ w.1.isLiteral = true := by
  obtain ⟨k, text⟩ := w
  simp only [Word.value?, literalValue] at h
  split at h <;> cases h <;> exact ⟨rfl, by simp, rfl, rfl⟩

theorem NoTypeArgs.quiet {gs us : List Word} (h : NoTypeArgs gs k) (hus : Quiet us) :
    Quiet (gs ++ us) := by
  rcases h with rfl | ⟨_, l, g, rfl, hl, hg⟩
  · exact hus
  · exact (hus.cons (by rw [hg]; rfl) (by simp [hg])).cons (by rw [hl]; rfl) (by simp [hl])

/-- Words that an expression starts with. -/
def opensExpr (k : Kind) : Bool :=
  isName k || k.isLiteral || k == .lparen || (leadingOp? k).isSome

end Operators

namespace Spelled

open Grammar

variable {c : Category} {n : Nat} {tree : Tree c} {ws : List Word}

protected theorem quiet (h : Spelled n tree ws) : Quiet ws := by
  induction h with
  | lower _ _ _ ih => exact ih
  | nil => exact .nil
  | one _ ih => exact ih
  | more _ hcomma _ ih ih' => exact ih.between (by rw [hcomma]; rfl) ih'
  | literal hread _ => exact .single (value?_facts hread).1
  | negative hminus _ hread _ =>
    exact (Quiet.single (value?_facts hread).1).cons (by rw [hminus]; rfl) (by simp [hminus])
  | ident hname => exact .single (isName_facts hname).1
  | paren hl hr _ ih =>
    exact (ih.snoc (by rw [hr]; rfl) (by rw [hr]; rfl)).cons (by rw [hl]; rfl) (by simp [hl])
  | call hname hl hr _ ih =>
    exact ((ih.snoc (by rw [hr]; rfl) (by rw [hr]; rfl)).cons (by rw [hl]; rfl)
      (by simp [hl])).cons (isName_facts hname).1 (isName_facts hname).2.1
  | select _ hdot hbare hname ih =>
    exact ih.between (by rw [hdot]; rfl) (hbare.quiet (.single (isName_facts hname).1))
  | callOn _ hdot hbare hname _ hl hr _ ih ih' =>
    exact ih.between (by rw [hdot]; rfl) (hbare.quiet (((ih'.snoc (by rw [hr]; rfl)
      (by rw [hr]; rfl)).cons (by rw [hl]; rfl) (by simp [hl])).cons (isName_facts hname).1
        (isName_facts hname).2.1))
  | index _ hl hr _ ih ih' =>
    exact ih.between (by rw [hl]; rfl) (ih'.snoc (by rw [hr]; rfl) (by rw [hr]; rfl))
  | trailing _ _ hop ih => exact ih.snoc (trailingOp?_facts hop).1 (trailingOp?_facts hop).2.1
  | leading hop _ _ ih => exact ih.cons (leadingOp?_facts hop).1 (leadingOp?_facts hop).2
  | binary hop _ _ ih ih' => exact ih.between (binaryOp?_facts hop).1 ih'
  | conditional _ hq _ hc _ ih ih' ih'' =>
    exact ih.between (by rw [hq]; rfl) (ih'.between (by rw [hc]; rfl) ih'')
  | assign _ hop _ ih ih' => exact ih.between (assignOp?_facts hop).1 ih'

/-- From level 14 on no operator leads but the sign of a number. -/
theorem opens (h : Spelled n tree ws) (hn : 0 < n) :
    ∃ w us, ws = w :: us ∧ opensExpr w.1 = true ∧
      (14 ≤ n → w.1 = .minus ∨ leadingOp? w.1 = none) := by
  induction h with
  | lower _ _ _ ih =>
    obtain ⟨w, us, hws, hopens, hlead⟩ := ih (Nat.succ_pos _)
    exact ⟨w, us, hws, hopens, fun hle => hlead (by omega)⟩
  | nil => cases hn
  | one => cases hn
  | more => cases hn
  | literal hread _ =>
    obtain ⟨_, _, hlead, hliteral⟩ := value?_facts hread
    exact ⟨_, _, rfl, by simp [opensExpr, hliteral], fun _ => .inr hlead⟩
  | negative hminus => exact ⟨_, _, rfl, by rw [hminus]; rfl, fun _ => .inl hminus⟩
  | ident hname =>
    exact ⟨_, _, rfl, by simp [opensExpr, hname], fun _ => .inr (isName_facts hname).2.2⟩
  | paren hl => exact ⟨_, _, rfl, by rw [hl]; rfl, fun _ => .inr (by rw [hl]; rfl)⟩
  | call hname =>
    exact ⟨_, _, rfl, by simp [opensExpr, hname], fun _ => .inr (isName_facts hname).2.2⟩
  | select _ _ _ _ ih | callOn _ _ _ _ _ _ _ _ ih | index _ _ _ _ ih | trailing _ _ _ ih =>
    obtain ⟨w, us, rfl, hopens, hlead⟩ := ih (by omega)
    exact ⟨w, _, rfl, hopens, hlead⟩
  | leading hop => exact ⟨_, _, rfl, by simp [opensExpr, hop], fun hle => by omega⟩
  | binary hop _ _ ih =>
    obtain ⟨w, us, rfl, hopens, hlead⟩ := ih (by omega)
    exact ⟨w, _, rfl, hopens, hlead⟩
  | conditional _ _ _ _ _ ih | assign _ _ _ ih =>
    obtain ⟨w, us, rfl, hopens, _⟩ := ih (by omega)
    exact ⟨w, _, rfl, hopens, fun hle => by omega⟩

theorem ne_nil (h : Spelled n tree ws) (hn : 0 < n) : ws ≠ [] := by
  obtain ⟨w, us, rfl, _⟩ := h.opens hn
  exact List.cons_ne_nil w us

theorem not_rparen (h : Spelled n tree ws) (hn : 0 < n) : Heads (· != .rparen) ws := by
  obtain ⟨w, us, rfl, hopens, _⟩ := h.opens hn
  rintro _ ⟨⟩
  simp only [bne_iff_ne]
  rintro hr
  rw [hr] at hopens
  cases hopens

end Spelled

end JavaSyntax
