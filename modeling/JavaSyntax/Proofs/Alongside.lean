import JavaSyntax.Proofs.Moving

/-!
Rules run on two texts that look the same to them. The symbols ahead may differ in what no rule can
see, and the second run may be some tokens further on. Two rules move together if they then do the
same, step by step, with everything in the second moved. Where the first rule finds a fault nothing
is asked of the second.
-/

namespace JavaSyntax

open Lookahead (next nextOneOf nextWord)
open Movable (move)

/-- Kinds of which only the last may end a declaration or a statement. -/
def Lookahead.isInward (ks : List Kind) : Bool :=
  ks.dropLast.all fun k => k != .rbrace && k != .semicolon

/-- Rules that look ahead learn the same of both lists of symbols. -/
structure Sees (ts us : List Symbol) : Prop where
  head : (us.head?.map fun s => (s.kind, s.text)) = ts.head?.map fun s => (s.kind, s.text)
  next (ks : List Kind) : Lookahead.isInward ks = true → next ks us = next ks ts
  isLambda : Lookahead.isLambda us = Lookahead.isLambda ts
  isCast : Lookahead.next [.lparen] ts = true → Lookahead.isCast us = Lookahead.isCast ts
  isTypeQualifier : Lookahead.isTypeQualifier us = Lookahead.isTypeQualifier ts
  isLocalVariable : Lookahead.isLocalVariable us = Lookahead.isLocalVariable ts
  isForEach : Lookahead.isForEach us = Lookahead.isForEach ts
  isSealed : Lookahead.isSealed us = Lookahead.isSealed ts
  isNonSealed : Lookahead.isNonSealed us = Lookahead.isNonSealed ts
  isModule : Lookahead.isModule us = Lookahead.isModule ts
  isYield : Lookahead.isYield us = Lookahead.isYield ts
  dottedTail : Lookahead.dottedTail us = Lookahead.dottedTail ts
  dims : Lookahead.dims us = Lookahead.dims ts
  requireWords : Lookahead.requireWords us = Lookahead.requireWords ts

namespace Sees

variable {ts us : List Symbol} (h : Sees ts us)

include h

/-- Both lists have a next symbol that looks the same, or neither has one. -/
theorem cases : ts = [] ∧ us = [] ∨ ∃ x xs y ys, ts = x :: xs ∧ us = y :: ys ∧
    y.kind = x.kind ∧ y.text = x.text := by
  have hhead := h.head
  cases ts with
  | nil =>
    cases us with
    | nil => exact .inl ⟨rfl, rfl⟩
    | cons y ys => cases hhead
  | cons x xs =>
    cases us with
    | nil => cases hhead
    | cons y ys =>
      obtain ⟨hkind, htext⟩ := Prod.mk.inj (Option.some.inj hhead)
      exact .inr ⟨x, xs, y, ys, rfl, rfl, hkind, htext⟩

theorem isEmpty : us.isEmpty = ts.isEmpty := by
  rcases h.cases with ⟨rfl, rfl⟩ | ⟨x, xs, y, ys, rfl, rfl, -, -⟩ <;> rfl

theorem nextOneOf (ks : List Kind) : nextOneOf ks us = nextOneOf ks ts := by
  rcases h.cases with ⟨rfl, rfl⟩ | ⟨x, xs, y, ys, rfl, rfl, hkind, -⟩
  · rfl
  · simp [Lookahead.nextOneOf, hkind]

theorem nextWord (word : String) : nextWord word us = nextWord word ts := by
  rcases h.cases with ⟨rfl, rfl⟩ | ⟨x, xs, y, ys, rfl, rfl, hkind, htext⟩
  · rfl
  · simp [Lookahead.nextWord, Symbol.isWord, hkind, htext]

theorem headKind : us.head?.map Symbol.kind = ts.head?.map Symbol.kind := by
  rcases h.cases with ⟨rfl, rfl⟩ | ⟨x, xs, y, ys, rfl, rfl, hkind, -⟩
  · rfl
  · simp [hkind]

theorem headText : us.head?.map Symbol.text = ts.head?.map Symbol.text := by
  rcases h.cases with ⟨rfl, rfl⟩ | ⟨x, xs, y, ys, rfl, rfl, -, htext⟩
  · rfl
  · simp [htext]

theorem lookup {α : Type} (table : Kind → Option α) :
    Grammar.lookup table us = Grammar.lookup table ts := by
  rcases h.cases with ⟨rfl, rfl⟩ | ⟨x, xs, y, ys, rfl, rfl, hkind, -⟩
  · rfl
  · simp [Grammar.lookup, hkind]

theorem isRecord : Lookahead.isRecord us = Lookahead.isRecord ts := by
  unfold Lookahead.isRecord
  rw [h.nextWord, h.next _ rfl, h.next _ rfl]

theorem isTypeDecl : Lookahead.isTypeDecl us = Lookahead.isTypeDecl ts := by
  unfold Lookahead.isTypeDecl
  rw [h.nextOneOf, h.next _ rfl, h.isRecord]

end Sees

namespace View

/-- Two views of runs that go on side by side, the second `n` tokens further on. -/
structure Beside (n : Nat) (v v' : View) : Prop where
  sees : Sees v.ahead v'.ahead
  index : v'.index = v.index + n
  taken : v'.taken = v.taken
  running : v.running = true
  running' : v'.running = true
  inLabels : v'.inLabels = v.inLabels

/-- Nothing in front of the first token was taken by the first run, and so by the second nothing
behind the mark. -/
theorem since_move {n : Nat} {v v' : View} (h : v'.index = v.index + n) (start : Mark) :
    v'.since (start.move n) = (v.since start).move n := by
  unfold View.since
  rw [h]
  by_cases hindex : 0 < v.index
  · have hlast : Mark.after (v.index + n - 1) = (Mark.after (v.index - 1)).move n := by
      simp only [Mark.move, Mark.after.injEq]
      omega
    rw [hlast, Mark.le_move]
    simp only [hindex, Nat.add_pos_left hindex n, true_and]
    split <;> rfl
  · have hle : (start.move n).le (.after (v.index + n - 1)) = true → ¬0 < v.index + n := by
      cases start <;> simp [Mark.move, Mark.le] <;> omega
    rw [if_neg (fun hboth => hle hboth.2 hboth.1), if_neg (fun hboth => hindex hboth.1)]
    rfl

namespace Beside

variable {n : Nat} {v v' : View} (h : Beside n v v')

include h

theorem mark : v'.mark = v.mark.move n := by
  unfold View.mark
  rw [h.sees.isEmpty, h.index, h.taken]
  split <;> rfl

theorem doc : v'.doc = v.doc.map (Mark.move n) := by
  unfold View.doc
  rw [h.sees.isEmpty, h.index, h.taken]
  split <;> rfl

theorem here : v'.here = v.here.move n := by
  unfold View.here
  rw [h.sees.isEmpty, h.index, h.taken]
  split <;> rfl

theorem since (start : Mark) : v'.since (start.move n) = (v.since start).move n :=
  since_move h.index start

end Beside

end View

theorem Rule.bind_assoc {α β γ : Type} (rule : Rule α) (f : α → Rule β) (g : β → Rule γ) :
    (rule >>= f) >>= g = rule >>= fun a => f a >>= g := by
  show (rule.bind f).bind g = rule.bind fun a => (f a).bind g
  induction rule with
  | done value | fail error => rfl
  | look rest ih => exact congrArg Rule.look (funext ih)
  | advance k rest ih => exact congrArg (Rule.advance k) ih
  | splitAngle rest ih => exact congrArg Rule.splitAngle ih
  | report error rest ih => exact congrArg (Rule.report error) ih
  | deprecation doc name rest ih => exact congrArg (Rule.deprecation doc name) ih
  | call nonterminal asLabels rest ih =>
    exact congrArg (Rule.call nonterminal asLabels) (funext ih)

/-- The rule starts with a fault. -/
def Rule.IsFault {α : Type} : Rule α → Prop
  | .fail _ | .report _ _ => True
  | _ => False

theorem Rule.IsFault.bind {α β : Type} {rule : Rule α} (h : rule.IsFault) (f : α → Rule β) :
    (rule >>= f).IsFault := by
  cases rule with
  | fail | report => trivial
  | _ => cases h

/-- The second rule does what the first one does, with everything moved. -/
inductive Moves (n : Nat) {α : Type} [Movable α] : Rule α → Rule α → Prop where
  | done (value : α) : Moves n (.done value) (.done (move n value))
  | fault {rule other : Rule α} (isFault : rule.IsFault) : Moves n rule other
  | look {rest rest' : View → Rule α}
      (next : ∀ v v', v.Beside n v' → Moves n (rest v) (rest' v')) :
      Moves n (.look rest) (.look rest')
  | advance (k : Nat) {rest rest' : Rule α} (next : Moves n rest rest') :
      Moves n (.advance k rest) (.advance k rest')
  | splitAngle {rest rest' : Rule α} (next : Moves n rest rest') :
      Moves n (.splitAngle rest) (.splitAngle rest')
  | deprecation {doc doc' : Option Mark} {name name' : Extent} {rest rest' : Rule α}
      (next : Moves n rest rest') :
      Moves n (.deprecation doc name rest) (.deprecation doc' name' rest')
  | called {β : Type} {nonterminal : Nonterminal β} {asLabels : Bool}
      {rest rest' : Except SyntaxError β → Rule α}
      (ok : ∀ value, Moves n (rest (.ok value)) (rest' (.ok (nonterminal.movable.move n value))))
      (error : ∀ error, (rest (.error error)).IsFault) :
      Moves n (.call nonterminal asLabels rest) (.call (nonterminal.move n) asLabels rest')

namespace Moves

open Grammar

variable {n : Nat} {α β γ : Type} [Movable α] [Movable β]

theorem pure {a b : α} (h : b = move n a) : Moves n (pure a) (pure b) := by
  rw [h]
  exact .done a

theorem raise {error : SyntaxError} {other : Rule α} : Moves n (raise error) other :=
  .fault trivial

theorem bind {rule other : Rule α} {f g : α → Rule β} (h : Moves n rule other)
    (hf : ∀ a, Moves n (f a) (g (move n a))) : Moves n (rule >>= f) (other >>= g) := by
  induction h with
  | done value => exact hf value
  | fault isFault => exact .fault (isFault.bind f)
  | look _ ih => exact .look ih
  | advance k _ ih => exact .advance k ih
  | splitAngle _ ih => exact .splitAngle ih
  | deprecation _ ih => exact .deprecation ih
  | called _ error ih => exact .called ih fun e => (error e).bind f

theorem map {rule other : Rule α} {f g : α → β} (h : Moves n rule other)
    (hf : ∀ a, g (move n a) = move n (f a)) : Moves n (f <$> rule) (g <$> other) :=
  bind h fun a => pure (hf a)

theorem ite {b c : Bool} {yes no yes' no' : Rule α} (h : c = b) (hyes : Moves n yes yes')
    (hno : Moves n no no') :
    Moves n (if b = true then yes else no) (if c = true then yes' else no') := by
  rw [h]
  split
  · exact hyes
  · exact hno

/-! The building blocks of rules, each with what follows it. -/

section Blocks

variable {f g : γ → Rule β}

theorem raise_bind {error : SyntaxError} {other : Rule β} :
    Moves n (Grammar.raise error >>= f) other :=
  .fault trivial

theorem report_bind {error : SyntaxError} {f : Unit → Rule β} {other : Rule β} :
    Moves n (report error >>= f) other :=
  .fault trivial

theorem view_bind {f g : View → Rule β} (h : ∀ v v', v.Beside n v' → Moves n (f v) (g v')) :
    Moves n (view >>= f) (view >>= g) :=
  .look h

theorem ahead_bind {f g : List Symbol → Rule β} (h : ∀ ts us, Sees ts us → Moves n (f ts) (g us)) :
    Moves n (ahead >>= f) (ahead >>= g) :=
  .look fun _ _ hv => h _ _ hv.sees

theorem mark_bind {f g : Mark → Rule β} (h : ∀ m, Moves n (f m) (g (m.move n))) :
    Moves n (mark >>= f) (mark >>= g) := by
  apply view_bind
  intro v v' hv
  show Moves n (f v.mark) (g v'.mark)
  rw [hv.mark]
  exact h v.mark

theorem since_bind {start : Mark} {f g : Extent → Rule β} (h : ∀ e, Moves n (f e) (g (e.move n))) :
    Moves n (since start >>= f) (since (start.move n) >>= g) := by
  apply view_bind
  intro v v' hv
  show Moves n (f (v.since start)) (g (v'.since (start.move n)))
  rw [hv.since]
  exact h _

theorem advance_bind {k : Nat} {f g : Unit → Rule β} (h : Moves n (f ()) (g ())) :
    Moves n (Grammar.advance k >>= f) (Grammar.advance k >>= g) :=
  .advance k h

/-! What gives a value that bears no marks gives the same one in both runs. -/

protected theorem check (k : Kind) : Moves n (check k) (check k) := by
  refine .look fun v v' hv => ?_
  have hnext : next [k] v'.ahead = next [k] v.ahead := hv.sees.next _ rfl
  exact Moves.pure hnext

theorem check_bind {k : Kind} {f g : Bool → Rule β} (h : ∀ found, Moves n (f found) (g found)) :
    Moves n (check k >>= f) (check k >>= g) :=
  bind (.check k) h

protected theorem accept (k : Kind) : Moves n (accept k) (accept k) := by
  unfold accept
  apply check_bind
  intro found
  cases found with
  | true => exact .advance 1 (.done true)
  | false => exact .done false

theorem accept_bind {k : Kind} {f g : Bool → Rule β} (h : ∀ found, Moves n (f found) (g found)) :
    Moves n (accept k >>= f) (accept k >>= g) :=
  bind (.accept k) h

protected theorem expect (k : Kind) : Moves n (expect k) (expect k) := by
  refine .look fun v v' hv => ?_
  exact ite (hv.sees.next _ rfl) (.advance 1 (.done ())) raise

theorem expect_bind {k : Kind} {f g : Unit → Rule β} (h : Moves n (f ()) (g ())) :
    Moves n (expect k >>= f) (expect k >>= g) :=
  bind (.expect k) fun _ => h

protected theorem require (k : Kind) : Moves n (require k) (require k) := by
  refine .look fun v v' hv => ?_
  exact ite (hv.sees.next _ rfl) (.advance 1 (.done ())) (.fault trivial)

theorem require_bind {k : Kind} {f g : Unit → Rule β} (h : Moves n (f ()) (g ())) :
    Moves n (require k >>= f) (require k >>= g) :=
  bind (.require k) fun _ => h

protected theorem takeText : Moves n takeText takeText := by
  refine .look fun v v' hv => .advance 1 ?_
  exact Moves.pure (congrArg (Option.getD · "") hv.sees.headText)

theorem takeText_bind {f g : String → Rule β} (h : ∀ text, Moves n (f text) (g text)) :
    Moves n (takeText >>= f) (takeText >>= g) :=
  bind .takeText h

protected theorem identifier : Moves n identifier identifier := by
  refine .look fun v v' hv => ?_
  exact ite (hv.sees.next _ rfl) .takeText raise

theorem identifier_bind {f g : String → Rule β} (h : ∀ text, Moves n (f text) (g text)) :
    Moves n (identifier >>= f) (identifier >>= g) :=
  bind .identifier h

protected theorem qualifiedName : Moves n qualifiedName qualifiedName := by
  apply identifier_bind
  intro first
  apply ahead_bind
  intro ts us hts
  rw [hts.dottedTail]
  exact .advance _ (.done _)

theorem qualifiedName_bind {f g : String → Rule β} (h : ∀ name, Moves n (f name) (g name)) :
    Moves n (qualifiedName >>= f) (qualifiedName >>= g) :=
  bind .qualifiedName h

theorem dims_bind {f g : Nat → Rule β} (h : ∀ k, Moves n (f k) (g k)) :
    Moves n (dims >>= f) (dims >>= g) := by
  refine bind ?_ h
  apply ahead_bind
  intro ts us hts
  rw [hts.dims]
  exact .advance _ (.done _)

theorem startsLambda_bind {f g : Bool → Rule β} (h : ∀ found, Moves n (f found) (g found)) :
    Moves n (startsLambda >>= f) (startsLambda >>= g) := by
  refine bind (.look fun v v' hv => ?_) h
  have hlambda : (!v'.inLabels && Lookahead.isLambda v'.ahead) =
      (!v.inLabels && Lookahead.isLambda v.ahead) := by
    rw [hv.sees.isLambda, hv.inLabels]
  exact Moves.pure hlambda

end Blocks

section Calls

variable {nonterminal nonterminal' : Nonterminal α}

/-- A call of a nonterminal; both hypotheses hold by computation. -/
theorem call (hmoved : nonterminal' = nonterminal.move n)
    (hresult : nonterminal.movable = ‹Movable α›) :
    Moves n (Grammar.call nonterminal) (Grammar.call nonterminal') := by
  subst hmoved
  refine .called (fun value => ?_) fun _ => trivial
  rw [hresult]
  exact .done value

theorem callLabels (hmoved : nonterminal' = nonterminal.move n)
    (hresult : nonterminal.movable = ‹Movable α›) :
    Moves n (Grammar.callLabels nonterminal) (Grammar.callLabels nonterminal') := by
  subst hmoved
  refine .called (fun value => ?_) fun _ => trivial
  rw [hresult]
  exact .done value

theorem attempt_bind {f g : Except SyntaxError α → Rule β}
    (hmoved : nonterminal' = nonterminal.move n)
    (hresult : nonterminal.movable = ‹Movable α›)
    (hok : ∀ value, Moves n (f (.ok value)) (g (.ok (move n value))))
    (herror : ∀ error, (f (.error error)).IsFault) :
    Moves n (attempt nonterminal >>= f) (attempt nonterminal' >>= g) := by
  subst hmoved
  refine .called (fun value => ?_) herror
  rw [hresult]
  exact hok value

variable {c : Category}

theorem listIf {present present' : Bool} {rule rule' : Rule (Tree (.list c))}
    (h : Moves n rule rule') (hp : present' = present) :
    Moves n (listIf present rule) (listIf present' rule') :=
  ite hp h (.done Tree.nil)

theorem optionIf {present present' : Bool} {rule rule' : Rule (Tree c)}
    (h : Moves n rule rule') (hp : present' = present) :
    Moves n (optionIf present rule) (optionIf present' rule') :=
  ite hp (bind h fun value => .done (Tree.some value)) (.done Tree.none)

/-- A list with separators between its elements. -/
theorem separated {rule rule' : Rule (Tree c)}
    {nonterminal nonterminal' : Nonterminal (Tree (.list c))} (separator : Kind)
    (h : Moves n rule rule') (hmoved : nonterminal' = nonterminal.move n)
    (hresult : nonterminal.movable = (inferInstance : Movable (Tree (.list c)))) :
    Moves n
      (rule >>= fun first => accept separator >>= fun found =>
        Grammar.listIf found (Grammar.call nonterminal) >>= fun rest =>
          Pure.pure (Tree.cons first rest))
      (rule' >>= fun first => accept separator >>= fun found =>
        Grammar.listIf found (Grammar.call nonterminal') >>= fun rest =>
          Pure.pure (Tree.cons first rest)) := by
  apply bind h
  intro first
  apply accept_bind
  intro found
  apply bind (listIf (call hmoved hresult) rfl)
  intro rest
  exact .done (Tree.cons first rest)

end Calls

end Moves

end JavaSyntax
