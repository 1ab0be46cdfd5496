import JavaSyntax.Proofs.Contract
import JavaSyntax.Proofs.Structure

/-!
What a parse meets at the edges of what it reads. A type and modifiers begin with a symbol that is a
whole token, never with what is left of angle brackets. Behind a statement that could still take an
`else` there is none: an `if` takes it as soon as it is there.
-/

namespace JavaSyntax

/-! Statements at the end of others. -/

namespace Tree

/-- The statement is the last one inside the other, or the other itself: one goes down into the
last branch of an `if` and into the body of a loop or a labeled statement. -/
inductive EndsIn (last : Tree .stmt) : Tree .stmt → Prop where
  | here : EndsIn last last
  | thenBranch {condition : Tree .expr} {yes : Tree .stmt} {e : Extent} (inner : EndsIn last yes) :
      EndsIn last (.ifStmt condition yes .none e)
  | elseBranch {condition : Tree .expr} {yes no : Tree .stmt} {e : Extent}
      (inner : EndsIn last no) : EndsIn last (.ifStmt condition yes (.some no) e)
  | whileBody {condition : Tree .expr} {body : Tree .stmt} {e : Extent} (inner : EndsIn last body) :
      EndsIn last (.whileStmt condition body e)
  | forBody {init : Tree .forInit} {condition : Tree (.option .expr)}
      {update : Tree (.list .standalone)} {body : Tree .stmt} {e : Extent}
      (inner : EndsIn last body) : EndsIn last (.forStmt init condition update body e)
  | forEachBody {param : Tree .param} {iterable : Tree .expr} {body : Tree .stmt} {e : Extent}
      (inner : EndsIn last body) : EndsIn last (.forEachStmt param iterable body e)
  | labeled {label : String} {body : Tree .stmt} {e : Extent} (inner : EndsIn last body) :
      EndsIn last (.labeledStmt label body e)

/-- The statement ends in an `if` without an `else`, to which one behind it would belong. -/
def Dangles (tree : Tree .stmt) : Prop :=
  ∃ condition yes e, (Tree.ifStmt condition yes .none e).EndsIn tree

/-- Whether another statement may stand at the end of this one. -/
def hasTail : Tree .stmt → Bool
  | .ifStmt _ _ _ _ | .whileStmt _ _ _ | .forStmt _ _ _ _ _ | .forEachStmt _ _ _ _
  | .labeledStmt _ _ _ => true
  | _ => false

section

variable {condition : Tree .expr} {yes no body : Tree .stmt} {e : Extent}

@[simp] theorem dangles_ifStmt_some :
    (Tree.ifStmt condition yes (.some no) e).Dangles ↔ no.Dangles := by
  refine ⟨fun ⟨_, _, _, h⟩ => ?_, fun ⟨_, _, _, h⟩ => ⟨_, _, _, .elseBranch h⟩⟩
  cases h with
  | elseBranch inner => exact ⟨_, _, _, inner⟩

@[simp] theorem dangles_whileStmt : (Tree.whileStmt condition body e).Dangles ↔ body.Dangles := by
  refine ⟨fun ⟨_, _, _, h⟩ => ?_, fun ⟨_, _, _, h⟩ => ⟨_, _, _, .whileBody h⟩⟩
  cases h with
  | whileBody inner => exact ⟨_, _, _, inner⟩

@[simp] theorem dangles_forStmt {init : Tree .forInit} {condition : Tree (.option .expr)}
    {update : Tree (.list .standalone)} :
    (Tree.forStmt init condition update body e).Dangles ↔ body.Dangles := by
  refine ⟨fun ⟨_, _, _, h⟩ => ?_, fun ⟨_, _, _, h⟩ => ⟨_, _, _, .forBody h⟩⟩
  cases h with
  | forBody inner => exact ⟨_, _, _, inner⟩

@[simp] theorem dangles_forEachStmt {param : Tree .param} {iterable : Tree .expr} :
    (Tree.forEachStmt param iterable body e).Dangles ↔ body.Dangles := by
  refine ⟨fun ⟨_, _, _, h⟩ => ?_, fun ⟨_, _, _, h⟩ => ⟨_, _, _, .forEachBody h⟩⟩
  cases h with
  | forEachBody inner => exact ⟨_, _, _, inner⟩

@[simp] theorem dangles_labeledStmt {label : String} :
    (Tree.labeledStmt label body e).Dangles ↔ body.Dangles := by
  refine ⟨fun ⟨_, _, _, h⟩ => ?_, fun ⟨_, _, _, h⟩ => ⟨_, _, _, .labeled h⟩⟩
  cases h with
  | labeled inner => exact ⟨_, _, _, inner⟩

end

theorem not_dangles {tree : Tree .stmt} (h : tree.hasTail = false) : ¬tree.Dangles := by
  rintro ⟨condition, yes, e, hends⟩
  cases hends <;> cases h

end Tree

/-! Symbols that are whole tokens. -/

/-- Kinds that may be left of a token when angle brackets are taken off it. -/
def isRemainder : Kind → Bool
  | .greater | .shr | .assign | .greaterEqual | .shrAssign => true
  | _ => false

theorem isRemainder_of_afterAngle {k l : Kind} (h : State.afterAngle k = some l) :
    isRemainder l = true := by
  cases k <;> cases h <;> rfl

namespace Lookahead

/-- Whether a symbol comes next that no angle brackets were taken off. -/
def startsWhole (ts : List Symbol) : Bool :=
  ts.head?.any fun x => !isRemainder x.kind

variable {ts : List Symbol} {k : Kind}

theorem startsWhole_of_next (h : next [k] ts = true) (hk : isRemainder k = false) :
    startsWhole ts = true := by
  cases ts with
  | nil => cases h
  | cons x rest =>
    obtain rfl : x.kind = k := by simpa [next] using h
    simp [startsWhole, hk]

theorem startsWhole_of_nextOneOf {ks : List Kind} (h : nextOneOf ks ts = true)
    (hks : ks.any isRemainder = false) : startsWhole ts = true := by
  cases ts with
  | nil => cases h
  | cons x rest =>
    have hmem : x.kind ∈ ks := by simpa [nextOneOf] using h
    have hx := List.any_eq_false.mp hks _ hmem
    simpa [startsWhole] using hx

theorem startsWhole_of_nextWord {word : String} (h : nextWord word ts = true) :
    startsWhole ts = true := by
  cases ts with
  | nil => cases h
  | cons x rest =>
    have hx : x.kind = .identifier := (by simpa [nextWord, Symbol.isWord] using h : _ ∧ _).1
    simp [startsWhole, hx, isRemainder]

theorem startsWhole_of_isTypeDecl (h : isTypeDecl ts = true) : startsWhole ts = true := by
  simp only [isTypeDecl, Bool.or_eq_true] at h
  rcases h with (h | h) | h
  · exact startsWhole_of_nextOneOf h rfl
  · cases ts with
    | nil => cases h
    | cons x rest =>
      have hx : x.kind = .atSign := by simp_all [next]
      simp [startsWhole, hx, isRemainder]
  · exact startsWhole_of_nextWord (Bool.and_eq_true_iff.mp h).1

end Lookahead

open Lookahead (next startsWhole)

/-- What is at the edges of what a nonterminal read from one state to another. -/
def Nonterminal.Edge (s : State) : {β : Type} → Nonterminal β → β → State → Prop
  | _, .annotations _ => fun _ t => t = s ∨ startsWhole s.ahead = true
  | _, .modifierRun => fun _ t => t = s ∨ startsWhole s.ahead = true
  | _, .type => fun _ _ => startsWhole s.ahead = true
  | _, .stmt => fun tree t => tree.Dangles → next [.elseKw] t.ahead = false
  | _, _ => fun _ _ => True

/-- Every nonterminal that succeeds keeps to its edges. -/
def edges : Contract where
  pre _ _ _ := True
  post nonterminal _ s r t := ∀ value, r = .ok value → nonterminal.Edge s value t

namespace Grammar

open Rule

variable {setting : Setting} {inLabels : Bool} {s : State} {α β : Type}

/-- If the rule succeeds, it ends as wanted. -/
def Yields (setting : Setting) (inLabels : Bool) (rule : Rule β) (s : State)
    (P : β → State → Prop) : Prop :=
  rule.Ensures setting edges inLabels s fun r t => ∀ value, r = .ok value → P value t

namespace Yields

variable {rule : Rule α} {f : α → Rule β} {P : β → State → Prop} {R : α → State → Prop}

theorem of_forall {rule : Rule β} (h : ∀ value t, P value t) : Yields setting inLabels rule s P :=
  ensures_of_forall (fun _ _ _ => trivial) fun _ _ _ _ => h ..

theorem done {value : β} (h : P value s) : Yields setting inLabels (pure value) s P := by
  rintro _ ⟨⟩
  exact h

theorem bind (h : Yields setting inLabels rule s R)
    (hf : ∀ value t, R value t → Yields setting inLabels (f value) t P) :
    Yields setting inLabels (rule >>= f) s P := by
  unfold Yields
  rw [ensures_bind]
  refine h.mono fun r t hr => ?_
  cases r with
  | error error => nofun
  | ok value => exact hf value t (hr value rfl)

/-- Wherever the first rule ends, the second goes on. -/
theorem skip (hf : ∀ value t, Yields setting inLabels (f value) t P) :
    Yields setting inLabels (rule >>= f) s P :=
  (of_forall (P := fun _ _ => True) fun _ _ => trivial).bind fun value t _ => hf value t

theorem call (nonterminal : Nonterminal β) :
    Yields setting inLabels (Grammar.call nonterminal) s (nonterminal.Edge s) := by
  unfold Yields
  rw [ensures_call]
  exact ⟨trivial, fun r t ht => ht⟩

theorem ahead {f : List Symbol → Rule β} (h : Yields setting inLabels (f s.ahead) s P) :
    Yields setting inLabels (Grammar.ahead >>= f) s P :=
  h

theorem since {start : Mark} {f : Extent → Rule β}
    (h : ∀ e, Yields setting inLabels (f e) s P) :
    Yields setting inLabels (Grammar.since start >>= f) s P :=
  h _

theorem accept {k : Kind} {f : Bool → Rule β}
    (hyes : Yields setting inLabels (f true) (s.advance 1) P)
    (hno : next [k] s.ahead = false → Yields setting inLabels (f false) s P) :
    Yields setting inLabels (Grammar.accept k >>= f) s P := by
  unfold Yields
  rw [ensures_accept_bind]
  split
  · exact hyes
  · rename_i hnext
    exact hno (by simpa using hnext)

end Yields

/-! Annotations, modifiers and types. -/

theorem annotations_edge (onType : Bool) :
    Yields setting inLabels (annotations onType) s ((Nonterminal.annotations onType).Edge s) := by
  unfold annotations
  refine .ahead ?_
  split
  · rename_i hnext
    have hat := (Bool.and_eq_true_iff.mp hnext).1
    exact .of_forall fun _ _ => .inr (Lookahead.startsWhole_of_next hat rfl)
  · exact .done (.inl rfl)

theorem startsWhole_of_nextModifier {ts : List Symbol} {m : Modifier} {n : Nat}
    (h : nextModifier ts = some (m, n)) : startsWhole ts = true := by
  cases ts with
  | nil => cases h
  | cons x rest =>
    unfold nextModifier at h
    split at h
    · rename_i found hfound
      have hx : modifier? x.kind = some found := hfound
      cases hk : x.kind <;> simp [startsWhole, isRemainder, hk] <;> simp [hk, modifier?] at hx
    · split at h
      · rename_i hsealed
        have hword : Lookahead.nextWord "sealed" (x :: rest) = true := by
          unfold Lookahead.isSealed at hsealed
          split at hsealed
          · rename_i heq
            cases heq
            exact (Bool.and_eq_true_iff.mp hsealed).1
          · cases hsealed
        exact Lookahead.startsWhole_of_nextWord hword
      · split at h
        · rename_i hnon
          have hword : Lookahead.nextWord "non" (x :: rest) = true := by
            unfold Lookahead.isNonSealed at hnon
            split at hnon
            · rename_i heq
              cases heq
              simp only [Bool.and_eq_true] at hnon
              exact hnon.1.1.1.1
            · cases hnon
          exact Lookahead.startsWhole_of_nextWord hword
        · cases h

theorem modifierRun_edge :
    Yields setting inLabels modifierRun s (Nonterminal.modifierRun.Edge s) := by
  unfold modifierRun
  refine .ahead ?_
  split
  · rename_i hnext
    have hat := (Bool.and_eq_true_iff.mp hnext).1
    exact .of_forall fun _ _ => .inr (Lookahead.startsWhole_of_next hat rfl)
  · split
    · rename_i hnext
      exact .of_forall fun _ _ => .inr (startsWhole_of_nextModifier hnext)
    · exact .done (.inl rfl)

theorem startsWhole_of_isPrimitive {ts : List Symbol}
    (h : (ts.head?.any fun x => x.kind.isPrimitive) = true) : startsWhole ts = true := by
  cases ts with
  | nil => cases h
  | cons x rest =>
    have hx : x.kind.isPrimitive = true := h
    cases hk : x.kind <;> simp [startsWhole, isRemainder, hk] <;> simp [hk, Kind.isPrimitive] at hx

theorem type_edge : Yields setting inLabels type s (Nonterminal.type.Edge s) := by
  unfold type
  refine (show Yields setting inLabels (call (.annotations true) >>= _) s _ from ?_)
  refine Yields.bind (.call (.annotations true)) fun annotations t ht => ?_
  rcases ht with rfl | hwhole
  · unfold Yields
    rw [ensures_view_bind]
    split
    · rename_i hnext
      exact ensures_of_forall (fun _ _ _ => trivial) fun _ _ _ _ =>
        Lookahead.startsWhole_of_next hnext rfl
    · split
      · rename_i hprimitive
        exact ensures_of_forall (fun _ _ _ => trivial) fun _ _ _ _ =>
          startsWhole_of_isPrimitive hprimitive
      · nofun
  · exact .of_forall fun _ _ => hwhole

/-! Statements. -/

/-- Statements at whose end no other stands. -/
def Closes (setting : Setting) (inLabels : Bool) (rule : Rule (Tree .stmt)) (s : State) : Prop :=
  Yields setting inLabels rule s fun tree _ => tree.hasTail = false

theorem Closes.edge {rule : Rule (Tree .stmt)} (h : Closes setting inLabels rule s) :
    Yields setting inLabels rule s (Nonterminal.stmt.Edge s) :=
  Rule.Ensures.mono h fun _ _ hr tree hok hdangles =>
    absurd hdangles (Tree.not_dangles (hr tree hok))

theorem localVariables_closes (mods : Modifiers) :
    Closes setting inLabels (localVariables mods) s := by
  unfold localVariables
  exact .skip fun _ _ => .skip fun _ _ => .skip fun _ _ => .skip fun _ _ => .done rfl

theorem localDeclaration_closes : Closes setting inLabels localDeclaration s := by
  unfold localDeclaration
  refine .skip fun mods t => .ahead ?_
  split
  · exact .skip fun _ _ => .done rfl
  · exact localVariables_closes mods

theorem exprStatement_closes (start : Mark) :
    Closes setting inLabels (exprStatement start) s := by
  unfold exprStatement
  exact .skip fun _ _ => .skip fun _ _ => .skip fun _ _ => .skip fun _ _ => .done rfl

theorem plainStatement_closes (start : Mark) :
    Closes setting inLabels (plainStatement start) s := by
  unfold plainStatement
  refine .ahead ?_
  split
  · exact .skip fun mods _ => localVariables_closes mods
  · exact exprStatement_closes start

theorem doStatement_closes (start : Mark) : Closes setting inLabels (doStatement start) s := by
  unfold doStatement
  exact .skip fun _ _ => .skip fun _ _ => .skip fun _ _ => .skip fun _ _ => .skip fun _ _ =>
    .skip fun _ _ => .done rfl

theorem tryStatement_closes (start : Mark) : Closes setting inLabels (tryStatement start) s := by
  unfold tryStatement
  refine .skip fun _ _ => .skip fun _ _ => .skip fun _ _ => .skip fun _ _ => .skip fun _ _ =>
    .skip fun _ _ => .skip fun _ _ => ?_
  split
  · exact .skip fun _ _ => .skip fun _ _ => .done rfl
  · exact .skip fun _ _ => .done rfl

theorem synchronizedStatement_closes (start : Mark) :
    Closes setting inLabels (synchronizedStatement start) s := by
  unfold synchronizedStatement
  exact .skip fun _ _ => .skip fun _ _ => .skip fun _ _ => .skip fun _ _ => .done rfl

theorem returnStatement_closes (start : Mark) :
    Closes setting inLabels (returnStatement start) s := by
  unfold returnStatement
  exact .skip fun _ _ => .skip fun _ _ => .skip fun _ _ => .skip fun _ _ => .skip fun _ _ =>
    .done rfl

theorem throwStatement_closes (start : Mark) :
    Closes setting inLabels (throwStatement start) s := by
  unfold throwStatement
  exact .skip fun _ _ => .skip fun _ _ => .skip fun _ _ => .skip fun _ _ => .done rfl

theorem assertStatement_closes (start : Mark) :
    Closes setting inLabels (assertStatement start) s := by
  unfold assertStatement
  exact .skip fun _ _ => .skip fun _ _ => .skip fun _ _ => .skip fun _ _ => .skip fun _ _ =>
    .skip fun _ _ => .done rfl

theorem yieldStatement_closes (start : Mark) :
    Closes setting inLabels (yieldStatement start) s := by
  unfold yieldStatement
  exact .skip fun _ _ => .skip fun _ _ => .skip fun _ _ => .skip fun _ _ => .done rfl

/-- A statement at whose end another stands dangles only if that one does. -/
theorem ending_edge {wrap : Tree .stmt → Extent → Tree .stmt} (start : Mark)
    (hwrap : ∀ body e, (wrap body e).Dangles → body.Dangles) :
    Yields setting inLabels
      (call .stmt >>= fun body => since start >>= fun e => pure (wrap body e)) s
      (Nonterminal.stmt.Edge s) :=
  .bind (.call .stmt) fun body _ hbody => .since fun e => .done fun h => hbody (hwrap body e h)

/-- An `if` without an `else` ends where none comes next. -/
theorem ifStatement_edge (start : Mark) :
    Yields setting inLabels (ifStatement start) s (Nonterminal.stmt.Edge s) := by
  unfold ifStatement
  refine .skip fun _ _ => .skip fun condition _ => .skip fun yes t => .accept ?_ fun hnext => ?_
  · have hno : Yields setting inLabels (optionIf true (call .stmt)) (t.advance 1) fun no u =>
        ∃ tree, no = .some tree ∧ Nonterminal.stmt.Edge (t.advance 1) tree u :=
      .bind (.call .stmt) fun tree u htree => .done ⟨tree, rfl, htree⟩
    refine hno.bind fun no u hu => .since fun e => .done fun h => ?_
    obtain ⟨tree, rfl, htree⟩ := hu
    exact htree (Tree.dangles_ifStmt_some.mp h)
  · have hnone : Yields setting inLabels (optionIf false (call .stmt)) t fun no u =>
        no = .none ∧ u = t := .done ⟨rfl, rfl⟩
    refine hnone.bind fun no u hu => .since fun e => .done fun _ => ?_
    rw [hu.2]
    exact hnext

theorem whileStatement_edge (start : Mark) :
    Yields setting inLabels (whileStatement start) s (Nonterminal.stmt.Edge s) := by
  unfold whileStatement
  exact .skip fun _ _ => .skip fun condition t => ending_edge start fun _ _ =>
    Tree.dangles_whileStmt.mp

theorem forStatement_edge (start : Mark) :
    Yields setting inLabels (forStatement start) s (Nonterminal.stmt.Edge s) := by
  unfold forStatement
  refine .skip fun _ _ => .skip fun _ t => .ahead ?_
  split
  · exact .skip fun param _ => .skip fun _ _ => .skip fun iterable _ => .skip fun _ t =>
      ending_edge start fun _ _ => Tree.dangles_forEachStmt.mp
  · exact .skip fun init _ => .skip fun _ _ => .skip fun _ _ => .skip fun condition _ =>
      .skip fun _ _ => .skip fun _ _ => .skip fun update _ => .skip fun _ t =>
        ending_edge start fun _ _ => Tree.dangles_forStmt.mp

theorem labeledStatement_edge (start : Mark) :
    Yields setting inLabels (labeledStatement start) s (Nonterminal.stmt.Edge s) := by
  unfold labeledStatement
  exact .skip fun label _ => .skip fun _ t => ending_edge start fun _ _ =>
    Tree.dangles_labeledStmt.mp

theorem namedStatement_edge (start : Mark) (ts : List Symbol) :
    Yields setting inLabels (namedStatement start ts) s (Nonterminal.stmt.Edge s) := by
  unfold namedStatement
  split
  · exact (yieldStatement_closes start).edge
  · split
    · exact labeledStatement_edge start
    · split
      · exact localDeclaration_closes.edge
      · exact (plainStatement_closes start).edge

theorem stmt_edge : Yields setting inLabels stmt s (Nonterminal.stmt.Edge s) := by
  unfold stmt Yields
  rw [ensures_view_bind]
  dsimp only
  split
  · nofun
  · exact Closes.edge (.skip fun _ _ => .done rfl)
  · exact Closes.edge (.skip fun _ _ => .skip fun _ _ => .done rfl)
  · exact ifStatement_edge _
  · exact whileStatement_edge _
  · exact (doStatement_closes _).edge
  · exact forStatement_edge _
  · exact (tryStatement_closes _).edge
  · exact Closes.edge (.skip fun _ _ => .skip fun _ _ => .skip fun _ _ => .done rfl)
  · split
    · exact (synchronizedStatement_closes _).edge
    · exact (plainStatement_closes _).edge
  · exact (returnStatement_closes _).edge
  · exact Closes.edge (.skip fun _ _ => .skip fun _ _ => .done rfl)
  · exact Closes.edge (.skip fun _ _ => .skip fun _ _ => .done rfl)
  · exact (throwStatement_closes _).edge
  · exact (assertStatement_closes _).edge
  · exact localDeclaration_closes.edge
  · exact localDeclaration_closes.edge
  · exact localDeclaration_closes.edge
  · exact localDeclaration_closes.edge
  · exact localDeclaration_closes.edge
  · exact localDeclaration_closes.edge
  · exact localDeclaration_closes.edge
  · exact localDeclaration_closes.edge
  · exact namedStatement_edge _ _
  · exact (plainStatement_closes _).edge

theorem rule_edge (nonterminal : Nonterminal β) :
    Yields setting inLabels (rule nonterminal) s (nonterminal.Edge s) := by
  cases nonterminal
  case annotations onType => exact annotations_edge onType
  case modifierRun => exact modifierRun_edge
  case type => exact type_edge
  case stmt => exact stmt_edge
  all_goals exact .of_forall fun _ _ => trivial

end Grammar

/-- A run that succeeds keeps to the edges of its nonterminal. -/
theorem run_edge {setting : Setting} {fuel : Nat} {β : Type} {nonterminal : Nonterminal β}
    {inLabels : Bool} {s t : State} {value : β}
    (h : run setting fuel nonterminal inLabels s = some (.ok value, t)) :
    nonterminal.Edge s value t :=
  run_respects (C := edges) (fun nonterminal _ _ _ => Grammar.rule_edge nonterminal) fuel
    nonterminal inLabels s _ t trivial h value rfl

end JavaSyntax
