import JavaSyntax.Proofs.Reading

/-!
Every spelling of an expression is read as it. A tree is read at the level it is spelled at and, as
long as what follows binds less strongly, at every lower one; so the proof goes along the spelling,
one case for each way to put words together.
-/

namespace JavaSyntax

/-- From any state in front of the words, and of a next word that binds no more strongly than the
bound, the rule reads the tree and goes on. -/
def ReadsUpTo (setting : Setting) (inLabels : Bool) (bound : Nat) (rule : Rule (Tree .expr))
    (goOn : Mark → Tree .expr → Rule (Tree .expr)) (tree : Tree .expr) (ws : List Word) : Prop :=
  ∀ s rest, s.words = ws ++ rest → Quiet s.words → nextBinds rest ≤ bound →
    Reads setting inLabels rule (goOn (s.view inLabels).mark) tree s rest

/-- Whether the words start with the sign of a number; operators that lead are another matter. -/
def isSigned (ws : List Word) : Bool :=
  ws.head?.any (·.1 == .minus)

/-- The rule that a primary is read by: a signed number does not take trailing operators. -/
def operandRule (signed : Bool) : Rule (Tree .expr) :=
  if signed then Grammar.unary else Grammar.trailing

def afterSelectors (signed : Bool) (start : Mark) (tree : Tree .expr) : Rule (Tree .expr) :=
  if signed then pure tree else Grammar.call (.steps start tree)

def afterPrimary (signed : Bool) (start : Mark) (tree : Tree .expr) : Rule (Tree .expr) :=
  Grammar.selectors start tree >>= afterSelectors signed start

open Grammar in
/-- A tree that is read back from its words wherever one of its level may stand. -/
structure Readable (setting : Setting) (inLabels : Bool) (n : Nat) (tree : Tree .expr)
    (ws : List Word) : Prop where
  expr : 1 ≤ n → ReadsUpTo setting inLabels 0 expr (fun _ => pure) tree ws
  conditional : 2 ≤ n → ReadsUpTo setting inLabels 1 conditional (fun _ => pure) tree ws
  binary : ∀ level least, level ≤ n → level ≤ 12 → 1 ≤ least → least + 2 ≤ level →
    ReadsUpTo setting inLabels level (binary least) (binaryRest least) tree ws
  unary : 13 ≤ n → ReadsUpTo setting inLabels 13 unary (fun _ => pure) tree ws
  trailing : 14 ≤ n → ReadsUpTo setting inLabels 14 (operandRule (isSigned ws))
    (afterSelectors (isSigned ws)) tree ws
  primary : 15 ≤ n → ReadsUpTo setting inLabels 15 (operandRule (isSigned ws))
    (afterPrimary (isSigned ws)) tree ws

namespace ReadsUpTo

open Grammar Rule

variable {setting : Setting} {inLabels : Bool} {bound : Nat} {rule : Rule (Tree .expr)}
  {goOn : Mark → Tree .expr → Rule (Tree .expr)} {tree : Tree .expr} {ws : List Word}

theorem mono {less : Nat} (h : ReadsUpTo setting inLabels bound rule goOn tree ws)
    (hle : less ≤ bound) : ReadsUpTo setting inLabels less rule goOn tree ws :=
  fun s rest hwords hquiet hbinds => h s rest hwords hquiet (Nat.le_trans hbinds hle)

/-- No selector follows. -/
theorem trailing_of_primary {signed : Bool}
    (h : ReadsUpTo setting inLabels 15 (operandRule signed) (afterPrimary signed) tree ws) :
    ReadsUpTo setting inLabels 14 (operandRule signed) (afterSelectors signed) tree ws := by
  intro s rest hwords hquiet hbinds
  obtain ⟨read, t, hread, hpast, hcomes⟩ := h s rest hwords hquiet (by omega)
  have hstop : nextBinds t.words ≤ 14 := by rwa [hpast.words]
  exact ⟨read, t, hread, hpast, hcomes.trans ((selectors_stop hstop).bind _)⟩

/-- No operator follows that belongs to the operand. -/
theorem unary_of_trailing
    (hopens : ∃ w us, ws = w :: us ∧ (w.1 = .minus ∨ leadingOp? w.1 = none))
    (h : ReadsUpTo setting inLabels 14 (operandRule (isSigned ws)) (afterSelectors (isSigned ws))
      tree ws) : ReadsUpTo setting inLabels 13 unary (fun _ => pure) tree ws := by
  intro s rest hwords hquiet hbinds
  obtain ⟨read, t, hread, hpast, hcomes⟩ := h s rest hwords hquiet (by omega)
  obtain ⟨w, us, rfl, hminus | hlead⟩ := hopens
  · have hsigned : isSigned (w :: us) = true := by simp [isSigned, hminus]
    rw [hsigned] at hcomes
    exact ⟨read, t, hread, hpast, hcomes⟩
  · have hsigned : isSigned (w :: us) = false := by
      simp only [isSigned, List.head?_cons, Option.any_some, beq_eq_false_iff_ne]
      rintro hminus
      rw [hminus] at hlead
      cases hlead
    have hstop : nextBinds t.words ≤ 13 := by rwa [hpast.words]
    rw [hsigned] at hcomes
    refine ⟨read, t, hread, hpast, (unary_trailing hwords hlead hquiet).trans (hcomes.trans ?_)⟩
    exact (ComesTo.call _).trans (steps_stop hstop)

theorem binary_of_unary {least : Nat}
    (h : ReadsUpTo setting inLabels 13 unary (fun _ => pure) tree ws) :
    ReadsUpTo setting inLabels 13 (binary least) (binaryRest least) tree ws := by
  intro s rest hwords hquiet hbinds
  obtain ⟨read, t, hread, hpast, hcomes⟩ := h s rest hwords hquiet hbinds
  refine ⟨read, t, hread, hpast, fun Q hQ => ?_⟩
  unfold Grammar.binary
  rw [ensures_mark_bind]
  exact ensures_rule_bind.mpr (hcomes.bind _ Q (ensures_rule.mpr hQ))

/-- No operator of the level follows. -/
theorem pure_of_binary {least : Nat}
    (h : ReadsUpTo setting inLabels bound (binary least) (binaryRest least) tree ws)
    (hle : least + 1 ≤ bound) :
    ReadsUpTo setting inLabels (least + 1) (binary least) (fun _ => pure) tree ws := by
  intro s rest hwords hquiet hbinds
  obtain ⟨read, t, hread, hpast, hcomes⟩ := h s rest hwords hquiet (by omega)
  have hstop : nextBinds t.words < least + 2 := by
    rw [hpast.words]
    omega
  exact ⟨read, t, hread, hpast, hcomes.trans (binaryRest_stop hstop)⟩

theorem conditional_of_binary
    (h : ReadsUpTo setting inLabels bound (binary 1) (binaryRest 1) tree ws) (hle : 2 ≤ bound) :
    ReadsUpTo setting inLabels 1 conditional (fun _ => pure) tree ws := by
  intro s rest hwords hquiet hbinds
  obtain ⟨read, t, hread, hpast, hcomes⟩ :=
    pure_of_binary h (by omega) s rest hwords hquiet (by omega)
  refine ⟨read, t, hread, hpast, fun Q hQ => ?_⟩
  unfold Grammar.conditional
  rw [ensures_mark_bind]
  refine ensures_rule_bind.mpr (hcomes.bind _ Q ?_)
  refine ensures_accept_no ?_ hQ
  rw [hpast.words]
  exact heads_of_nextBinds hbinds (by decide)

theorem not_startsLambda {f : Bool → Rule (Tree .expr)} {s : State}
    {Q : Except SyntaxError (Tree .expr) → State → Prop} (hquiet : Quiet s.words)
    (hf : (f false).Ensures setting (evaluates setting) inLabels s Q) :
    (startsLambda >>= f).Ensures setting (evaluates setting) inLabels s Q := by
  unfold startsLambda
  rw [ensures_bind, ensures_view_bind, State.view_ahead, hquiet.isLambda_eq_false, Bool.and_false]
  exact hf

theorem expr_of_conditional
    (h : ReadsUpTo setting inLabels 1 conditional (fun _ => pure) tree ws) :
    ReadsUpTo setting inLabels 0 expr (fun _ => pure) tree ws := by
  intro s rest hwords hquiet hbinds
  obtain ⟨read, t, hread, hpast, hcomes⟩ := h s rest hwords hquiet (by omega)
  refine ⟨read, t, hread, hpast, fun Q hQ => ?_⟩
  have hnone : lookup assignOp? t.ahead = none := by
    refine lookup_eq_none (n := 0) (fun k hk => ?_) (by rw [hpast.words]; exact hbinds)
    obtain ⟨op, hop⟩ := Option.isSome_iff_exists.mp hk
    rw [(assignOp?_facts hop).2]
    decide
  unfold Grammar.expr
  refine not_startsLambda hquiet ?_
  rw [if_neg Bool.false_ne_true, ensures_mark_bind]
  refine ensures_rule_bind.mpr (hcomes.bind _ Q ?_)
  rw [ensures_pure_bind, ensures_ahead_bind, hnone]
  exact hQ

end ReadsUpTo

namespace Readable

open Grammar ReadsUpTo

variable {setting : Setting} {inLabels : Bool} {tree : Tree .expr} {ws : List Word}

theorem lower {n : Nat} (h : Readable setting inLabels (n + 1) tree ws) :
    Readable setting inLabels n tree ws where
  expr hn := h.expr (by omega)
  conditional hn := h.conditional (by omega)
  binary level least hn := h.binary level least (by omega)
  unary hn := h.unary (by omega)
  trailing hn := h.trailing (by omega)
  primary hn := h.primary (by omega)

theorem of_expr (h : ReadsUpTo setting inLabels 0 Grammar.expr (fun _ => pure) tree ws) :
    Readable setting inLabels 1 tree ws where
  expr _ := h
  conditional hn := by omega
  binary level least hn _ hleast hle := by omega
  unary hn := by omega
  trailing hn := by omega
  primary hn := by omega

theorem of_conditional
    (h : ReadsUpTo setting inLabels 1 Grammar.conditional (fun _ => pure) tree ws) :
    Readable setting inLabels 2 tree ws where
  expr _ := expr_of_conditional h
  conditional _ := h
  binary level least hn _ hleast hle := by omega
  unary hn := by omega
  trailing hn := by omega
  primary hn := by omega

theorem of_binary {n : Nat} (hlow : 3 ≤ n) (hhigh : n ≤ 12)
    (h : ∀ least, 1 ≤ least → least + 2 ≤ n →
      ReadsUpTo setting inLabels n (Grammar.binary least) (binaryRest least) tree ws) :
    Readable setting inLabels n tree ws where
  expr _ := expr_of_conditional (conditional_of_binary (h 1 (by omega) (by omega)) (by omega))
  conditional _ := conditional_of_binary (h 1 (by omega) (by omega)) (by omega)
  binary level least hn _ hleast hle := (h least hleast (by omega)).mono hn
  unary hn := by omega
  trailing hn := by omega
  primary hn := by omega

theorem of_unary (h : ReadsUpTo setting inLabels 13 Grammar.unary (fun _ => pure) tree ws) :
    Readable setting inLabels 13 tree ws where
  expr _ := expr_of_conditional (conditional_of_binary (binary_of_unary h) (by omega))
  conditional _ := conditional_of_binary (binary_of_unary h) (by omega)
  binary level least hn _ _ _ := (binary_of_unary h).mono hn
  unary _ := h
  trailing hn := by omega
  primary hn := by omega

theorem of_trailing (hopens : ∃ w us, ws = w :: us ∧ (w.1 = .minus ∨ leadingOp? w.1 = none))
    (h : ReadsUpTo setting inLabels 14 (operandRule (isSigned ws)) (afterSelectors (isSigned ws))
      tree ws) : Readable setting inLabels 14 tree ws :=
  have hunary := of_unary (unary_of_trailing hopens h)
  { expr := fun _ => hunary.expr (by omega)
    conditional := fun _ => hunary.conditional (by omega)
    binary := fun level least _ hle => hunary.binary level least (by omega) hle
    unary := fun _ => hunary.unary (by omega)
    trailing := fun _ => h
    primary := fun hn => by omega }

theorem of_primary (hopens : ∃ w us, ws = w :: us ∧ (w.1 = .minus ∨ leadingOp? w.1 = none))
    (h : ReadsUpTo setting inLabels 15 (operandRule (isSigned ws)) (afterPrimary (isSigned ws))
      tree ws) : Readable setting inLabels 15 tree ws :=
  have htrailing := of_trailing hopens (trailing_of_primary h)
  { expr := fun _ => htrailing.expr (by omega)
    conditional := fun _ => htrailing.conditional (by omega)
    binary := fun level least _ hle => htrailing.binary level least (by omega) hle
    unary := fun _ => htrailing.unary (by omega)
    trailing := fun _ => htrailing.trailing (by omega)
    primary := fun _ => h }

end Readable

/-- How a tree is read, by what it is: an expression at its level, or the arguments of a call. -/
def Tree.IsRead (setting : Setting) (inLabels : Bool) :
    {c : Category} → Nat → Tree c → List Word → Prop
  | .expr, n, tree, ws => Readable setting inLabels n tree ws
  | .list .expr, _, tree, ws => ReadsArgs setting inLabels tree ws
  | _, _, _, _ => True

section Cases

open Grammar Rule

variable {setting : Setting} {inLabels : Bool} {arg : Tree .expr} {ws us : List Word}

theorem readsArgs_one (hopens : Heads (· != .rparen) ws) (hne : ws ≠ [])
    (harg : ReadsUpTo setting inLabels 0 expr (fun _ => pure) arg ws) :
    ReadsArgs setting inLabels (.cons arg .nil) ws := by
  intro s r rest hwords hr hquiet
  right
  have hrest : nextBinds (r :: rest) ≤ 0 :=
    nextBinds_le hr (by decide)
  obtain ⟨read, t, hread, hpast, hcomes⟩ := harg s (r :: rest) hwords hquiet hrest
  obtain ⟨w, us, rfl⟩ := List.exists_cons_of_ne_nil hne
  refine ⟨by rw [hwords]; exact hopens, .cons read .nil, t, by simp [hread], hpast,
    fun Q hQ => ?_⟩
  unfold exprList
  refine ensures_rule_bind.mpr (hcomes.bind _ Q ?_)
  refine ensures_accept_no ?_ hQ
  rw [hpast.words]
  exact heads_cons (by rw [hr]; rfl)

theorem readsArgs_more {next : Tree .expr} {args : Tree (.list .expr)} {comma : Word}
    (hopens : Heads (· != .rparen) ws) (hne : ws ≠ []) (hcomma : comma.1 = .comma)
    (harg : ReadsUpTo setting inLabels 0 expr (fun _ => pure) arg ws)
    (hargs : ReadsArgs setting inLabels (.cons next args) us) :
    ReadsArgs setting inLabels (.cons arg (.cons next args)) (ws ++ comma :: us) := by
  intro s r rest hwords hr hquiet
  right
  rw [List.append_assoc, List.cons_append] at hwords
  have hrest : nextBinds (comma :: (us ++ r :: rest)) ≤ 0 :=
    nextBinds_le hcomma (by decide)
  obtain ⟨read, t, hread, hpast, hcomes⟩ := harg s _ hwords hquiet hrest
  have hone := State.past_one hpast.words
  have hquiet' := (hquiet.past hwords hpast).past_one hpast.words
  rcases hargs (t.advance 1) r rest hone.words hr hquiet' with ⟨hnil, _⟩ | ⟨_, hreads⟩
  · cases hnil
  · obtain ⟨others, u, hothers, hpast', hcomes'⟩ := hreads
    obtain ⟨w, vs, rfl⟩ := List.exists_cons_of_ne_nil hne
    refine ⟨by rw [hwords]; exact hopens, .cons read others, u, ?_,
      hpast.trans (hone.trans hpast'), fun Q hQ => ?_⟩
    · show Tree.cons read.erase others.erase = Tree.cons arg.erase (Tree.cons next args).erase
      rw [hread, hothers]
    · unfold exprList
      refine ensures_rule_bind.mpr (hcomes.bind _ Q ?_)
      refine ensures_accept_yes hpast.words hcomma ?_
      exact ensures_rule_bind.mpr (hcomes'.bind _ Q hQ)

variable {tree target : Tree .expr}

theorem isSigned_append (hne : ws ≠ []) : isSigned (ws ++ us) = isSigned ws := by
  obtain ⟨w, vs, rfl⟩ := List.exists_cons_of_ne_nil hne
  rfl

theorem isSigned_eq_false (h : Heads (· != .minus) ws) : isSigned ws = false := by
  cases ws with
  | nil => rfl
  | cons w ws => simpa [isSigned] using h w rfl

/-- What a primary is read as, in front of its selectors. -/
theorem readsPrimary_base (hsigned : isSigned ws = false)
    (h : ReadsUpTo setting inLabels 15 primary (fun _ => pure) tree ws) :
    ReadsUpTo setting inLabels 15 (operandRule (isSigned ws)) (afterPrimary (isSigned ws)) tree
      ws := by
  intro s rest hwords hquiet hbinds
  obtain ⟨read, t, hread, hpast, hcomes⟩ := h s rest hwords hquiet hbinds
  rw [hsigned]
  exact ⟨read, t, hread, hpast, trailing_primary hcomes⟩

/-- One more selector. -/
theorem readsPrimary_selector (hne : ws ≠ [])
    (h : ReadsUpTo setting inLabels 15 (operandRule (isSigned ws)) (afterPrimary (isSigned ws))
      target ws) (hbinds : ∀ rest, nextBinds (us ++ rest) ≤ 15)
    (hstep : ∀ t rest start read, t.words = us ++ rest → Quiet t.words → nextBinds rest ≤ 15 →
      read.erase = target.erase → ∃ next u, next.erase = tree.erase ∧ t.Past u rest ∧
        ComesTo setting inLabels (selectors start read) t (selectors start next) u) :
    ReadsUpTo setting inLabels 15 (operandRule (isSigned (ws ++ us)))
      (afterPrimary (isSigned (ws ++ us))) tree (ws ++ us) := by
  intro s rest hwords hquiet hrest
  rw [List.append_assoc] at hwords
  rw [isSigned_append hne]
  obtain ⟨read, t, hread, hpast, hcomes⟩ := h s _ hwords hquiet (hbinds rest)
  have hquiet' : Quiet t.words := by
    rw [hpast.words]
    rw [hwords] at hquiet
    exact hquiet.of_append
  obtain ⟨next, u, hnext, hpast', hcomes'⟩ :=
    hstep t rest (s.view inLabels).mark read hpast.words hquiet' hrest hread
  exact ⟨next, u, hnext, hpast.trans hpast', hcomes.trans (hcomes'.bind _)⟩

theorem readsPrimary_literal {value read : Literal} {extent : Extent} {w : Word}
    (hread : w.value? false = some (.ok read)) (hsame : read.erase = value.erase) :
    ReadsUpTo setting inLabels 15 primary (fun _ => pure) (.literal value extent) [w] := by
  intro s rest hwords _ _
  obtain ⟨extent', hcomes⟩ := primary_literal hwords hread
  refine ⟨.literal read extent', _, ?_, State.past_one hwords, hcomes⟩
  simp [hsame]

theorem readsPrimary_negative {value read : Literal} {extent : Extent} {sign w : Word}
    (hsign : sign.1 = .minus) (hnumber : isNumber w.1 = true)
    (hread : w.value? true = some (.ok read)) (hsame : read.erase = value.erase) :
    ReadsUpTo setting inLabels 15 (operandRule (isSigned [sign, w]))
      (afterPrimary (isSigned [sign, w])) (.literal value extent) [sign, w] := by
  intro s rest hwords _ _
  have hsigned : isSigned [sign, w] = true := by simp [isSigned, hsign]
  obtain ⟨extent', hcomes⟩ := unary_negative hwords hsign hnumber hread
  have hone := State.past_one hwords
  refine ⟨.literal read extent', _, by simp [hsame],
    hone.trans (State.past_one hone.words), fun Q hQ => ?_⟩
  rw [hsigned] at hQ ⊢
  refine hcomes Q ?_
  have hpure := ensures_bind.mp hQ
  refine hpure.mono fun r t ht => ?_
  cases r with
  | ok value => exact ht
  | error error => exact ht

theorem readsPrimary_ident {extent : Extent} {w : Word} (hname : isName w.1 = true) :
    ReadsUpTo setting inLabels 15 primary (fun _ => pure) (.ident w.2 extent) [w] := by
  intro s rest hwords hquiet hrest
  refine ⟨_, _, ?_, State.past_one hwords, (primary_name hwords hname hquiet).trans
    (nameOrCall_ident hwords (heads_of_nextBinds hrest (by decide)))⟩
  rfl

theorem readsPrimary_paren {inner : Tree .expr} {extent : Extent} {l r : Word}
    (hl : l.1 = .lparen) (hr : r.1 = .rparen)
    (hinner : ReadsUpTo setting inLabels 0 expr (fun _ => pure) inner ws) :
    ReadsUpTo setting inLabels 15 primary (fun _ => pure) (.paren inner extent)
      (l :: (ws ++ [r])) := by
  intro s rest hwords hquiet hrest
  replace hwords : s.words = l :: (ws ++ r :: rest) := by simpa using hwords
  have hone := State.past_one hwords
  have hquiet' := hquiet.past_one hwords
  have hclose : nextBinds (r :: rest) ≤ 0 :=
    nextBinds_le hr (by decide)
  obtain ⟨read, t, extent', hread, hpast, hcomes⟩ :=
    primary_paren hwords hl hr (hinner _ _ hone.words hquiet' hclose)
  exact ⟨.paren read extent', t, by simp [hread], hpast, hcomes⟩

theorem readsPrimary_call {args : Tree (.list .expr)} {extent : Extent} {w l r : Word}
    (hname : isName w.1 = true) (hl : l.1 = .lparen) (hr : r.1 = .rparen)
    (hargs : ReadsArgs setting inLabels args ws) :
    ReadsUpTo setting inLabels 15 primary (fun _ => pure) (.call .none .nil w.2 args extent)
      (w :: l :: (ws ++ [r])) := by
  intro s rest hwords hquiet hrest
  replace hwords : s.words = w :: l :: (ws ++ r :: rest) := by simpa using hwords
  obtain ⟨read, t, extent', hread, hpast, hcomes⟩ := nameOrCall_call hwords hl hr hquiet hargs
  exact ⟨.call .none .nil w.2 read extent', t, by simp [hread], hpast,
    (primary_name hwords hname hquiet).trans hcomes⟩

theorem readsPrimary_select {extent : Extent} {gs : List Word} {dot w : Word} (hne : ws ≠ [])
    (hdot : dot.1 = .dot) (hbare : NoTypeArgs gs w.1) (hname : isName w.1 = true)
    (h : ReadsUpTo setting inLabels 15 (operandRule (isSigned ws)) (afterPrimary (isSigned ws))
      target ws) :
    ReadsUpTo setting inLabels 15 (operandRule (isSigned (ws ++ dot :: (gs ++ [w]))))
      (afterPrimary (isSigned (ws ++ dot :: (gs ++ [w])))) (.select target w.2 extent)
      (ws ++ dot :: (gs ++ [w])) := by
  refine readsPrimary_selector hne h (fun rest => ?_) ?_
  · exact nextBinds_le hdot (by decide)
  · intro t rest start read hwords _ hrest hread
    replace hwords : t.words = dot :: (gs ++ w :: rest) := by simpa using hwords
    have hone := State.past_one hwords
    obtain ⟨u, extent', hpast, hcomes⟩ := memberSelector_select hone.words hbare hname
      (heads_of_nextBinds hrest (by decide))
    exact ⟨.select read w.2 extent', u, by simp [hread], hone.trans hpast,
      selectors_dot hwords hdot hcomes⟩

theorem readsPrimary_callOn {args : Tree (.list .expr)} {extent : Extent} {gs : List Word}
    {dot w l r : Word} (hne : ws ≠ []) (hdot : dot.1 = .dot) (hbare : NoTypeArgs gs w.1)
    (hname : isName w.1 = true) (hthis : w.1 ≠ .thisKw) (hl : l.1 = .lparen) (hr : r.1 = .rparen)
    (h : ReadsUpTo setting inLabels 15 (operandRule (isSigned ws)) (afterPrimary (isSigned ws))
      target ws) (hargs : ReadsArgs setting inLabels args us) :
    ReadsUpTo setting inLabels 15
      (operandRule (isSigned (ws ++ dot :: (gs ++ w :: l :: (us ++ [r])))))
      (afterPrimary (isSigned (ws ++ dot :: (gs ++ w :: l :: (us ++ [r])))))
      (.call (.some target) .nil w.2 args extent)
      (ws ++ dot :: (gs ++ w :: l :: (us ++ [r]))) := by
  refine readsPrimary_selector hne h (fun rest => ?_) ?_
  · exact nextBinds_le hdot (by decide)
  · intro t rest start read hwords hquiet hrest hread
    replace hwords : t.words = dot :: (gs ++ w :: l :: (us ++ r :: rest)) := by
      simpa using hwords
    have hone := State.past_one hwords
    have hquiet' := hquiet.past_one hwords
    obtain ⟨args', u, extent', hargs', hpast, hcomes⟩ :=
      memberSelector_call hone.words hbare hname hthis hl hr hquiet' hargs
    exact ⟨_, u, by simp [hread, hargs'], hone.trans hpast,
      selectors_dot hwords hdot hcomes⟩

theorem readsPrimary_index {index : Tree .expr} {extent : Extent} {l r : Word} (hne : ws ≠ [])
    (hl : l.1 = .lbracket) (hr : r.1 = .rbracket)
    (h : ReadsUpTo setting inLabels 15 (operandRule (isSigned ws)) (afterPrimary (isSigned ws))
      target ws)
    (hindex : ReadsUpTo setting inLabels 0 expr (fun _ => pure) index us) :
    ReadsUpTo setting inLabels 15 (operandRule (isSigned (ws ++ l :: (us ++ [r]))))
      (afterPrimary (isSigned (ws ++ l :: (us ++ [r])))) (.index target index extent)
      (ws ++ l :: (us ++ [r])) := by
  refine readsPrimary_selector hne h (fun rest => ?_) ?_
  · exact nextBinds_le hl (by decide)
  · intro t rest start read hwords hquiet hrest hread
    replace hwords : t.words = l :: (us ++ r :: rest) := by simpa using hwords
    have hone := State.past_one hwords
    have hquiet' := hquiet.past_one hwords
    have hclose : nextBinds (r :: rest) ≤ 0 :=
      nextBinds_le hr (by decide)
    obtain ⟨index', u, extent', hindex', hpast, hcomes⟩ :=
      selectors_index hwords hl hr (hindex _ _ hone.words hquiet' hclose)
    exact ⟨_, u, by simp [hread, hindex'], hpast, hcomes⟩

theorem readsTrailing_op {op : UnaryOp} {extent : Extent} {w : Word} (hne : ws ≠ [])
    (hsigned : isSigned ws = false) (hop : trailingOp? w.1 = some op)
    (h : ReadsUpTo setting inLabels 14 (operandRule (isSigned ws)) (afterSelectors (isSigned ws))
      target ws) :
    ReadsUpTo setting inLabels 14 (operandRule (isSigned (ws ++ [w])))
      (afterSelectors (isSigned (ws ++ [w]))) (.unary op target extent) (ws ++ [w]) := by
  intro s rest hwords hquiet hrest
  rw [List.append_assoc] at hwords
  rw [isSigned_append hne]
  have hbinds : nextBinds ([w] ++ rest) ≤ 14 := by
    show bindsAt w.1 ≤ 14
    rw [(trailingOp?_facts hop).2.2]
  obtain ⟨read, t, hread, hpast, hcomes⟩ := h s _ hwords hquiet hbinds
  rw [hsigned] at hcomes ⊢
  obtain ⟨extent', hstep⟩ := steps_op (w := w) hpast.words hop
  refine ⟨.unary op read extent', t.advance 1, by simp [hread],
    hpast.trans (State.past_one hpast.words), hcomes.trans ?_⟩
  exact (ComesTo.call _).trans (hstep.trans (ComesTo.called (.steps _ _)))

theorem readsUnary_leading {op : UnaryOp} {operand : Tree .expr} {extent : Extent} {w : Word}
    (hne : ws ≠ []) (hop : leadingOp? w.1 = some op)
    (hapart : op = .minus → Heads (!isNumber ·) ws)
    (h : ReadsUpTo setting inLabels 13 unary (fun _ => pure) operand ws) :
    ReadsUpTo setting inLabels 13 unary (fun _ => pure) (.unary op operand extent) (w :: ws) := by
  intro s rest hwords hquiet hrest
  have hone := State.past_one hwords
  have hquiet' := hquiet.past_one hwords
  have hapart' : op = .minus → Heads (!isNumber ·) (ws ++ rest) := by
    obtain ⟨x, us, rfl⟩ := List.exists_cons_of_ne_nil hne
    exact hapart
  obtain ⟨read, t, extent', hread, hpast, hcomes⟩ :=
    unary_leading hwords hop hapart' (h _ _ hone.words hquiet' hrest)
  exact ⟨.unary op read extent', t, by simp [hread], hpast, hcomes⟩

theorem readsBinary_op {op : BinaryOp} {level : Nat} {left right : Tree .expr} {extent : Extent}
    {w : Word} (hop : binaryOp? w.1 = some (op, level))
    (hleft : Readable setting inLabels (level + 2) left ws)
    (hright : Readable setting inLabels (level + 3) right us) {least : Nat} (hleast : 1 ≤ least)
    (hle : least + 2 ≤ level + 2) :
    ReadsUpTo setting inLabels (level + 2) (binary least) (binaryRest least)
      (.binary left op right extent) (ws ++ w :: us) := by
  obtain ⟨_, hbinds, hlow, hhigh⟩ := binaryOp?_facts hop
  intro s rest hwords hquiet hrest
  rw [List.append_assoc, List.cons_append] at hwords
  have hnext : nextBinds (w :: (us ++ rest)) ≤ level + 2 := Nat.le_of_eq hbinds
  obtain ⟨read, t, hread, hpast, hcomes⟩ :=
    hleft.binary (level + 2) least (by omega) (by omega) hleast hle s _ hwords hquiet hnext
  have hone := State.past_one hpast.words
  have hquiet' := (hquiet.past hwords hpast).past_one hpast.words
  -- The operand of the strongest operators is a unary expression, which no level is left for.
  have hoperand : ReadsUpTo setting inLabels (level + 2) (binary (level + 1)) (fun _ => pure)
      right us := by
    rcases Nat.lt_or_ge level 10 with hlt | hge
    · exact (hright.binary (level + 3) (level + 1) (by omega) (by omega) (by omega)
        (by omega)).pure_of_binary (by omega)
    · exact (ReadsUpTo.binary_of_unary (hright.unary (by omega))).pure_of_binary (by omega)
  obtain ⟨read', u, extent', hread', hpast', hcomes'⟩ :=
    binaryRest_op hpast.words hop (show least ≤ level by omega)
      (hoperand _ _ hone.words hquiet' hrest)
  exact ⟨.binary read op read' extent', u, by simp [hread, hread'],
    hpast.trans hpast', hcomes.trans hcomes'⟩

theorem readsConditional {condition yes no : Tree .expr} {extent : Extent} {vs : List Word}
    {question colon : Word} (hquestion : question.1 = .question) (hcolon : colon.1 = .colon)
    (hcondition : Readable setting inLabels 3 condition ws)
    (hyes : Readable setting inLabels 1 yes us) (hno : Readable setting inLabels 2 no vs) :
    ReadsUpTo setting inLabels 1 conditional (fun _ => pure) (.conditional condition yes no extent)
      (ws ++ question :: (us ++ colon :: vs)) := by
  intro s rest hwords hquiet hrest
  replace hwords : s.words = ws ++ question :: (us ++ colon :: (vs ++ rest)) := by
    simpa using hwords
  have hnext : nextBinds (question :: (us ++ colon :: (vs ++ rest))) ≤ 2 :=
    nextBinds_le hquestion (by decide)
  have hnext' : nextBinds (colon :: (vs ++ rest)) ≤ 0 :=
    nextBinds_le hcolon (by decide)
  obtain ⟨read, t, hread, hpast, hcomes⟩ :=
    (hcondition.binary 3 1 (by omega) (by omega) (by omega) (by omega)).pure_of_binary (by omega)
      s _ hwords hquiet hnext
  have hone := State.past_one hpast.words
  have hquiet' := (hquiet.past hwords hpast).past_one hpast.words
  obtain ⟨read', u, hread', hpast', hcomes'⟩ :=
    hyes.expr (by omega) _ _ hone.words hquiet' hnext'
  have hone' := State.past_one hpast'.words
  have hquiet'' := (hquiet'.past hone.words hpast').past_one hpast'.words
  obtain ⟨read'', v, hread'', hpast'', hcomes''⟩ :=
    hno.conditional (by omega) _ _ hone'.words hquiet'' hrest
  refine ⟨.conditional read read' read'' ((v.view inLabels).since (s.view inLabels).mark), v,
    by simp [hread, hread', hread''],
    hpast.trans (hone.trans (hpast'.trans (hone'.trans hpast''))), fun Q hQ => ?_⟩
  unfold conditional
  rw [ensures_mark_bind]
  refine ensures_rule_bind.mpr (hcomes.bind _ Q ?_)
  refine ensures_accept_yes hpast.words hquestion ?_
  refine ensures_rule_bind.mpr (hcomes'.bind _ Q ?_)
  refine ensures_expect_yes hpast'.words hcolon ?_
  refine ReadsUpTo.not_startsLambda hquiet'' ?_
  exact ensures_rule_bind.mpr (hcomes''.bind _ Q hQ)

theorem readsExpr_assign {op : AssignOp} {value : Tree .expr} {extent : Extent} {w : Word}
    (hop : assignOp? w.1 = some op) (htarget : Readable setting inLabels 2 target ws)
    (hvalue : Readable setting inLabels 1 value us) :
    ReadsUpTo setting inLabels 0 expr (fun _ => pure) (.assign target op value extent)
      (ws ++ w :: us) := by
  intro s rest hwords hquiet hrest
  rw [List.append_assoc, List.cons_append] at hwords
  have hnext : nextBinds (w :: (us ++ rest)) ≤ 1 := by
    show bindsAt w.1 ≤ 1
    rw [(assignOp?_facts hop).2]
  obtain ⟨read, t, hread, hpast, hcomes⟩ :=
    htarget.conditional (by omega) s _ hwords hquiet hnext
  have hone := State.past_one hpast.words
  have hquiet' := (hquiet.past hwords hpast).past_one hpast.words
  obtain ⟨read', u, hread', hpast', hcomes'⟩ :=
    hvalue.expr (by omega) _ _ hone.words hquiet' hrest
  refine ⟨.assign read op read' ((u.view inLabels).since (s.view inLabels).mark), u,
    by simp [hread, hread'], hpast.trans (hone.trans hpast'), fun Q hQ => ?_⟩
  unfold expr
  refine ReadsUpTo.not_startsLambda hquiet ?_
  rw [if_neg Bool.false_ne_true, ensures_mark_bind]
  refine ensures_rule_bind.mpr (hcomes.bind _ Q ?_)
  rw [ensures_pure_bind, ensures_ahead_bind, State.lookup_words _ hpast.words, hop]
  exact ensures_rule_bind.mpr (hcomes'.bind _ Q hQ)

end Cases

/-- What is spelled is read: by induction on the spelling, each level from the ones below it. -/
theorem Spelled.isRead (setting : Setting) (inLabels : Bool) {c : Category} {n : Nat}
    {tree : Tree c} {ws : List Word} (h : Spelled n tree ws) :
    tree.IsRead setting inLabels n ws := by
  have hbase {tree : Tree .expr} {w : Word} {us : List Word} (hlead : Grammar.leadingOp? w.1 = none)
      (h : ReadsUpTo setting inLabels 15 Grammar.primary (fun _ => pure) tree (w :: us)) :
      Readable setting inLabels 15 tree (w :: us) := by
    have hunsigned : isSigned (w :: us) = false := by
      simp only [isSigned, List.head?_cons, Option.any_some, beq_eq_false_iff_ne]
      rintro hminus
      rw [hminus] at hlead
      cases hlead
    exact .of_primary ⟨w, us, rfl, .inr hlead⟩ (readsPrimary_base hunsigned h)
  have hopens {n : Nat} {tree : Tree .expr} {ws us : List Word} (h : Spelled n tree ws)
      (hn : 14 ≤ n) :
      ∃ w vs, ws ++ us = w :: vs ∧ (w.1 = .minus ∨ Grammar.leadingOp? w.1 = none) := by
    obtain ⟨w, vs, rfl, _, hlead⟩ := h.opens (by omega)
    exact ⟨w, vs ++ us, rfl, hlead hn⟩
  induction h with
  | lower _ _ _ ih => exact Readable.lower ih
  | nil => exact fun _ _ _ _ _ _ => .inl ⟨rfl, rfl⟩
  | one h ih =>
    exact readsArgs_one (h.not_rparen Nat.one_pos) (h.ne_nil Nat.one_pos) (ih.expr (by omega))
  | more h hcomma _ ih ih' =>
    exact readsArgs_more (h.not_rparen Nat.one_pos) (h.ne_nil Nat.one_pos) hcomma
      (ih.expr (by omega)) ih'
  | literal hread hsame =>
    exact hbase (value?_facts hread).2.2.1 (readsPrimary_literal hread hsame)
  | negative hsign hnumber hread hsame =>
    exact .of_primary ⟨_, _, rfl, .inl hsign⟩ (readsPrimary_negative hsign hnumber hread hsame)
  | ident hname => exact hbase (isName_facts hname).2.2 (readsPrimary_ident hname)
  | paren hl hr _ ih =>
    exact hbase (by rw [hl]; rfl) (readsPrimary_paren hl hr (ih.expr (by omega)))
  | call hname hl hr _ ih =>
    exact hbase (isName_facts hname).2.2 (readsPrimary_call hname hl hr ih)
  | select h hdot hbare hname ih =>
    exact .of_primary (hopens h (by omega))
      (readsPrimary_select (h.ne_nil (by omega)) hdot hbare hname (ih.primary (by omega)))
  | callOn h hdot hbare hname hthis hl hr _ ih ih' =>
    exact .of_primary (hopens h (by omega)) (readsPrimary_callOn (h.ne_nil (by omega)) hdot hbare
      hname hthis hl hr (ih.primary (by omega)) ih')
  | index h hl hr _ ih ih' =>
    exact .of_primary (hopens h (by omega)) (readsPrimary_index (h.ne_nil (by omega)) hl hr
      (ih.primary (by omega)) (ih'.expr (by omega)))
  | trailing h hunsigned hop ih =>
    exact .of_trailing (hopens h (by omega)) (readsTrailing_op (h.ne_nil (by omega))
      (isSigned_eq_false hunsigned) hop (ih.trailing (by omega)))
  | leading hop hapart h ih =>
    exact .of_unary (readsUnary_leading (h.ne_nil (by omega)) hop hapart (ih.unary (by omega)))
  | binary hop _ _ ih ih' =>
    obtain ⟨_, _, hlow, hhigh⟩ := binaryOp?_facts hop
    exact .of_binary (by omega) (by omega) fun least hleast hle =>
      readsBinary_op hop ih ih' hleast hle
  | conditional _ hq _ hc _ ih ih' ih'' =>
    exact .of_conditional (readsConditional hq hc ih ih' ih'')
  | assign _ hop _ ih ih' => exact .of_expr (readsExpr_assign hop ih ih')

/-- Quiet words that spell an expression, and nothing behind them. -/
theorem Spelled.evaluates {tree : Tree .expr} {ws : List Word} (h : Spelled 1 tree ws)
    (setting : Setting) (inLabels : Bool) {s : State} (hwords : s.words = ws) :
    ∃ read t, read.erase = tree.erase ∧ s.Past t [] ∧
      Grammar.expr.Ensures setting (evaluates setting) inLabels s
        fun r u => r = .ok read ∧ u = t := by
  have hquiet : Quiet s.words := by
    rw [hwords]
    exact h.quiet
  have hreadable : Readable setting inLabels 1 tree ws := h.isRead setting inLabels
  obtain ⟨read, t, hread, hpast, hcomes⟩ :=
    hreadable.expr (by omega) s [] (by rw [hwords, List.append_nil]) hquiet (Nat.le_refl 0)
  exact ⟨read, t, hread, hpast, hcomes _ ⟨rfl, rfl⟩⟩

end JavaSyntax
