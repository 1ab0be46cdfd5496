import JavaSyntax.Proofs.Spelling

/-!
Words that spell an expression are read as that expression. Among quiet words every decision by
looking ahead falls the plain way. Then each rule is followed along the words: an operand is read up
to a word that holds on less strongly than its level, and the loops for selectors and operators go
on from the tree read so far.
-/

namespace JavaSyntax

namespace Lookahead

theorem split_afterClosing {depth : Nat} {ts rest : List Symbol}
    (h : afterClosing depth ts = some rest) :
    ∃ before s, ts = before ++ s :: rest ∧ s.kind = .rparen := by
  fun_induction afterClosing depth ts with
  | case1 => cases h
  | case2 depth s more _ ih =>
    obtain ⟨before, r, rfl, hr⟩ := ih h
    exact ⟨s :: before, r, rfl, hr⟩
  | case3 => cases h
  | case4 s more hs _ =>
    cases h
    exact ⟨[], s, rfl, by assumption⟩
  | case5 s more _ _ d ih =>
    obtain ⟨before, r, rfl, hr⟩ := ih h
    exact ⟨s :: before, r, rfl, hr⟩
  | case6 depth s more _ _ ih =>
    obtain ⟨before, r, rfl, hr⟩ := ih h
    exact ⟨s :: before, r, rfl, hr⟩

theorem mem_of_skipAnnotations {finals : Bool} {scan : AnnotationScan} {ts rest : List Symbol}
    (h : skipAnnotations finals scan ts = some rest) : ∀ x ∈ rest, x ∈ ts := by
  fun_induction skipAnnotations finals scan ts <;> grind

theorem mem_of_skipDims (ts : List Symbol) : ∀ x ∈ skipDims ts, x ∈ ts := by
  fun_induction skipDims ts <;> grind

theorem mem_of_skipSegments {fresh : Bool} {depth : Nat} {ts rest : List Symbol}
    (h : skipSegments fresh depth ts = some rest) : ∀ x ∈ rest, x ∈ ts := by
  fun_induction skipSegments fresh depth ts <;> grind

theorem mem_of_skipType {ts rest : List Symbol} (h : skipType ts = some rest) :
    ∀ x ∈ rest, x ∈ ts := by
  unfold skipType at h
  split at h
  · rename_i s more hskip
    have hmore : ∀ x ∈ more, x ∈ ts := fun x hx =>
      mem_of_skipAnnotations hskip x (List.mem_cons_of_mem s hx)
    split at h
    · cases h
      exact fun x hx => hmore x (mem_of_skipDims more x hx)
    · split at h
      · obtain ⟨segments, hsegments, rfl⟩ := Option.map_eq_some_iff.mp h
        exact fun x hx => hmore x (mem_of_skipSegments hsegments x (mem_of_skipDims segments x hx))
      · cases h
  · cases h

/-- A kind that is looked for stands in the list if it is found. -/
theorem mem_of_next {kinds : List Kind} {k : Kind} {ts : List Symbol}
    (h : next kinds ts = true) (hk : k ∈ kinds) : ∃ s ∈ ts, s.kind = k := by
  induction kinds generalizing ts with
  | nil => cases hk
  | cons l kinds ih =>
    cases ts with
    | nil => cases h
    | cons s ts =>
      simp only [next, Bool.and_eq_true, beq_iff_eq] at h
      rcases List.mem_cons.mp hk with rfl | hk
      · exact ⟨s, List.mem_cons_self, h.1⟩
      · obtain ⟨r, hr, hkind⟩ := ih h.2 hk
        exact ⟨r, List.mem_cons_of_mem s hr, hkind⟩

end Lookahead

namespace Quiet

open Lookahead

variable {s : State}

theorem isQuiet_of_mem (h : Quiet s.words) {x : Symbol} (hx : x ∈ s.ahead) :
    isQuiet x.kind = true :=
  h.all x.word (List.mem_map_of_mem hx)

theorem not_next (h : Quiet s.words) {kinds : List Kind} {k : Kind} (hk : k ∈ kinds)
    (hloud : isQuiet k = false) {ts : List Symbol} (hts : ∀ x ∈ ts, x ∈ s.ahead) :
    next kinds ts = false := by
  rw [Bool.eq_false_iff]
  intro hnext
  obtain ⟨x, hx, rfl⟩ := mem_of_next hnext hk
  rw [h.isQuiet_of_mem (hts x hx)] at hloud
  cases hloud

theorem isLambda_eq_false (h : Quiet s.words) : isLambda s.ahead = false := by
  have harrow : (afterClosing 0 s.ahead).any (next [.arrow]) = false := by
    cases hclose : afterClosing 0 s.ahead with
    | none => rfl
    | some rest =>
      obtain ⟨before, r, hahead, _⟩ := split_afterClosing hclose
      refine h.not_next List.mem_cons_self rfl fun x hx => ?_
      rw [hahead]
      exact List.mem_append_right before (List.mem_cons_of_mem r hx)
  have hname : next [.identifier, .arrow] s.ahead = false :=
    h.not_next (List.mem_cons_of_mem _ List.mem_cons_self) rfl fun _ hx => hx
  rw [isLambda, hname, harrow, Bool.and_false, Bool.or_false]

theorem isTypeQualifier_eq_false (h : Quiet s.words) : isTypeQualifier s.ahead = false := by
  unfold isTypeQualifier
  split
  · rename_i rest hskip
    have hmem := mem_of_skipType hskip
    rw [h.not_next List.mem_cons_self rfl hmem,
      h.not_next (List.mem_cons_of_mem _ List.mem_cons_self) rfl hmem, Bool.or_false,
      Bool.and_false]
  · rfl

theorem isCast_eq_false (h : Quiet s.words) : isCast s.ahead = false := by
  unfold isCast
  split
  · rename_i rest inner hclose _
    have hprimitive : ((skipAnnotations false .outside (s.ahead.drop 1)).any fun us =>
        us.head?.any fun x => x.kind.isPrimitive) = false := by
      rw [Bool.eq_false_iff]
      intro hany
      obtain ⟨us, hus, hhead⟩ := (Option.any_eq_true _ _).mp hany
      obtain ⟨x, hx, hkind⟩ := (Option.any_eq_true _ _).mp hhead
      have hmem := List.mem_of_mem_drop (mem_of_skipAnnotations hus x (List.mem_of_head? hx))
      have hquiet := h.isQuiet_of_mem hmem
      simp [isQuiet, hkind] at hquiet
    have hoperand : (rest.head?.any fun x => startsOperand x.kind) = false := by
      obtain ⟨before, r, hahead, hr⟩ := split_afterClosing hclose
      cases rest with
      | nil => rfl
      | cons x more =>
        have hchain := h.apart
        unfold State.words at hchain
        rw [hahead, List.map_append, List.map_cons, List.map_cons] at hchain
        exact (List.isChain_cons_cons.mp (List.isChain_append.mp hchain).2.1).1 hr
    simp only [hprimitive, hoperand, Bool.or_self, Bool.and_false]
  · rfl

end Quiet

/-- Running the rule in `s` comes to running the other one in `t`. -/
def ComesTo (setting : Setting) (inLabels : Bool) {α : Type} (rule : Rule α) (s : State)
    (next : Rule α) (t : State) : Prop :=
  ∀ Q, next.Ensures setting (evaluates setting) inLabels t Q →
    rule.Ensures setting (evaluates setting) inLabels s Q

namespace ComesTo

variable {setting : Setting} {inLabels : Bool} {α β : Type} {rule next : Rule α} {s t u : State}

theorem rfl : ComesTo setting inLabels rule s rule s := fun _ h => h

theorem trans {other : Rule α} (h : ComesTo setting inLabels rule s next t)
    (h' : ComesTo setting inLabels next t other u) : ComesTo setting inLabels rule s other u :=
  fun Q hQ => h Q (h' Q hQ)

protected theorem bind (h : ComesTo setting inLabels rule s next t) (f : α → Rule β) :
    ComesTo setting inLabels (rule >>= f) s (next >>= f) t := by
  intro Q hQ
  rw [Rule.ensures_bind] at hQ ⊢
  exact h _ hQ

theorem call (nonterminal : Nonterminal α) :
    ComesTo setting inLabels (Grammar.call nonterminal) s (Grammar.rule nonterminal) s :=
  fun _ => ensures_rule.mpr

theorem called (nonterminal : Nonterminal α) :
    ComesTo setting inLabels (Grammar.rule nonterminal) s (Grammar.call nonterminal) s :=
  fun _ => ensures_rule.mp

end ComesTo

/-- Along words up to `rest` the rule reads the tree, up to extents, and goes on with it. -/
def Reads (setting : Setting) (inLabels : Bool) {α : Type} {c : Category} (rule : Rule α)
    (goOn : Tree c → Rule α) (tree : Tree c) (s : State) (rest : List Word) : Prop :=
  ∃ read t, read.erase = tree.erase ∧ s.Past t rest ∧
    ComesTo setting inLabels rule s (goOn read) t

section Stops

open Grammar Rule

variable {setting : Setting} {inLabels : Bool} {s : State} {start : Mark} {tree : Tree .expr}

/-- A word that does not hold on more strongly than this is none of the kinds that do. -/
theorem heads_of_nextBinds {ws : List Word} {n : Nat} {k : Kind} (h : nextBinds ws ≤ n)
    (hk : n < bindsAt k) : Heads (· != k) ws := by
  intro w hw
  simp only [bne_iff_ne]
  rintro rfl
  have hw' : ws.head? = some w := hw
  simp only [nextBinds, hw', Option.map_some, Option.getD_some] at h
  omega

theorem lookup_eq_none {γ : Type} {table : Kind → Option γ} {n : Nat}
    (htable : ∀ k, (table k).isSome = true → n < bindsAt k) (h : nextBinds s.words ≤ n) :
    lookup table s.ahead = none := by
  cases hwords : s.words with
  | nil =>
    have hahead : s.ahead = [] := List.map_eq_nil_iff.mp hwords
    rw [hahead]
    rfl
  | cons w rest =>
    rw [State.lookup_words table hwords]
    cases hw : table w.1 with
    | none => rfl
    | some found =>
      have hlt := htable w.1 (by rw [hw]; rfl)
      rw [hwords] at h
      exact absurd (show bindsAt w.1 ≤ n from h) (by omega)

theorem selectors_stop (h : nextBinds s.words ≤ 14) :
    ComesTo setting inLabels (selectors start tree) s (pure tree) s := by
  intro Q hQ
  unfold selectors
  refine ensures_accept_no (heads_of_nextBinds h (by decide)) ?_
  refine ensures_accept_no (heads_of_nextBinds h (by decide)) ?_
  refine ensures_accept_no (heads_of_nextBinds h (by decide)) ?_
  exact hQ

theorem steps_stop (h : nextBinds s.words ≤ 13) :
    ComesTo setting inLabels (steps start tree) s (pure tree) s := by
  intro Q hQ
  have hnone : lookup trailingOp? s.ahead = none := by
    refine lookup_eq_none (fun k hk => ?_) h
    obtain ⟨op, hop⟩ := Option.isSome_iff_exists.mp hk
    rw [(trailingOp?_facts hop).2.2]
    decide
  unfold steps
  rw [ensures_ahead_bind, hnone]
  exact hQ

theorem binaryRest_stop {least : Nat} (h : nextBinds s.words < least + 2) :
    ComesTo setting inLabels (binaryRest least start tree) s (pure tree) s := by
  intro Q hQ
  unfold binaryRest
  rw [ensures_ahead_bind]
  cases hwords : s.words with
  | nil =>
    have hahead : s.ahead = [] := List.map_eq_nil_iff.mp hwords
    rw [hahead]
    exact hQ
  | cons w rest =>
    rw [hwords] at h
    have hbinds : bindsAt w.1 < least + 2 := h
    by_cases hk : w.1 = .instanceofKw
    · rw [if_pos (State.next_eq_true hwords hk), if_pos]
      · exact hQ
      · rw [hk] at hbinds
        have hlevel : bindsAt .instanceofKw = instanceOfLevel + 2 := by decide
        omega
    · have hother : Heads (· != .instanceofKw) s.words := by
        rw [hwords]
        rintro _ ⟨⟩
        simpa using hk
      rw [if_neg (by simp [State.next_eq_false hother]), State.lookup_words _ hwords]
      split
      · exact hQ
      · rename_i op level hop
        have hlevel := (binaryOp?_facts hop).2.1
        rw [if_pos (by omega)]
        exact hQ

end Stops

section Steps

open Grammar Rule

variable {setting : Setting} {inLabels : Bool} {s : State} {start : Mark} {tree : Tree .expr}
  {rest : List Word} {w : Word}

theorem steps_op {op : UnaryOp} (h : s.words = w :: rest) (hop : trailingOp? w.1 = some op) :
    ∃ extent, ComesTo setting inLabels (steps start tree) s
      (steps start (.unary op tree extent)) (s.advance 1) := by
  refine ⟨((s.advance 1).view inLabels).since start, fun Q hQ => ?_⟩
  unfold steps
  rw [ensures_ahead_bind, State.lookup_words _ h, hop]
  exact ensures_rule.mpr hQ

theorem binaryRest_op {least level : Nat} {op : BinaryOp} {right : Tree .expr} {rest' : List Word}
    (h : s.words = w :: rest) (hop : binaryOp? w.1 = some (op, level)) (hle : least ≤ level)
    (hright : Reads setting inLabels (binary (level + 1)) pure right (s.advance 1) rest') :
    ∃ read t extent, read.erase = right.erase ∧ s.Past t rest' ∧
      ComesTo setting inLabels (binaryRest least start tree) s
        (binaryRest least start (.binary tree op read extent)) t := by
  obtain ⟨read, t, hread, hpast, hcomes⟩ := hright
  refine ⟨read, t, (t.view inLabels).since start, hread, (State.past_one h).trans hpast,
    fun Q hQ => ?_⟩
  have hother : Heads (· != .instanceofKw) s.words := by
    rw [h]
    rintro _ ⟨⟩
    simp only [bne_iff_ne]
    rintro hk
    rw [hk] at hop
    cases hop
  unfold binaryRest
  rw [ensures_ahead_bind, if_neg (by simp [State.next_eq_false hother]), State.lookup_words _ h,
    hop]
  simp only [if_neg (show ¬level < least by omega)]
  rw [ensures_advance_bind, ensures_rule_bind]
  exact hcomes.bind _ Q (ensures_rule.mpr hQ)

/-- Arguments up to the parenthesis behind them, if there are any. -/
def ReadsArgs (setting : Setting) (inLabels : Bool) (args : Tree (.list .expr)) (ws : List Word) :
    Prop :=
  ∀ s r rest, s.words = ws ++ r :: rest → r.1 = .rparen → Quiet s.words →
    args = .nil ∧ ws = [] ∨
      Heads (· != .rparen) s.words ∧ Reads setting inLabels exprList pure args s (r :: rest)

theorem arguments_reads {args : Tree (.list .expr)} {ws : List Word} {l r : Word}
    (h : s.words = l :: (ws ++ r :: rest)) (hl : l.1 = .lparen) (hr : r.1 = .rparen)
    (hquiet : Quiet s.words) (hargs : ReadsArgs setting inLabels args ws) :
    Reads setting inLabels arguments pure args s rest := by
  have hone := State.past_one h
  have hquiet' := hquiet.past_one h
  rcases hargs (s.advance 1) r rest hone.words hr hquiet' with ⟨rfl, rfl⟩ | ⟨hnone, hreads⟩
  · have hclose := State.past_one hone.words
    refine ⟨.nil, _, Eq.refl _, hone.trans hclose, fun Q hQ => ?_⟩
    unfold arguments
    refine ensures_expect_yes h hl ?_
    rw [ensures_check_bind, State.next_eq_true hone.words hr]
    exact ensures_expect_yes hone.words hr hQ
  · obtain ⟨read, t, hread, hpast, hcomes⟩ := hreads
    have hclose := State.past_one hpast.words
    refine ⟨read, _, hread, hone.trans (hpast.trans hclose), fun Q hQ => ?_⟩
    unfold arguments
    refine ensures_expect_yes h hl ?_
    rw [ensures_check_bind, State.next_eq_false hnone]
    refine ensures_rule_bind.mpr (hcomes.bind _ Q ?_)
    exact ensures_expect_yes hpast.words hr hQ

theorem heads_cons {p : Kind → Bool} {ws : List Word} (h : p w.1 = true) : Heads p (w :: ws) := by
  rintro _ ⟨⟩
  exact h

theorem typeArgs_empty {l g : Word} (h : s.words = l :: g :: rest) (hl : l.1 = .less)
    (hg : g.1 = .greater) :
    ComesTo setting inLabels typeArgs s (pure .nil) ((s.advance 1).advance 1) := by
  intro Q hQ
  have hone := State.past_one h
  have hcloses : closesAngle (s.advance 1).ahead = true := by
    rw [closesAngle, State.nextOneOf_eq hone.words, hg]
    rfl
  unfold typeArgs
  refine ensures_expect_yes h hl ?_
  rw [ensures_ahead_bind, hcloses, Bool.not_true, listIf_false, ensures_pure_bind]
  unfold closeAngle
  rw [ensures_bind, ensures_view_bind, State.view_ahead, if_pos (State.next_eq_true hone.words hg)]
  exact hQ

/-- A name behind a dot, where the type arguments in front of it say nothing. -/
theorem memberSelector_identifier {gs : List Word} (h : s.words = gs ++ w :: rest)
    (hbare : NoTypeArgs gs w.1) (hk : w.1 = .identifier) :
    ∃ t, s.Past t (w :: rest) ∧ ComesTo setting inLabels (memberSelector start tree) s
      (do
        let name ← identifier
        if ← check .lparen then
          let args ← arguments
          return .call (.some tree) .nil name args (← since start)
        else return .select tree name (← since start)) t := by
  rcases hbare with rfl | ⟨_, l, g, rfl, hl, hg⟩
  · refine ⟨s, State.past_self h, fun Q hQ => ?_⟩
    replace h : s.words = w :: rest := h
    unfold memberSelector
    rw [ensures_ahead_bind]
    simp only [State.nextOneOf_eq h, State.next_eq h]
    rw [hk, if_neg (by decide), if_neg (by decide), if_neg (by decide), beq_eq_false_iff_ne.mpr
      (by decide), listIf_false, ensures_pure_bind]
    exact hQ
  · replace h : s.words = l :: g :: w :: rest := h
    have hone := State.past_one h
    refine ⟨_, hone.trans (State.past_one hone.words), fun Q hQ => ?_⟩
    unfold memberSelector
    rw [ensures_ahead_bind]
    simp only [State.nextOneOf_eq h, State.next_eq h]
    rw [hl, if_neg (by decide), if_neg (by decide), if_neg (by decide), beq_self_eq_true]
    refine ensures_rule_bind.mpr ((typeArgs_empty h hl hg).bind _ Q ?_)
    exact hQ

theorem memberSelector_select {gs : List Word} (h : s.words = gs ++ w :: rest)
    (hbare : NoTypeArgs gs w.1) (hname : isName w.1 = true) (hrest : Heads (· != .lparen) rest) :
    ∃ t extent, s.Past t rest ∧ ComesTo setting inLabels (memberSelector start tree) s
      (pure (.select tree w.2 extent)) t := by
  have hcall {t : State} (ht : t.words = w :: rest) :
      Lookahead.next [.lparen] (t.advance 1).ahead = false := by
    rw [← (State.past_one ht).words] at hrest
    exact State.next_eq_false hrest
  simp only [isName, Bool.or_eq_true, beq_iff_eq] at hname
  rcases hname with (hk | hk) | hk
  · obtain ⟨t, hpast, hcomes⟩ := memberSelector_identifier h hbare hk
    refine ⟨t.advance 1, ((t.advance 1).view inLabels).since start,
      hpast.trans (State.past_one hpast.words), hcomes.trans fun Q hQ => ?_⟩
    refine ensures_identifier_yes hpast.words hk ?_
    rw [ensures_check_bind, hcall hpast.words]
    exact hQ
  · obtain rfl : gs = [] := hbare.resolve_right fun hid => by simp [hk] at hid
    refine ⟨s.advance 1, ((s.advance 1).view inLabels).since start, State.past_one h,
      fun Q hQ => ?_⟩
    unfold memberSelector
    rw [ensures_ahead_bind, State.nextOneOf_eq h, hk, if_pos (by decide)]
    exact ensures_takeText h hQ
  · obtain rfl : gs = [] := hbare.resolve_right fun hid => by simp [hk] at hid
    refine ⟨s.advance 1, ((s.advance 1).view inLabels).since start, State.past_one h,
      fun Q hQ => ?_⟩
    unfold memberSelector
    rw [ensures_ahead_bind, State.nextOneOf_eq h, State.next_eq h, hk, if_neg (by decide),
      if_pos (by decide)]
    refine ensures_takeText h ?_
    rw [ensures_check_bind, hcall h]
    exact hQ

theorem memberSelector_call {args : Tree (.list .expr)} {gs ws : List Word} {l r : Word}
    (h : s.words = gs ++ w :: l :: (ws ++ r :: rest)) (hbare : NoTypeArgs gs w.1)
    (hname : isName w.1 = true) (hthis : w.1 ≠ .thisKw) (hl : l.1 = .lparen) (hr : r.1 = .rparen)
    (hquiet : Quiet s.words) (hargs : ReadsArgs setting inLabels args ws) :
    ∃ read t extent, read.erase = args.erase ∧ s.Past t rest ∧
      ComesTo setting inLabels (memberSelector start tree) s
        (pure (.call (.some tree) .nil w.2 read extent)) t := by
  rw [h] at hquiet
  have hreads {t : State} (ht : t.words = w :: l :: (ws ++ r :: rest)) :
      Reads setting inLabels arguments pure args (t.advance 1) rest := by
    have hone := State.past_one ht
    refine arguments_reads hone.words hl hr ?_ hargs
    rw [hone.words]
    exact hquiet.of_append.tail
  simp only [isName, Bool.or_eq_true, beq_iff_eq] at hname
  rcases hname with (hk | hk) | hk
  · obtain ⟨t, hpast, hcomes⟩ := memberSelector_identifier h hbare hk
    obtain ⟨read, u, hread, hpast', hcomes'⟩ := hreads hpast.words
    have hone := State.past_one hpast.words
    refine ⟨read, u, (u.view inLabels).since start, hread, hpast.trans (hone.trans hpast'),
      hcomes.trans fun Q hQ => ?_⟩
    refine ensures_identifier_yes hpast.words hk ?_
    rw [ensures_check_bind, State.next_eq_true hone.words hl]
    exact hcomes'.bind _ Q hQ
  · exact absurd hk hthis
  · obtain rfl : gs = [] := hbare.resolve_right fun hid => by simp [hk] at hid
    obtain ⟨read, u, hread, hpast', hcomes'⟩ := hreads h
    have hone := State.past_one h
    refine ⟨read, u, (u.view inLabels).since start, hread, hone.trans hpast', fun Q hQ => ?_⟩
    unfold memberSelector
    rw [ensures_ahead_bind, State.nextOneOf_eq h, State.next_eq h, hk, if_neg (by decide),
      if_pos (by decide)]
    refine ensures_takeText h ?_
    rw [ensures_check_bind, State.next_eq_true hone.words hl]
    exact hcomes'.bind _ Q hQ

theorem selectors_dot {dot : Word} {next : Tree .expr} {t : State} (h : s.words = dot :: rest)
    (hdot : dot.1 = .dot)
    (hmember : ComesTo setting inLabels (memberSelector start tree) (s.advance 1) (pure next) t) :
    ComesTo setting inLabels (selectors start tree) s (selectors start next) t := by
  intro Q hQ
  unfold selectors
  refine ensures_accept_yes h hdot ?_
  exact hmember.bind _ Q (ensures_rule.mpr hQ)

theorem selectors_index {index : Tree .expr} {ws : List Word} {l r : Word}
    (h : s.words = l :: (ws ++ r :: rest)) (hl : l.1 = .lbracket) (hr : r.1 = .rbracket)
    (hindex : Reads setting inLabels expr pure index (s.advance 1) (r :: rest)) :
    ∃ read t extent, read.erase = index.erase ∧ s.Past t rest ∧
      ComesTo setting inLabels (selectors start tree) s
        (selectors start (.index tree read extent)) t := by
  obtain ⟨read, t, hread, hpast, hcomes⟩ := hindex
  have hclose := State.past_one hpast.words
  refine ⟨read, t.advance 1, ((t.advance 1).view inLabels).since start, hread,
    (State.past_one h).trans (hpast.trans hclose), fun Q hQ => ?_⟩
  unfold selectors
  refine ensures_accept_no (by rw [h]; exact heads_cons (by rw [hl]; rfl)) ?_
  rw [if_neg Bool.false_ne_true]
  refine ensures_accept_yes h hl ?_
  rw [if_pos (Eq.refl true)]
  refine ensures_rule_bind.mpr (hcomes.bind _ Q ?_)
  exact ensures_expect_yes hpast.words hr (ensures_rule.mpr hQ)

end Steps

section Primaries

open Grammar Rule

variable {setting : Setting} {inLabels : Bool} {s : State} {start : Mark} {tree : Tree .expr}
  {rest : List Word} {w : Word}

theorem literal_reads {negatedFrom : Option Mark} {read : Literal} (h : s.words = w :: rest)
    (hread : w.value? negatedFrom.isSome = some (.ok read)) :
    ∃ extent, ComesTo setting inLabels (literal negatedFrom) s (pure (.literal read extent))
      (s.advance 1) := by
  obtain ⟨sym, more, hahead, rfl, _⟩ := State.ahead_of_words h
  refine ⟨((s.advance 1).view inLabels).since (negatedFrom.getD (s.view inLabels).mark),
    fun Q hQ => ?_⟩
  have hvalue : s.ahead.head?.bind (literalValue · negatedFrom.isSome) = some (.ok read) := by
    rw [hahead]
    exact hread
  unfold literal
  rw [ensures_view_bind, State.view_ahead, hvalue]
  exact hQ

theorem nameOrCall_ident (h : s.words = w :: rest) (hrest : Heads (· != .lparen) rest) :
    ComesTo setting inLabels (nameOrCall start) s
      (pure (.ident w.2 (((s.advance 1).view inLabels).since start))) (s.advance 1) := by
  intro Q hQ
  rw [← (State.past_one h).words] at hrest
  unfold nameOrCall
  refine ensures_takeText h ?_
  rw [ensures_check_bind, State.next_eq_false hrest]
  exact hQ

theorem nameOrCall_call {args : Tree (.list .expr)} {ws : List Word} {l r : Word}
    (h : s.words = w :: l :: (ws ++ r :: rest)) (hl : l.1 = .lparen) (hr : r.1 = .rparen)
    (hquiet : Quiet s.words) (hargs : ReadsArgs setting inLabels args ws) :
    ∃ read t extent, read.erase = args.erase ∧ s.Past t rest ∧
      ComesTo setting inLabels (nameOrCall start) s
        (pure (.call .none .nil w.2 read extent)) t := by
  have hone := State.past_one h
  have hquiet' := hquiet.past_one h
  obtain ⟨read, t, hread, hpast, hcomes⟩ := arguments_reads hone.words hl hr hquiet' hargs
  refine ⟨read, t, (t.view inLabels).since start, hread, hone.trans hpast, fun Q hQ => ?_⟩
  unfold nameOrCall
  refine ensures_takeText h ?_
  rw [ensures_check_bind, State.next_eq_true hone.words hl]
  exact hcomes.bind _ Q hQ

theorem primary_name (h : s.words = w :: rest) (hname : isName w.1 = true)
    (hquiet : Quiet s.words) :
    ComesTo setting inLabels primary s (nameOrCall (s.view inLabels).mark) s := by
  intro Q hQ
  unfold primary
  rw [ensures_view_bind, State.view_ahead, State.head_of_words h]
  simp only [isName, Bool.or_eq_true, beq_iff_eq] at hname
  rcases hname with (hk | hk) | hk
  · simp only [hk, hquiet.isTypeQualifier_eq_false, Bool.false_eq_true, if_false]
    exact hQ
  · rw [hk]
    exact hQ
  · rw [hk]
    exact hQ

theorem primary_literal {read : Literal} (h : s.words = w :: rest)
    (hread : w.value? false = some (.ok read)) :
    ∃ extent, ComesTo setting inLabels primary s (pure (.literal read extent)) (s.advance 1) := by
  have hliteral : w.1.isLiteral = true := (value?_facts hread).2.2.2
  obtain ⟨extent, hcomes⟩ : ∃ extent, ComesTo setting inLabels (literal none) s
      (pure (.literal read extent)) (s.advance 1) := literal_reads h hread
  refine ⟨extent, fun Q hQ => ?_⟩
  have hQ' := hcomes Q hQ
  unfold primary
  rw [ensures_view_bind, State.view_ahead, State.head_of_words h]
  unfold Kind.isLiteral at hliteral
  split at hliteral
  all_goals first | (rename_i hk; rw [hk]; exact hQ') | cases hliteral

theorem primary_paren {inner : Tree .expr} {ws : List Word} {l r : Word}
    (h : s.words = l :: (ws ++ r :: rest)) (hl : l.1 = .lparen) (hr : r.1 = .rparen)
    (hinner : Reads setting inLabels expr pure inner (s.advance 1) (r :: rest)) :
    ∃ read t extent, read.erase = inner.erase ∧ s.Past t rest ∧
      ComesTo setting inLabels primary s (pure (.paren read extent)) t := by
  obtain ⟨read, t, hread, hpast, hcomes⟩ := hinner
  have hclose := State.past_one hpast.words
  refine ⟨read, t.advance 1, ((t.advance 1).view inLabels).since (s.view inLabels).mark, hread,
    (State.past_one h).trans (hpast.trans hclose), fun Q hQ => ?_⟩
  unfold primary
  rw [ensures_view_bind, State.view_ahead, State.head_of_words h, hl]
  refine ensures_advance_bind.mpr (ensures_rule_bind.mpr (hcomes.bind _ Q ?_))
  exact ensures_expect_yes hpast.words hr hQ

theorem trailing_primary {t : State}
    (h : ComesTo setting inLabels primary s (pure tree) t) :
    ComesTo setting inLabels trailing s (selectors (s.view inLabels).mark tree >>= fun x =>
      call (.steps (s.view inLabels).mark x)) t := by
  intro Q hQ
  unfold trailing
  rw [ensures_mark_bind]
  exact h.bind _ Q (ensures_rule_bind.mpr hQ)

theorem unary_trailing (h : s.words = w :: rest) (hlead : leadingOp? w.1 = none)
    (hquiet : Quiet s.words) : ComesTo setting inLabels unary s trailing s := by
  intro Q hQ
  unfold unary
  rw [ensures_view_bind, State.view_ahead, State.lookup_words _ h, hlead]
  simp only [hquiet.isCast_eq_false, Bool.and_false, Bool.false_eq_true, if_false]
  exact hQ

theorem unary_negative {sign : Word} {read : Literal} (h : s.words = sign :: w :: rest)
    (hsign : sign.1 = .minus) (hnumber : isNumber w.1 = true)
    (hread : w.value? true = some (.ok read)) :
    ∃ extent, ComesTo setting inLabels unary s
      (selectors (s.view inLabels).mark (.literal read extent)) ((s.advance 1).advance 1) := by
  have hone := State.past_one h
  obtain ⟨extent, hcomes⟩ : ∃ extent, ComesTo setting inLabels
      (literal (some (s.view inLabels).mark)) (s.advance 1) (pure (.literal read extent))
      ((s.advance 1).advance 1) := literal_reads hone.words hread
  have hnext : Lookahead.nextOneOf [.integerLit, .floatingLit] (s.advance 1).ahead = true := by
    rw [State.nextOneOf_eq hone.words]
    simpa [isNumber] using hnumber
  refine ⟨extent, fun Q hQ => ?_⟩
  unfold unary
  rw [ensures_view_bind, State.view_ahead, State.lookup_words _ h, hsign]
  refine ensures_advance_bind.mpr (ensures_ahead_bind.mpr ?_)
  rw [if_pos ⟨rfl, hnext⟩]
  exact hcomes.bind _ Q (ensures_rule.mpr hQ)

theorem unary_leading {op : UnaryOp} {operand : Tree .expr} {ws rest' : List Word}
    (h : s.words = w :: ws) (hop : leadingOp? w.1 = some op)
    (hapart : op = .minus → Heads (!isNumber ·) ws)
    (hoperand : Reads setting inLabels unary pure operand (s.advance 1) rest') :
    ∃ read t extent, read.erase = operand.erase ∧ s.Past t rest' ∧
      ComesTo setting inLabels unary s (pure (.unary op read extent)) t := by
  obtain ⟨read, t, hread, hpast, hcomes⟩ := hoperand
  have hone := State.past_one h
  refine ⟨read, t, (t.view inLabels).since (s.view inLabels).mark, hread, hone.trans hpast,
    fun Q hQ => ?_⟩
  unfold unary
  rw [ensures_view_bind, State.view_ahead, State.lookup_words _ h, hop]
  refine ensures_advance_bind.mpr (ensures_ahead_bind.mpr ?_)
  rw [if_neg]
  · exact ensures_rule_bind.mpr (hcomes.bind _ Q hQ)
  · rintro ⟨hminus, hnumber⟩
    cases ws with
    | nil =>
      have hahead : (s.advance 1).ahead = [] := List.map_eq_nil_iff.mp hone.words
      rw [hahead] at hnumber
      cases hnumber
    | cons x more =>
      rw [State.nextOneOf_eq hone.words] at hnumber
      have hx := hapart hminus x rfl
      simp only [isNumber, Bool.not_eq_eq_eq_not, Bool.not_true, Bool.or_eq_false_iff,
        beq_eq_false_iff_ne] at hx
      simp [hx] at hnumber

end Primaries

end JavaSyntax
