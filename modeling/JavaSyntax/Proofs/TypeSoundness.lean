import JavaSyntax.Proofs.TypeSpelling

/-!
A type that is read without a report is spelled by the pieces it took. The contract says for each
rule of types what its pieces spell; the loop over segments is told what was spelled before it.
-/

namespace JavaSyntax

open Grammar Rule

/-- What a rule of types spells when it ends cleanly. -/
def typeSpelling (s : State) : {β : Type} → Nonterminal β → β → State → Prop
  | _, .annot => fun annot t => s.Takes (fun us => ∀ others vs, Annotates others vs →
      Annotates (.cons annot others) (us ++ vs)) t
  | _, .annotations _ => fun annotations t => s.Takes (Annotates annotations) t
  | _, .type => fun tree t => s.Takes (Spells (.type tree) ·) t
  | _, .typeSegments _ outer name diamond => fun tree t => s.Takes (fun us =>
      ∀ vs, Spells (.segments outer name diamond) vs →
        ∃ outer' name' args diamond' extent, tree = .type outer' name' args diamond' .nil 0 extent ∧
          ∀ n bs extent', Brackets n bs →
            Spells (.bare (.type outer' name' args diamond' .nil n extent')) (vs ++ (us ++ bs))) t
  | _, .typeArgs => fun args t => s.Takes (Spells (.args true args) ·) t
  | _, .typeArgList => fun args t => s.Takes (Spells (.list args) ·) t
  | _, .wholeType => fun tree _ => ∃ type, tree = .typeExpr type ∧ Spells (.type type) s.pieces
  | _, _ => fun _ _ => True

section Rules

variable {setting : Setting} {L : State → {β : Type} → Nonterminal β → β → State → Prop}
  {inLabels : Bool} {s : State}

/-! Names, dimensions and closing brackets, whatever is known of the nonterminals. -/

theorem Cleanly.reaches {β : Type} {origin : State} (rule : Rule β)
    (hs : Reaches setting origin s) :
    rule.Ensures setting (clean setting @L) inLabels s
      (Cleanly fun _ t => Reaches setting origin t) := by
  induction rule generalizing s with
  | done value => exact fun _ => hs
  | fail error => trivial
  | look rest ih => exact ih _ hs
  | advance n rest ih => exact ih (hs.trans (.step (.advance n)))
  | splitAngle rest ih => exact ih (hs.trans (.step .splitAngle))
  | report error rest ih => exact ih (hs.trans (.step (.record ..)))
  | deprecation doc name rest ih => exact ih (hs.trans (.step (.deprecation doc name)))
  | call nonterminal asLabels rest ih =>
    exact ⟨trivial, fun r t ht => ih r (hs.trans ht.2.runs.reaches)⟩

theorem dotted_dottedTail (x : Symbol) (hx : x.kind = .identifier) (ts : List Symbol) :
    Dotted (x.text :: Lookahead.dottedTail ts)
      (x.word :: (ts.take (2 * (Lookahead.dottedTail ts).length)).map Symbol.word) := by
  fun_induction Lookahead.dottedTail ts generalizing x with
  | case1 d y more hdot ih =>
    exact .more (w := x.word) hx (show d.word.1 = .dot from hdot.1) (ih y hdot.2)
  | case2 => exact .one (w := x.word) hx
  | case3 => exact .one (w := x.word) hx

theorem qualifiedName_dotted : qualifiedName.Ensures setting (clean setting @L) inLabels s
    (Cleanly fun name t => ∃ names ws, name = ".".intercalate names ∧ Dotted names ws ∧
      s.words = ws ++ t.words) := by
  unfold qualifiedName
  apply Cleanly.identifier_bind
  intro x rest hahead hx
  rw [ensures_ahead_bind, ensures_advance_bind, State.advance_ahead, hahead]
  intro _
  refine ⟨_, _, rfl, dotted_dottedTail x hx rest, ?_⟩
  unfold State.words
  rw [State.advance_ahead, State.advance_ahead, hahead, List.map_cons, List.cons_append,
    ← List.map_append, List.drop_succ_cons, List.drop_zero, List.take_append_drop]

theorem dims_brackets : dims.Ensures setting (clean setting @L) inLabels s
    (Cleanly fun n t => s.Takes (Brackets n) t) := by
  have hdims (ts : List Symbol) : Brackets (Lookahead.dims ts)
      ((ts.take (2 * Lookahead.dims ts)).map Symbol.word) := by
    fun_induction Lookahead.dims ts with
    | case1 l r more hboth ih => exact .succ (l := l.word) (r := r.word) hboth.1 hboth.2 ih
    | case2 => exact .zero
    | case3 => exact .zero
  unfold dims
  rw [ensures_ahead_bind, ensures_advance_bind]
  exact fun _ => .words (s.words_take _) (hdims _).not_fused (hdims _)

theorem closeAngle_closes : closeAngle.Ensures setting (clean setting @L) inLabels s
    (Cleanly fun _ t => s.Takes (fun us => ∃ g, us = [g] ∧ g.1 = .greater) t) := by
  unfold closeAngle
  rw [ensures_view_bind, State.view_ahead]
  split
  · rename_i hnext
    obtain ⟨x, rest, hahead, hx⟩ := SoFar.ahead_of_next hnext
    exact fun _ => (State.Takes.one hahead (by rw [hx]; rfl)).mono fun us hus => ⟨_, hus, hx⟩
  · split
    · rename_i hnext
      cases hahead : s.ahead with
      | nil =>
        rw [hahead] at hnext
        cases hnext
      | cons x more =>
        rw [hahead] at hnext
        exact fun _ => ⟨_, State.pieces_splitAngle hahead hnext, _, rfl, rfl⟩
    · trivial

/-! Annotations. -/

theorem annot_spelled : annot.Ensures setting (clean setting typeSpelling) inLabels s
    (Cleanly (typeSpelling s .annot)) := by
  unfold annot
  rw [ensures_mark_bind]
  apply Cleanly.expect_bind
  intro x rest hahead hx
  apply Cleanly.bind qualifiedName_dotted
  rintro _ t _ ⟨names, ws, rfl, hdotted, hwords⟩
  have hsign : x.word.1 = .atSign := hx
  have hopens (us : List Word) : Heads (· == .atSign) (x.word :: us) :=
    heads_cons (by rw [hsign]; rfl)
  have hname : s.Takes (· = x.word :: ws) t :=
    (State.Takes.one hahead (by rw [hx]; rfl)).trans (.words hwords hdotted.not_fused rfl)
      fun us vs hus hvs => by rw [hus, hvs]; rfl
  apply Cleanly.accept_bind
  · intro p more hp hparen
    apply Cleanly.mono (Cleanly.reaches _ (.refl _))
    intro annot u _ hreaches
    have hopened := hname.trans (.one hp (by rw [hparen]; rfl))
      (R := (· = x.word :: ws ++ [p.word])) fun us vs hus hvs => by rw [hus, hvs]
    refine hopened.trans hreaches.takes fun us vs hus _ others rs _ => hus ▸ ⟨hopens _, ?_⟩
    -- Of arguments only the parenthesis in front of them is told.
    intro hplain
    exact absurd hparen (hplain p.word (by simp))
  · intro _ _
    refine hname.mono fun us hus others vs hothers => hus ▸ ⟨hopens _, ?_⟩
    intro hplain
    exact .cons hx hdotted (hothers.markers (List.forall_mem_append.mp hplain).2)

theorem annotations_spelled (onType : Bool) :
    (annotations onType).Ensures setting (clean setting typeSpelling) inLabels s
      (Cleanly (typeSpelling s (.annotations onType))) := by
  unfold annotations
  rw [ensures_ahead_bind]
  split
  · apply Cleanly.call_bind
    intro first t _ hfirst _
    apply Cleanly.call_bind
    intro others u _ hothers _ _
    exact hfirst.trans hothers fun us vs hus hvs => hus others vs hvs
  · exact fun _ => .nothing Markers.nil.annotates

/-! Types. -/

theorem isFused_of_isPrimitive {k : Kind} (h : k.isPrimitive = true) : isFused k = false := by
  unfold Kind.isPrimitive at h
  split at h <;> first | rfl | cases h

theorem typeArgs_spelled : typeArgs.Ensures setting (clean setting typeSpelling) inLabels s
    (Cleanly (typeSpelling s .typeArgs)) := by
  unfold typeArgs
  apply Cleanly.expect_bind
  intro x rest hahead hx
  have hopens : s.Takes (· = [x.word]) (s.advance 1) := .one hahead (by rw [hx]; rfl)
  rw [ensures_ahead_bind]
  cases closesAngle (s.advance 1).ahead with
  | true =>
    rw [Bool.not_true, listIf_false, ensures_pure_bind]
    apply Cleanly.bind closeAngle_closes
    rintro _ t _ hcloses _
    refine hopens.trans hcloses ?_
    rintro _ _ rfl ⟨g, rfl, hg⟩
    exact .empty hx hg
  | false =>
    apply Cleanly.call_bind
    intro args t _ hargs _
    apply Cleanly.bind closeAngle_closes
    rintro _ u _ hcloses _
    refine hopens.trans (hargs.trans hcloses (R := fun us => ∃ vs g, us = vs ++ [g] ∧
      g.1 = .greater ∧ Spells (.list args) vs) ?_) ?_
    · rintro us _ hus ⟨g, rfl, hg⟩
      exact ⟨us, g, rfl, hg, hus⟩
    · rintro _ _ rfl ⟨us, g, rfl, hg, hus⟩
      exact .listed hx hg hus

theorem givenArgs_spelled (opened : Bool) :
    (listIf opened (Grammar.call .typeArgs)).Ensures setting (clean setting typeSpelling) inLabels s
      (Cleanly fun args t => s.Takes (Spells (.args opened args) ·) t) := by
  cases opened with
  | false => exact fun _ => .nothing .closed
  | true => exact Cleanly.call fun args t _ hargs _ => hargs

theorem Lookahead.next_first {k : Kind} {ks : List Kind} {ts : List Symbol}
    (h : next (k :: ks) ts = true) : next [k] ts = true := by
  cases ts with
  | nil => cases h
  | cons x rest =>
    simp only [next, Bool.and_eq_true] at h
    simp only [next, h.1, Bool.and_true]

theorem Lookahead.dot_of_segment
    (h : (next [.dot, .identifier] s.ahead || next [.dot, .atSign] s.ahead) = true) :
    ∃ x rest, s.ahead = x :: rest ∧ x.kind = .dot := by
  rcases (Bool.or_eq_true _ _).mp h with h | h <;> exact SoFar.ahead_of_next (next_first h)

/-- Arguments, a dot and the name of the next segment. -/
theorem State.Takes.segment {s t u : State} {opened : Bool} {args : Tree (.list .typeArg)}
    {annotations : Tree (.list .annot)} {x y : Symbol} {rest more : List Symbol}
    (hargs : s.Takes (Spells (.args opened args) ·) t) (hx : t.ahead = x :: rest)
    (hdot : x.kind = .dot) (hannotations : (t.advance 1).Takes (Annotates annotations) u)
    (hy : u.ahead = y :: more) (hname : y.kind = .identifier) :
    s.Takes (fun us => ∃ gs vs, us = gs ++ x.word :: (vs ++ [y.word]) ∧
      Spells (.args opened args) gs ∧ Annotates annotations vs) (u.advance 1) := by
  have hnamed : (t.advance 1).Takes (fun us => ∃ vs, us = vs ++ [y.word] ∧
      Annotates annotations vs) (u.advance 1) := by
    refine hannotations.trans (.one hy (by rw [hname]; rfl)) ?_
    rintro vs _ hvs rfl
    exact ⟨vs, rfl, hvs⟩
  refine hargs.trans ((State.Takes.one hx (by rw [hdot]; rfl)).trans hnamed
    (R := fun us => ∃ vs, us = x.word :: (vs ++ [y.word]) ∧ Annotates annotations vs) ?_) ?_
  · rintro _ _ rfl ⟨vs, rfl, hvs⟩
    exact ⟨vs, rfl, hvs⟩
  · rintro gs _ hgs ⟨vs, rfl, hvs⟩
    exact ⟨gs, vs, rfl, hgs, hvs⟩

theorem typeSegments_spelled (start : Mark) (outer : Tree (.option .type)) (name : String)
    (diamond : Bool) :
    (typeSegments start outer name diamond).Ensures setting (clean setting typeSpelling) inLabels s
      (Cleanly (typeSpelling s (.typeSegments start outer name diamond))) := by
  unfold typeSegments
  rw [ensures_check_bind]
  apply Cleanly.bind (givenArgs_spelled _)
  intro args t _ hargs
  generalize Lookahead.next [.less] s.ahead = opened at hargs
  rw [ensures_ahead_bind]
  split
  · rename_i hdot
    obtain ⟨x, rest, hahead, hx⟩ := Lookahead.dot_of_segment hdot
    have hdotted : x.word.1 = .dot := hx
    rw [ensures_advance_bind]
    apply Cleanly.call_bind
    intro annotations u _ hannotations _
    apply Cleanly.identifier_bind
    intro y more hy hname
    have hsegment := hargs.segment hahead hx hannotations hy hname
    -- What the loop goes on with is spelled by the words up to the name of the segment.
    have honward {outer' : Tree (.option .type)} {name' : String} {diamond' : Bool}
        (hnext : ∀ us gs vs, Spells (.segments outer name diamond) us →
          Spells (.args opened args) gs → Annotates annotations vs →
          Spells (.segments outer' name' diamond') (us ++ (gs ++ x.word :: (vs ++ [y.word])))) :
        (Grammar.call (.typeSegments start outer' name' diamond')).Ensures setting
          (clean setting typeSpelling) inLabels (u.advance 1)
          (Cleanly (typeSpelling s (.typeSegments start outer name diamond))) := by
      apply Cleanly.call
      intro tree v _ htree _
      refine hsegment.trans htree ?_
      rintro _ ws ⟨gs, vs, rfl, hgs, hvs⟩ hws us hus
      obtain ⟨outer'', name'', args'', diamond'', extent, rfl, hbare⟩ :=
        hws _ (hnext us gs vs hus hgs hvs)
      refine ⟨outer'', name'', args'', diamond'', extent, rfl, fun n bs extent' hbs => ?_⟩
      simpa only [List.append_assoc] using hbare n bs extent' hbs
    cases args with
    | nil =>
      apply honward
      intro us gs vs hus hgs hvs
      have hfold := Spells.fold (w := y.word) hus hgs hdotted hvs hname
      cases opened <;> exact hfold
    | cons first others =>
      refine honward fun us gs vs hus hgs hvs => ?_
      cases opened with
      | false => cases hgs
      | true => exact .nest (w := y.word) hus hgs rfl hdotted hvs hname
  · intro _
    refine hargs.mono fun gs hgs us hus => ?_
    refine ⟨outer, name, args, _, _, rfl, fun n bs extent' hbs => ?_⟩
    exact .classType hus hgs hbs

theorem type_spelled : type.Ensures setting (clean setting typeSpelling) inLabels s
    (Cleanly (typeSpelling s .type)) := by
  unfold type
  rw [ensures_mark_bind]
  apply Cleanly.call_bind
  intro annotations m _ hannotations _
  -- Behind its annotations the type is spelled without them.
  have hwhole {outer : Tree (.option .type)} {name : String} {args : Tree (.list .typeArg)}
      {diamond : Bool} {n : Nat} {t : State} (extent extent' : Extent) (h : m.Takes (fun us =>
        Spells (.bare (.type outer name args diamond .nil n extent)) us) t) :
      s.Takes (Spells (.type (.type outer name args diamond annotations n extent')) ·) t :=
    hannotations.trans h fun us vs hus hvs => .type hus hvs
  rw [ensures_view_bind, State.view_ahead]
  split
  · rename_i hnext
    obtain ⟨x, rest, hm, hx⟩ := SoFar.ahead_of_next hnext
    apply Cleanly.takeText_bind hm
    apply Cleanly.call_bind
    intro named u _ hnamed _
    apply Cleanly.bind dims_brackets
    intro n t _ hdims _
    obtain ⟨us, hus, hspelled⟩ := hnamed
    obtain ⟨outer, name, args, diamond, extent, rfl, hbare⟩ :=
      hspelled [x.word] (.first (w := x.word) hx)
    refine hwhole extent _ ?_
    refine (State.Takes.one hm (by rw [hx]; rfl)).trans (State.Takes.trans ⟨us, hus, rfl⟩ hdims
      (R := fun vs => ∃ bs, vs = us ++ bs ∧ Brackets n bs) ?_) ?_
    · rintro _ bs rfl hbs
      exact ⟨bs, rfl, hbs⟩
    · rintro _ _ rfl ⟨bs, rfl, hbs⟩
      exact hbare n bs extent hbs
  split
  · rename_i hprimitive
    obtain ⟨x, hx, hkind⟩ := (Option.any_eq_true _ _).mp hprimitive
    obtain ⟨rest, hm⟩ := List.head?_eq_some_iff.mp hx
    apply Cleanly.takeText_bind hm
    rw [ensures_pure_bind]
    apply Cleanly.bind dims_brackets
    intro n t _ hdims _
    refine hwhole (.point .eof) _ ?_
    refine (State.Takes.one hm (isFused_of_isPrimitive hkind)).trans hdims ?_
    rintro _ bs rfl hbs
    exact .primitive (w := x.word) hkind hbs
  · trivial

theorem typeArg_spelled : typeArg.Ensures setting (clean setting typeSpelling) inLabels s
    (Cleanly fun arg t => s.Takes (Spells (.arg arg) ·) t) := by
  unfold typeArg
  rw [ensures_mark_bind]
  apply Cleanly.call_bind
  intro annotations m _ hannotations _
  have hbound {P : List Word → Prop} {x y : Symbol} {rest more : List Symbol} {bound : Tree .type}
      {t : State} (hx : m.ahead = x :: rest) (hquestion : x.kind = .question)
      (hy : (m.advance 1).ahead = y :: more) (hword : isFused y.kind = false)
      (h : ((m.advance 1).advance 1).Takes (Spells (.type bound) ·) t)
      (hP : ∀ vs us, Annotates annotations vs → Spells (.type bound) us →
        P (vs ++ x.word :: y.word :: us)) : s.Takes P t := by
    refine hannotations.trans ((State.Takes.one hx (by rw [hquestion]; rfl)).trans
      ((State.Takes.one hy hword).trans h (R := fun vs => ∃ us, vs = y.word :: us ∧
        Spells (.type bound) us) ?_) (R := fun vs => ∃ us, vs = x.word :: y.word :: us ∧
        Spells (.type bound) us) ?_) ?_
    · rintro _ us rfl hus
      exact ⟨us, rfl, hus⟩
    · rintro _ _ rfl ⟨us, rfl, hus⟩
      exact ⟨us, rfl, hus⟩
    · rintro vs _ hvs ⟨us, rfl, hus⟩
      exact hP vs us hvs hus
  apply Cleanly.accept_bind
  · intro x rest hx hquestion
    apply Cleanly.accept_bind
    · intro y more hy hextends
      apply Cleanly.call_bind
      intro bound t _ ht _ _
      exact hbound hx hquestion hy (by rw [hextends]; rfl) ht fun vs us hvs hus =>
        .wildcardExtends hvs hquestion hextends hus
    intro _
    apply Cleanly.accept_bind
    · intro y more hy hsuper
      apply Cleanly.call_bind
      intro bound t _ ht _ _
      exact hbound hx hquestion hy (by rw [hsuper]; rfl) ht fun vs us hvs hus =>
        .wildcardSuper hvs hquestion hsuper hus
    · intro _ _
      refine hannotations.trans (.one hx (by rw [hquestion]; rfl)) ?_
      rintro vs _ hvs rfl
      exact .wildcard hvs hquestion
  · intro _
    apply Cleanly.call_bind
    intro type t _ htype _ _
    refine hannotations.trans htype fun vs us hvs hus => ?_
    cases hus with
    | type hannotated hbare =>
      rw [← List.append_assoc]
      exact .typeArg (.type (hvs.append hannotated) hbare)

theorem typeArgList_spelled : typeArgList.Ensures setting (clean setting typeSpelling) inLabels s
    (Cleanly (typeSpelling s .typeArgList)) := by
  unfold typeArgList
  apply Cleanly.bind typeArg_spelled
  intro first t _ hfirst
  apply Cleanly.accept_bind
  · intro x rest hx hcomma
    apply Cleanly.call_bind
    intro others u _ hothers _ _
    refine hfirst.trans ((State.Takes.one hx (by rw [hcomma]; rfl)).trans hothers
      (R := fun vs => ∃ us, vs = x.word :: us ∧ Spells (.list others) us) ?_) ?_
    · rintro _ us rfl hus
      exact ⟨us, rfl, hus⟩
    · rintro us _ hus ⟨vs, rfl, hvs⟩
      exact .more hus hcomma hvs
  · intro _ _
    exact hfirst.mono fun us hus => .one hus

/-- Nothing may follow a whole type, so its words are all there are. -/
theorem wholeType_spelled : (whole .type .typeExpr).Ensures setting (clean setting typeSpelling)
    inLabels s (Cleanly (typeSpelling s .wholeType)) := by
  unfold whole
  apply Cleanly.attempt_bind
  · intro type t _ htype _
    apply finish_lists.mono
    rintro r u ⟨rfl, -, hend⟩ hfresh
    obtain ⟨us, hus, hspelled⟩ := htype
    have hnil : t.pieces = [] := by
      unfold State.pieces State.words
      rw [hend hfresh]
      rfl
    rw [hnil, List.append_nil] at hus
    exact ⟨type, rfl, hus ▸ hspelled⟩
  · intro error t
    exact Cleanly.report_bind

/-- Each rule spells what its contract says. -/
theorem rule_spelled {β : Type} (nonterminal : Nonterminal β) :
    (rule nonterminal).Ensures setting (clean setting typeSpelling) inLabels s
      (Cleanly (typeSpelling s nonterminal)) := by
  cases nonterminal
  case annot => exact annot_spelled
  case annotations onType => exact annotations_spelled onType
  case type => exact type_spelled
  case typeSegments start outer name diamond => exact typeSegments_spelled start outer name diamond
  case typeArgs => exact typeArgs_spelled
  case typeArgList => exact typeArgList_spelled
  case wholeType => exact wholeType_spelled
  all_goals exact Cleanly.of_forall fun _ _ => trivial

end Rules

/-- What was taken by a run of a rule that ended cleanly. -/
theorem Ran.spelled {setting : Setting} {s t : State} {β : Type} {nonterminal : Nonterminal β}
    {value : β} (h : Ran setting nonterminal s (.ok value) t) (ht : t.IsFresh) :
    typeSpelling s nonterminal value t := by
  obtain ⟨fuel, inLabels, hrun⟩ := h
  exact run_cleanly (fun nonterminal _ _ => rule_spelled nonterminal) hrun ht

/-- A type that is read without a report is spelled by all the words of its source. -/
theorem Session.typeUse_spelled {settings : Settings} {source : Source}
    (hclean : Diagnostic.Clean (start settings source).typeUse.2.diagnostics) :
    ∃ type, (start settings source).typeUse.1 = .typeExpr type ∧
      Spells (.type type) (start settings source).state.pieces := by
  obtain ⟨hrun, -⟩ := @enter_readsAll _ (start settings source) .wholeType
    (.erroneousExpr (.point .eof)) rfl
  exact run_cleanly (fun nonterminal _ _ => rule_spelled nonterminal) (hrun _ (Nat.le_refl _))
    (isFresh_of_clean (after_typeUse _) hclean)

end JavaSyntax
