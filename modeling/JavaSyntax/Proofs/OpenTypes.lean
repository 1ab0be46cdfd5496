import JavaSyntax.Proofs.Cleanly
import JavaSyntax.Proofs.Openings

/-!
What clean runs say about the symbols that they start from. A file opens with the construct that its
first item is. An expression opens nothing, provided that what follows it could not make a name open
something; the loops behind an operand carry this back over what they take. The rules here are those
of annotations, modifiers and types.
-/

namespace JavaSyntax

open Grammar Rule
open Lookahead (next nextOneOf nextWord)
open Leading

/-- What an item is called. -/
def UnitItem.label : UnitItem → String
  | .package _ => Leading.packageClause.label
  | .import _ => Leading.importClause.label
  | .module _ => Leading.moduleDecl.label
  | .form top => top.kind

/-- Whether an item is a stray semicolon. -/
def UnitItem.isStray : UnitItem → Bool
  | .form (.empty _) => true
  | _ => false

/-- What the symbols ahead open when a nonterminal that starts there ends cleanly. -/
def Nonterminal.Opens (setting : Setting) (s : State) :
    {β : Type} → Nonterminal β → β → State → Prop
  | _, .annot => fun _ t => Fine setting.layout s → next [.dot] t.ahead = false →
      opening s.ahead = opening t.ahead
  | _, .annotations _ => fun _ t => (next [.atSign] s.ahead = false → t = s) ∧
      (Fine setting.layout s → next [.dot] t.ahead = false → opening s.ahead = opening t.ahead)
  | _, .modifierRun => fun _ t => (next [.dot] s.ahead = true → t = s) ∧
      (Fine setting.layout s → next [.dot] t.ahead = false → opening s.ahead = opening t.ahead)
  | _, .type => fun _ t => (opening t.ahead = none → Lone s.ahead) ∧
      (Fine setting.layout s ∨ next [.atSign] s.ahead = false → MayFollow t.ahead →
        opening s.ahead = none)
  | _, .typeSegments _ _ _ _ => fun _ t => (MayFollow t.ahead → MayFollow s.ahead) ∧
      (opening t.ahead = none → opening s.ahead = none)
  | _, .typeArgs => fun _ _ => MayFollow s.ahead
  | _, .typeArgList => fun _ t => opening t.ahead = none → Lone s.ahead
  | _, .expr => fun _ t => MayFollow t.ahead → opening s.ahead = none
  | _, .conditional => fun _ t => MayFollow t.ahead → opening s.ahead = none
  | _, .binary _ => fun _ t => MayFollow t.ahead → opening s.ahead = none
  | _, .binaryRest _ _ _ => fun _ t => MayFollow t.ahead → MayFollow s.ahead
  | _, .unary => fun _ t => MayFollow t.ahead → opening s.ahead = none
  | _, .selectors _ _ => fun _ t => MayFollow t.ahead → MayFollow s.ahead
  | _, .steps _ _ => fun _ t => MayFollow t.ahead → MayFollow s.ahead
  | _, .lambda => fun _ t => MayFollow t.ahead → opening s.ahead = none
  | _, .exprList => fun _ t => MayFollow t.ahead → opening s.ahead = none
  | _, .typeDecl _ => fun decl _ => ∃ k, opening s.ahead = some k ∧ k.label = decl.declKind
  | _, .item => fun item _ => Fine setting.layout s → item.isStray = false →
      ∃ k, opening s.ahead = some k ∧ k.label = item.label
  | _, .wholeExpr => fun _ _ => opening s.ahead = none
  | _, .wholeType => fun _ _ => Fine setting.layout s → opening s.ahead = none
  | _, _ => fun _ _ => True

/-- The contract of what clean runs open. -/
def opens (setting : Setting) : Contract :=
  clean setting fun s => Nonterminal.Opens setting s

section Rules

variable {setting : Setting} {inLabels : Bool} {s : State}

/-! Annotations and modifiers. -/

/-- A clean call takes whole groups of parentheses. -/
theorem Ran.counts {c : Category} {nonterminal : Nonterminal (Tree c)} {tree : Tree c} {t : State}
    (h : Ran setting nonterminal s (.ok tree) t) (hs : Fine setting.layout s)
    (hbegun : nonterminal.Begun setting s s)
    (hreading : nonterminal.Reading setting s = Taken setting anywhere s) (ht : t.IsFresh)
    {γ : Type} {F : Nat → List Symbol → γ} (hF : CountsParens F) (n : Nat) :
    F (n + 1) s.ahead = F (n + 1) t.ahead := by
  have hends : nonterminal.Reading setting s tree t := h.reads hs hbegun
  rw [hreading] at hends
  exact hends.soFar.level ht F hF n

theorem counts_skipGroup : CountsParens (Resync.skipGroup .lparen .rparen) where
  plain := by
    intro depth x rest hx
    have hopen : x.kind ≠ .lparen := by
      intro hk
      simp [hk, isParen] at hx
    have hclose : x.kind ≠ .rparen := by
      intro hk
      simp [hk, isParen] at hx
    simp [Resync.skipGroup, hopen, hclose]
  opens := by
    intro depth x rest hx
    simp [Resync.skipGroup, hx]
  closes := by
    intro depth x rest hx
    simp [Resync.skipGroup, hx]

theorem annot_opens : annot.Ensures setting (opens setting) inLabels s
    (Cleanly (Nonterminal.annot.Opens setting s)) := by
  unfold annot
  rw [ensures_mark_bind]
  apply Cleanly.expect_bind
  intro a ts hahead ha
  apply Cleanly.bind Cleanly.qualifiedName
  rintro name t - ⟨x, rest, hname, hx, rfl⟩
  have hts : ts = x :: rest := by simpa [hahead] using hname
  subst hts
  generalize hm : ((s.advance 1).advance 1).advance (2 * (Lookahead.dottedTail rest).length) = m
  have hafter : m.ahead = rest.drop (2 * (Lookahead.dottedTail rest).length) := by
    simp [← hm, hahead]
  have hfine (hs : Fine setting.layout s) : Fine setting.layout m := by
    rw [← hm]
    exact ((hs.advance 1).advance 1).advance _
  apply Cleanly.accept_bind
  · intro y more hy hparen
    rw [if_pos rfl, ensures_ahead_bind]
    -- What stands between the parentheses has whole groups only, so the first one closes there.
    have hclose (elements : Tree (.list .element)) (u : State) (hgroup : Fine setting.layout s →
        Resync.skipGroup .lparen .rparen 1 (m.advance 1).ahead =
          Resync.skipGroup .lparen .rparen 1 u.ahead) :
        (expect .rparen >>= fun _ => since s.mark >>= fun e =>
          pure (Tree.annot name elements e)).Ensures setting (opens setting) inLabels u
            (Cleanly (Nonterminal.annot.Opens setting s)) := by
      apply Cleanly.expect_bind
      intro z after hu hz _ hs _
      have hskip := hgroup hs
      rw [hafter] at hy
      rw [hahead, opening_annot ha hx, skipAnnot_parens hx hy hparen]
      simp only [State.advance_ahead, hafter, hy, hu, List.drop_succ_cons,
        List.drop_zero] at hskip ⊢
      rw [hskip]
      simp [Resync.skipGroup, hz]
    split
    · apply Cleanly.call_bind
      intro elements u hu _ hran
      apply hclose
      intro hs
      exact hran.counts ((hfine hs).advance 1) rfl rfl hu counts_skipGroup 0
    · split
      · apply hclose
        intro _
        rfl
      · apply Cleanly.call_bind
        intro value u hu _ hran
        apply hclose
        intro hs
        exact hran.counts ((hfine hs).advance 1) rfl rfl hu counts_skipGroup 0
  · intro hparen _ hs hdot
    rw [hafter] at hparen
    have hdot' : next [.dot] (rest.drop (2 * (Lookahead.dottedTail rest).length)) = false := by
      rw [← hafter]
      exact hdot
    rw [hahead, opening_annot ha hx, skipAnnot_name hx hdot' hparen, ← hafter]

theorem annotations_opens (onType : Bool) : (annotations onType).Ensures setting (opens setting)
    inLabels s (Cleanly ((Nonterminal.annotations onType).Opens setting s)) := by
  unfold annotations
  rw [ensures_ahead_bind]
  split
  · rename_i hat
    apply Cleanly.call_bind
    intro first m hm hfirst hran
    apply Cleanly.call_bind
    intro rest t _ hrest _ _
    refine ⟨fun hnone => ?_, fun hs hdot => ?_⟩
    · simp [hnone] at hat
    · have hread : Taken setting anywhere s first m := hran.reads hs rfl
      rw [hfirst hs ?_, hrest.2 hread.soFar.fine hdot]
      -- A dot behind the first annotation would end the run, and so be there at its end.
      cases hnext : next [.dot] m.ahead with
      | false => rfl
      | true =>
        obtain ⟨x, more, hahead, hx⟩ := SoFar.ahead_of_next hnext
        have hsame : t = m := hrest.1 (by simp [hahead, next, hx])
        rw [hsame, hnext] at hdot
        cases hdot
  · exact fun _ => ⟨fun _ => rfl, fun _ _ => rfl⟩

theorem isModifier_of_modifier? {k : Kind} {m : Modifier} (h : modifier? k = some m) :
    k.isModifier = true := by
  cases k <;> first | rfl | cases h

/-- A modifier opens what stands behind it. -/
theorem opening_nextModifier {ts : List Symbol} {m : Modifier} {n : Nat}
    (h : nextModifier ts = some (m, n)) : opening ts = opening (ts.drop n) := by
  unfold nextModifier at h
  split at h
  · rename_i hlookup
    cases h
    cases ts with
    | nil => cases hlookup
    | cons x rest => exact opening_modifier (isModifier_of_modifier? hlookup)
  · split at h
    · rename_i hsealed
      cases h
      rcases ts with _ | ⟨x, _ | ⟨y, rest⟩⟩
      · cases hsealed
      · cases hsealed
      · simp only [Lookahead.isSealed, Bool.and_eq_true] at hsealed
        exact opening_sealed hsealed.1
    · split at h
      · rename_i hnon
        cases h
        rcases ts with _ | ⟨x, _ | ⟨y, _ | ⟨z, rest⟩⟩⟩
        · cases hnon
        · cases hnon
        · cases hnon
        · simp only [Lookahead.isNonSealed, Bool.and_eq_true] at hnon
          exact opening_nonSealed hnon.1.1.1.1 hnon.1.1.2
      · cases h

theorem nextModifier_dot {x : Symbol} {rest : List Symbol} (hx : x.kind = .dot) :
    nextModifier (x :: rest) = none := by
  have hword (word : String) : x.isWord word = false := by simp [Symbol.isWord, hx]
  have hsealed : Lookahead.isSealed (x :: rest) = false := by
    cases rest <;> simp [Lookahead.isSealed, hword]
  have hnon : Lookahead.isNonSealed (x :: rest) = false := by
    rcases rest with _ | ⟨y, _ | ⟨z, more⟩⟩
    · rfl
    · rfl
    · simp [Lookahead.isNonSealed, hword]
  simp [nextModifier, lookup, hx, modifier?, hsealed, hnon]

theorem modifierRun_opens : modifierRun.Ensures setting (opens setting) inLabels s
    (Cleanly (Nonterminal.modifierRun.Opens setting s)) := by
  unfold modifierRun
  rw [ensures_ahead_bind]
  split
  · rename_i hat
    apply Cleanly.call_bind
    intro first m hm hfirst hran
    apply Cleanly.call_bind
    intro rest t ht hrest hagain _
    refine ⟨fun hdot => ?_, fun hs hdot => ?_⟩
    · obtain ⟨x, more, hahead, hx⟩ := SoFar.ahead_of_next hdot
      simp [hahead, next, hx] at hat
    · have hread : Taken setting anywhere s first m := hran.reads hs rfl
      rw [hfirst hs ?_, hrest.2 hread.soFar.fine hdot]
      cases hnext : next [.dot] m.ahead with
      | false => rfl
      | true =>
        rw [hrest.1 hnext, hnext] at hdot
        cases hdot
  · split
    · rename_i m n hmod
      rw [ensures_advance_bind]
      apply Cleanly.call_bind
      intro rest t _ hrest _ _
      refine ⟨fun hdot => ?_, fun hs hdot => ?_⟩
      · obtain ⟨x, more, hahead, hx⟩ := SoFar.ahead_of_next hdot
        rw [hahead, nextModifier_dot hx] at hmod
        cases hmod
      · rw [opening_nextModifier hmod, ← State.advance_ahead]
        exact hrest.2 (hs.advance n) hdot
    · exact fun _ => ⟨fun _ => rfl, fun _ _ => rfl⟩

/-! Types. -/

theorem inner_closesAngle {ts : List Symbol} (h : closesAngle ts = true) : Inner ts := by
  cases ts with
  | nil => cases h
  | cons x rest =>
    apply inner_cons
    have hx : x.kind ∈ [.greater, .shr, .ushr, .greaterEqual, .shrAssign, .ushrAssign] := by
      simpa [closesAngle, nextOneOf] using h
    revert hx
    cases x.kind <;> decide

theorem closeAngle_opens : closeAngle.Ensures setting (opens setting) inLabels s
    (Cleanly fun _ _ => closesAngle s.ahead = true) := by
  unfold closeAngle
  rw [ensures_view_bind, State.view_ahead]
  split
  · rename_i hnext
    obtain ⟨x, rest, hahead, hx⟩ := SoFar.ahead_of_next hnext
    exact fun _ => by simp [hahead, closesAngle, nextOneOf, hx]
  · split
    · rename_i hnext
      intro _
      cases hahead : s.ahead with
      | nil => simp [hahead, nextOneOf] at hnext
      | cons x rest =>
        rw [hahead] at hnext
        simp only [closesAngle, nextOneOf, List.contains_cons, Bool.or_eq_true] at hnext ⊢
        exact .inr hnext
    · trivial

theorem typeArgs_opens : typeArgs.Ensures setting (opens setting) inLabels s
    (Cleanly (Nonterminal.typeArgs.Opens setting s)) := by
  unfold typeArgs
  apply Cleanly.expect_bind
  intro x rest hahead hx
  have hends (hlone : Lone rest) : MayFollow s.ahead := by
    rw [hahead]
    exact hlone.mayFollow (by simp [hx, isInner, Kind.isModifier])
  have hrest : (s.advance 1).ahead = rest := by simp [hahead]
  rw [ensures_ahead_bind, hrest]
  cases hcloses : closesAngle rest with
  | true =>
    apply Cleanly.of_forall
    intro args t
    exact hends (inner_closesAngle hcloses).lone
  | false =>
    apply Cleanly.call_bind
    intro args u _ hargs _
    apply Cleanly.bind closeAngle_opens
    intro _ t _ hclosed _
    rw [← hrest] at hends
    exact hends (hargs (inner_closesAngle hclosed).opening_eq_none)

theorem lone_of_next {k : Kind} {ts : List Symbol} (h : next [k] ts = true) (hk : k ≠ .identifier) :
    Lone ts := by
  apply lone_of_not_identifier
  cases ts with
  | nil => rfl
  | cons x rest =>
    have hx : x.kind = k := by simpa [next] using h
    simp [next, hx, hk]

/-- One argument, of which only a plain type could start with a name. -/
theorem typeArg_opens : typeArg.Ensures setting (opens setting) inLabels s
    (Cleanly fun _ t => opening t.ahead = none → Lone s.ahead) := by
  unfold typeArg
  rw [ensures_mark_bind]
  cases hat : next [.atSign] s.ahead with
  | true =>
    apply Cleanly.of_forall
    intro _ _ _
    exact lone_of_next hat (by decide)
  | false =>
    apply Cleanly.call_bind
    intro annotations m _ hsame _
    have hm : m = s := hsame.1 hat
    rw [hm]
    apply Cleanly.accept_bind
    · intro x rest hahead hx
      apply Cleanly.of_forall
      intro _ _ _
      exact lone_of_next (k := .question) (by simp [hahead, next, hx]) (by decide)
    · intro _
      apply Cleanly.call_bind
      intro type t _ htype _ _
      exact htype.1

theorem typeArgList_opens : typeArgList.Ensures setting (opens setting) inLabels s
    (Cleanly (Nonterminal.typeArgList.Opens setting s)) := by
  unfold typeArgList
  apply Cleanly.bind typeArg_opens
  intro first m _ hfirst
  apply Cleanly.accept_bind
  · intro x rest hahead hx
    apply Cleanly.of_forall
    intro _ _ _
    apply hfirst
    rw [hahead]
    exact (inner_cons (by simp [hx, isInner, Kind.isModifier])).opening_eq_none
  · intro _ _
    exact hfirst

theorem typeSegments_opens (start : Mark) (outer : Tree (.option .type)) (name : String)
    (diamond : Bool) :
    (typeSegments start outer name diamond).Ensures setting (opens setting) inLabels s
      (Cleanly ((Nonterminal.typeSegments start outer name diamond).Opens setting s)) := by
  unfold typeSegments
  rw [ensures_check_bind]
  cases hless : next [.less] s.ahead with
  | true =>
    apply Cleanly.call_bind
    intro args m _ hargs _
    apply Cleanly.of_forall
    intro _ _
    exact ⟨fun _ => hargs, fun _ => hargs.inner.opening_eq_none⟩
  | false =>
    change Ensures _ _ _ (pure Tree.nil >>= _) _ _
    rw [ensures_pure_bind, ensures_ahead_bind]
    split
    · rename_i hdot
      have hnext : next [.dot] s.ahead = true := by
        cases hahead : s.ahead with
        | nil => simp [hahead, next] at hdot
        | cons x rest =>
          simp only [hahead, next, Bool.or_eq_true, Bool.and_eq_true] at hdot
          simp [next, hdot.elim And.left And.left]
      obtain ⟨x, rest, hahead, hx⟩ := SoFar.ahead_of_next hnext
      have hinner : isInner x.kind = true := by rw [hx]; rfl
      have hnone : opening s.ahead = none := by
        rw [hahead]
        exact (inner_cons hinner).opening_eq_none
      have hends (hlone : Lone rest) : MayFollow s.ahead := by
        rw [hahead]
        exact hlone.mayFollow hinner
      have hrest : (s.advance 1).ahead = rest := by simp [hahead]
      rw [ensures_advance_bind]
      cases hat : next [.atSign] rest with
      | true =>
        apply Cleanly.of_forall
        intro _ _
        exact ⟨fun _ => hends (lone_of_next hat (by decide)), fun _ => hnone⟩
      | false =>
        apply Cleanly.call_bind
        intro annotations m _ hsame _
        rw [hsame.1 (by rw [hrest, hat])]
        apply Cleanly.identifier_bind
        intro y more hy hyk
        apply Cleanly.call
        intro type t _ htype _
        refine ⟨fun ht => hends ?_, fun _ => hnone⟩
        rw [← hrest, hy]
        have hmore := htype.1 ht
        rw [State.advance_ahead, hy] at hmore
        exact hmore.lone_name hyk
    · exact fun _ => ⟨fun h => h, fun h => h⟩

/-- Brackets behind a type take nothing from what may follow it. -/
theorem mayFollow_dims (s : State) :
    (MayFollow (s.advance (2 * Lookahead.dims s.ahead)).ahead → MayFollow s.ahead) ∧
      (opening (s.advance (2 * Lookahead.dims s.ahead)).ahead = none →
        opening s.ahead = none) := by
  rw [State.advance_ahead]
  match s.ahead with
  | [] | [x] => exact ⟨fun h => h, fun h => h⟩
  | x :: y :: rest =>
    by_cases hpair : x.kind = .lbracket ∧ y.kind = .rbracket
    · have hx : isInner x.kind = true := by rw [hpair.1]; rfl
      have hy : isInner y.kind = true := by rw [hpair.2]; rfl
      exact ⟨fun _ => (inner_cons hy).lone.mayFollow hx,
        fun _ => (inner_cons hx).opening_eq_none⟩
    · have hzero : Lookahead.dims (x :: y :: rest) = 0 := by simp [Lookahead.dims, hpair]
      rw [hzero]
      exact ⟨fun h => h, fun h => h⟩

theorem type_opens : type.Ensures setting (opens setting) inLabels s
    (Cleanly (Nonterminal.type.Opens setting s)) := by
  unfold type
  rw [ensures_mark_bind]
  apply Cleanly.call_bind
  intro annotations m _ hannotations hran
  -- What is known of the type behind its annotations is known of the whole.
  have hwhole (tree : Tree .type) (t : State) (hdot : next [.dot] m.ahead = false)
      (hlone : opening t.ahead = none → Lone m.ahead)
      (hnone : MayFollow t.ahead → opening m.ahead = none) :
      Nonterminal.type.Opens setting s tree t := by
    cases hat : next [.atSign] s.ahead with
    | true =>
      refine ⟨fun _ => lone_of_next hat (by decide), fun hs ht => ?_⟩
      rcases hs with hs | hs
      · rw [hannotations.2 hs hdot]
        exact hnone ht
      · rw [hat] at hs
        cases hs
    | false =>
      rw [hannotations.1 hat] at hlone hnone
      exact ⟨hlone, fun _ => hnone⟩
  rw [ensures_view_bind, State.view_ahead]
  split
  · rename_i hnext
    obtain ⟨x, rest, hm, hx⟩ := SoFar.ahead_of_next hnext
    apply Cleanly.takeText_bind hm
    apply Cleanly.call_bind
    intro named u _ hsegments _
    apply Cleanly.bind Cleanly.dims
    rintro n t - rfl _
    obtain ⟨hends, hnone⟩ := mayFollow_dims u
    have hrest : (m.advance 1).ahead = rest := by simp [hm]
    obtain ⟨hends', hnone'⟩ := hsegments
    rw [hrest] at hends' hnone'
    apply hwhole
    · simp [hm, next, hx]
    · intro ht hword
      rw [hm] at hword ⊢
      rw [opening_sealed hword]
      exact hnone' (hnone ht)
    · intro ht
      rw [hm]
      exact (hends' (hends ht)).opening_name hx
  · split
    · rename_i hprimitive
      have hinner : Inner m.ahead := by
        intro x hx
        rw [hx] at hprimitive
        revert hprimitive
        simp only [Option.any_some]
        cases x.kind <;> decide
      apply Cleanly.of_forall
      intro tree t
      apply hwhole
      · cases hm : m.ahead with
        | nil => rfl
        | cons x rest =>
          rw [hm] at hprimitive
          have hx : x.kind ≠ .dot := by
            intro hx
            simp [hx, Kind.isPrimitive] at hprimitive
          simp [next, hx]
      · exact fun _ => hinner.lone
      · exact fun _ => hinner.opening_eq_none
    · trivial

end Rules

end JavaSyntax
