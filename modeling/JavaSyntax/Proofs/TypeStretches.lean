import JavaSyntax.Proofs.Offsets
import JavaSyntax.Proofs.TypeSoundness

/-!
Which stretch of the text a type records. A type ends where the last whole token ends that was taken
for it, so that a closing bracket that is part of a longer token is outside; and a type around
another one is closed only when the name of the other has been read.
-/

namespace JavaSyntax

open Grammar Rule

/-- The extent is the stretch between two states, and between them pieces of this form were taken:
whole tokens, and then `n` closing brackets off the next one. -/
def Covers (setting : Setting) (e : Extent) (n : Nat) (P : List Word → Prop) : Prop :=
  ∃ first last, Placed setting.layout first ∧ Reaches setting first last ∧ e = first.upTo last ∧
    last.taken = n ∧ first.Takes P last

namespace Tree

def isOption : {c : Category} → Tree c → Bool
  | .option _, _ => true
  | _, _ => false

/-- A type covers the pieces that spell it, or if it is around another one, those of a type around
which it is. -/
def Located (setting : Setting) (isOuter : Bool) : {c : Category} → Tree c → Prop
  | .type, tree@(.type _ _ _ _ _ _ e) =>
    if isOuter then
      ∃ next, Covers setting e 0 (Spells (.type (.type (.some tree) next .nil false .nil 0 e)) ·)
    else ∃ n, Covers setting e n (Spells (.type tree) ·)
  | _, _ => True

/-- All types in a tree cover their pieces. -/
def Spanned (setting : Setting) {c : Category} (tree : Tree c) (isOuter : Bool) : Prop :=
  tree.Every (fun _ {_} t => t.isOption) (fun isOuter {_} t => t.Located setting isOuter) isOuter

end Tree

/-- Segments without arguments behind them are a type. -/
theorem Spells.bare_type {outer : Tree (.option .type)} {name : String} {diamond : Bool}
    {us : List Word} (h : Spells (.segments outer name diamond) us) {e : Extent} :
    Spells (.type (.type outer name .nil diamond .nil 0 e)) us := by
  have hbare : Spells (.bare (.type outer name .nil diamond .nil 0 e)) (us ++ ([] ++ [])) :=
    .classType h .closed .zero
  rw [List.append_nil, List.append_nil] at hbare
  exact .type Markers.nil.annotates hbare

/-- The state is placed, and no annotation can come. -/
structure State.Plain (setting : Setting) (s : State) : Prop where
  placed : Placed setting.layout s
  unmarked : ∀ w ∈ s.pieces, w.1 ≠ .atSign

/-- The segments of a class type that were read from `first` on. -/
structure Segmented (setting : Setting) (start : Mark) (outer : Tree (.option .type))
    (name : String) (diamond : Bool) (first s : State) : Prop where
  plain : first.Plain setting
  way : Reaches setting first s
  start : start = first.mark
  spelled : first.Takes (Spells (.segments outer name diamond) ·) s
  outer : outer.Spanned setting false

/-- What a rule of types that ends cleanly says of extents. -/
def typeStretches (setting : Setting) (s : State) :
    {β : Type} → Nonterminal β → β → State → Prop
  | _, .type => fun tree t => s.Plain setting →
      ∃ outer name args diamond n, tree = .type outer name args diamond .nil n (s.upTo t) ∧
        outer.Spanned setting false ∧ args.Spanned setting false
  | _, .typeSegments start outer name diamond => fun tree _ =>
      (∃ first, Segmented setting start outer name diamond first s) →
        ∃ outer' name' args diamond' e, tree = .type outer' name' args diamond' .nil 0 e ∧
          outer'.Spanned setting false ∧ args.Spanned setting false
  | _, .typeArgs => fun args _ => s.Plain setting → args.Spanned setting false
  | _, .typeArgList => fun args _ => s.Plain setting → args.Spanned setting false
  | _, .wholeType => fun tree _ => s.Plain setting →
      ∃ type, tree = .typeExpr type ∧ type.Spanned setting false
  | _, _ => fun _ _ => True

namespace State.Plain

variable {setting : Setting} {s t : State}

theorem reaches (h : s.Plain setting) (hr : Reaches setting s t) : t.Plain setting where
  placed := h.placed.reaches hr
  unmarked w hw :=
    h.unmarked w ((hr.kept (kept_suffix setting s) List.suffix_rfl).subset hw)

/-- Where no annotation can come none is read. -/
theorem annotations (h : s.Plain setting) {onType : Bool} {annotations : Tree (.list .annot)}
    (hran : Ran setting (.annotations onType) s (.ok annotations) t) (ht : t.IsFresh) :
    annotations = .nil ∧ s.pieces = t.pieces := by
  obtain ⟨us, hus, hannotates⟩ : s.Takes (Annotates annotations) t := hran.spelled ht
  obtain ⟨rfl, rfl⟩ :=
    hannotates.eq_nil fun w hw => h.unmarked w (hus ▸ List.mem_append_left _ hw)
  exact ⟨rfl, hus⟩

end State.Plain

namespace Tree

variable {setting : Setting} {c : Category} {isOuter : Bool}

theorem spanned_nil : (.nil : Tree (.list c)).Spanned setting isOuter :=
  .mk trivial nofun

theorem spanned_none : (.none : Tree (.option c)).Spanned setting isOuter :=
  .mk trivial nofun

theorem Spanned.cons {head : Tree c} {tail : Tree (.list c)} (h : head.Spanned setting false)
    (h' : tail.Spanned setting false) : (Tree.cons head tail).Spanned setting isOuter :=
  .mk trivial (List.forall_mem_cons.mpr ⟨h, List.forall_mem_singleton.mpr h'⟩)

theorem Spanned.type {outer : Tree (.option .type)} {name : String} {args : Tree (.list .typeArg)}
    {diamond : Bool} {n : Nat} {e : Extent}
    (h : (Tree.type outer name args diamond .nil n e).Located setting isOuter)
    (houter : outer.Spanned setting false) (hargs : args.Spanned setting false) :
    (Tree.type outer name args diamond .nil n e).Spanned setting isOuter :=
  .mk h (List.forall_mem_cons.mpr
    ⟨spanned_nil, List.forall_mem_cons.mpr ⟨houter, List.forall_mem_singleton.mpr hargs⟩⟩)

/-- The parts of a bounded wildcard without annotations. -/
theorem spanned_bound {bound : Tree .type} (h : bound.Spanned setting false) :
    ∀ p ∈ [(⟨.list .annot, .nil⟩ : Σ c, Tree c), ⟨.type, bound⟩], p.2.Spanned setting false :=
  List.forall_mem_cons.mpr ⟨spanned_nil, List.forall_mem_singleton.mpr h⟩

end Tree

section Rules

variable {setting : Setting} {inLabels : Bool} {s : State}

/-- What is assumed of the state before is assumed once. -/
theorem Cleanly.assuming {L : State → {β : Type} → Nonterminal β → β → State → Prop} {β : Type}
    {rule : Rule β} {A : Prop} {P : β → State → Prop}
    (h : A → rule.Ensures setting (clean setting @L) inLabels s (Cleanly P)) :
    rule.Ensures setting (clean setting @L) inLabels s (Cleanly fun value t => A → P value t) := by
  by_cases hA : A
  · exact Cleanly.mono (h hA) fun value t _ hP _ => hP
  · exact Cleanly.of_forall fun value t hA' => absurd hA' hA

/-- A type that was read, with what its contract says, covers its pieces. -/
theorem typeStretches.spanned {tree : Tree .type} {t : State}
    (h : typeStretches setting s .type tree t) (hs : s.Plain setting)
    (hran : Ran setting .type s (.ok tree) t) (ht : t.IsFresh) : tree.Spanned setting false := by
  obtain ⟨outer, name, args, diamond, n, rfl, houter, hargs⟩ := h hs
  have hspelled : s.Takes (Spells (.type _) ·) t := hran.spelled ht
  exact .type ⟨_, s, t, hs.placed, hran.runs.reaches, rfl, rfl, hspelled⟩ houter hargs

theorem type_stretches : type.Ensures setting (clean setting (typeStretches setting)) inLabels s
    (Cleanly (typeStretches setting s .type)) := by
  apply Cleanly.assuming
  intro hplain
  unfold type
  rw [ensures_mark_bind]
  apply Cleanly.call_bind
  intro annotations m hm _ hran
  obtain ⟨rfl, hsame⟩ := hplain.annotations hran hm
  rw [ensures_view_bind, State.view_ahead]
  split
  · rename_i hnext
    obtain ⟨x, rest, hx, hname⟩ := SoFar.ahead_of_next hnext
    apply Cleanly.takeText_bind hx
    apply Cleanly.call_bind
    intro named u _ hnamed _
    obtain ⟨us, hus, hone⟩ := State.Takes.one hx (by rw [hname]; rfl)
    obtain ⟨outer, name, args, diamond, e, rfl, houter, hargs⟩ := hnamed ⟨s, {
      plain := hplain
      way := hran.runs.reaches.trans (.step (.advance 1))
      start := rfl
      spelled := ⟨us, hsame.trans hus, hone ▸ .first (w := x.word) hname⟩
      outer := Tree.spanned_none }⟩
    apply Cleanly.any_bind
    intro n t _
    exact ⟨outer, name, args, diamond, n, rfl, houter, hargs⟩
  split
  · rename_i hprimitive
    obtain ⟨x, hx, -⟩ := (Option.any_eq_true _ _).mp hprimitive
    obtain ⟨rest, hahead⟩ := List.head?_eq_some_iff.mp hx
    apply Cleanly.takeText_bind hahead
    rw [ensures_pure_bind]
    apply Cleanly.any_bind
    intro n t _
    exact ⟨.none, x.text, .nil, false, n, rfl, Tree.spanned_none, Tree.spanned_nil⟩
  · trivial

theorem typeArgs_stretches :
    typeArgs.Ensures setting (clean setting (typeStretches setting)) inLabels s
      (Cleanly (typeStretches setting s .typeArgs)) := by
  apply Cleanly.assuming
  intro hplain
  unfold typeArgs
  apply Cleanly.expect_bind
  intro x rest hx _
  rw [ensures_ahead_bind]
  cases closesAngle (s.advance 1).ahead with
  | true =>
    rw [Bool.not_true, listIf_false, ensures_pure_bind]
    apply Cleanly.any_bind
    intro _ t _
    exact Tree.spanned_nil
  | false =>
    apply Cleanly.call_bind
    intro args t _ hargs _
    apply Cleanly.any_bind
    intro _ u _
    exact hargs (hplain.reaches (.step (.advance 1)))

theorem typeArg_stretches :
    typeArg.Ensures setting (clean setting (typeStretches setting)) inLabels s
      (Cleanly fun arg t => s.Plain setting → arg.Spanned setting false ∧ t.Plain setting) := by
  apply Cleanly.assuming
  intro hplain
  unfold typeArg
  rw [ensures_mark_bind]
  apply Cleanly.call_bind
  intro annotations m hm _ hran
  obtain ⟨rfl, hsame⟩ := hplain.annotations hran hm
  have hway : Reaches setting s m := hran.runs.reaches
  apply Cleanly.accept_bind
  · intro x rest _ _
    have hquestion := hplain.reaches (hway.trans (.step (.advance 1)))
    apply Cleanly.accept_bind
    · intro y more _ _
      have hextends := hquestion.reaches (.step (.advance 1))
      apply Cleanly.call_bind
      intro bound t ht hbound hran'
      exact fun _ => ⟨.mk trivial (Tree.spanned_bound (hbound.spanned hextends hran' ht)),
        hextends.reaches hran'.runs.reaches⟩
    intro _
    apply Cleanly.accept_bind
    · intro y more _ _
      have hsuper := hquestion.reaches (.step (.advance 1))
      apply Cleanly.call_bind
      intro bound t ht hbound hran'
      exact fun _ => ⟨.mk trivial (Tree.spanned_bound (hbound.spanned hsuper hran' ht)),
        hsuper.reaches hran'.runs.reaches⟩
    · intro _ _
      exact ⟨.mk trivial (List.forall_mem_singleton.mpr Tree.spanned_nil), hquestion⟩
  · intro _
    apply Cleanly.call_bind
    intro type t ht htype hran'
    have hm := hplain.reaches hway
    obtain ⟨outer, name, args, diamond, n, rfl, houter, hargs⟩ := htype hm
    obtain ⟨us, hus, hspelled⟩ : m.Takes (Spells (.type _) ·) t := hran'.spelled ht
    -- The argument gives its type the extent that starts in front of the annotations.
    refine fun _ => ⟨.mk trivial (List.forall_mem_singleton.mpr ?_), hm.reaches hran'.runs.reaches⟩
    refine Tree.Spanned.type ⟨_, s, t, hplain.placed, hway.trans hran'.runs.reaches, rfl, rfl, us,
      hsame.trans hus, ?_⟩ houter hargs
    cases hspelled with
    | type hannotated hbare => exact .type hannotated hbare

theorem typeArgList_stretches :
    typeArgList.Ensures setting (clean setting (typeStretches setting)) inLabels s
      (Cleanly (typeStretches setting s .typeArgList)) := by
  apply Cleanly.assuming
  intro hplain
  unfold typeArgList
  apply Cleanly.bind typeArg_stretches
  intro first t _ hfirst
  obtain ⟨hspanned, ht⟩ := hfirst hplain
  apply Cleanly.accept_bind
  · intro x rest _ _
    apply Cleanly.call_bind
    intro others u _ hothers _ _
    exact .cons hspanned (hothers (ht.reaches (.step (.advance 1))))
  · intro _ _
    exact .cons hspanned Tree.spanned_nil

/-- Arguments that are given cover theirs, and those that are not are none. -/
theorem givenArgs_stretches (opened : Bool) : (listIf opened (Grammar.call .typeArgs)).Ensures
    setting (clean setting (typeStretches setting)) inLabels s (Cleanly fun args t =>
      s.Takes (Spells (.args opened args) ·) t ∧ Reaches setting s t ∧
        (s.Plain setting → args.Spanned setting false)) := by
  cases opened with
  | false => exact fun _ => ⟨.nothing .closed, .refl _, fun _ => Tree.spanned_nil⟩
  | true =>
    exact Cleanly.call fun args t ht hargs hran => ⟨hran.spelled ht, hran.runs.reaches, hargs⟩

theorem typeSegments_stretches (start : Mark) (outer : Tree (.option .type)) (name : String)
    (diamond : Bool) : (typeSegments start outer name diamond).Ensures setting
      (clean setting (typeStretches setting)) inLabels s
      (Cleanly (typeStretches setting s (.typeSegments start outer name diamond))) := by
  apply Cleanly.assuming
  rintro ⟨first, hbegun⟩
  unfold typeSegments
  rw [ensures_check_bind]
  apply Cleanly.bind (givenArgs_stretches _)
  rintro args t _ ⟨hargs, hway, hspanned⟩
  replace hspanned := hspanned (hbegun.plain.reaches hbegun.way)
  generalize Lookahead.next [.less] s.ahead = opened at hargs
  rw [ensures_ahead_bind]
  split
  · rename_i hdot
    obtain ⟨x, rest, hahead, hx⟩ := Lookahead.dot_of_segment hdot
    have hdotted : x.word.1 = .dot := hx
    rw [ensures_advance_bind]
    apply Cleanly.call_bind
    intro annotations u hu _ hran
    apply Cleanly.identifier_bind
    intro y more hy hname
    have hsegment := hargs.segment hahead hx (hran.spelled hu) hy hname
    have honward : Reaches setting first (u.advance 1) := (hbegun.way.trans hway).trans
      ((Reaches.step (.advance 1)).trans (hran.runs.reaches.trans (.step (.advance 1))))
    cases args with
    | nil =>
      apply Cleanly.call
      intro tree v _ htree _
      refine htree ⟨first, {
        plain := hbegun.plain
        way := honward
        start := hbegun.start
        spelled := hbegun.spelled.trans hsegment ?_
        outer := hbegun.outer }⟩
      rintro us _ hus ⟨gs, vs, rfl, hgs, hvs⟩
      have hfold := Spells.fold (w := y.word) hus hgs hdotted hvs hname
      cases opened <;> exact hfold
    | cons arg args =>
      cases opened with
      | false =>
        obtain ⟨us, -, hus⟩ := hargs
        cases hus
      | true =>
        apply Cleanly.call
        intro tree v _ htree _
        have hspelled (e : Extent) : first.Takes (Spells (.segments (.some
            (.type outer name (.cons arg args) false .nil 0 e)) y.text false) ·) (u.advance 1) := by
          refine hbegun.spelled.trans hsegment ?_
          rintro us _ hus ⟨gs, vs, rfl, hgs, hvs⟩
          exact .nest (w := y.word) hus hgs rfl hdotted hvs hname
        refine htree ⟨first, {
          plain := hbegun.plain
          way := honward
          start := hbegun.start
          spelled := hspelled _
          outer := .mk trivial (List.forall_mem_singleton.mpr
            (Tree.Spanned.type ?_ hbegun.outer hspanned)) }⟩
        -- Only here is the type around the segment closed, behind the name of the segment.
        refine ⟨y.text, first, u.advance 1, hbegun.plain.placed, honward, ?_, rfl, ?_⟩
        · rw [hbegun.start]
          rfl
        · exact (hspelled _).mono fun us hus => hus.bare_type
  · intro _
    exact ⟨outer, name, args, _, _, rfl, hbegun.outer, hspanned⟩

theorem wholeType_stretches : (whole .type .typeExpr).Ensures setting
    (clean setting (typeStretches setting)) inLabels s
    (Cleanly (typeStretches setting s .wholeType)) := by
  apply Cleanly.assuming
  intro hplain
  unfold whole
  apply Cleanly.attempt_bind
  · intro type t ht htype hran
    apply finish_lists.mono
    rintro r u ⟨rfl, -, -⟩ _
    exact ⟨type, rfl, htype.spanned hplain hran ht⟩
  · intro error t
    exact Cleanly.report_bind

/-- Each rule keeps its contract. -/
theorem rule_stretches {β : Type} (nonterminal : Nonterminal β) :
    (rule nonterminal).Ensures setting (clean setting (typeStretches setting)) inLabels s
      (Cleanly (typeStretches setting s nonterminal)) := by
  cases nonterminal
  case type => exact type_stretches
  case typeSegments start outer name diamond =>
    exact typeSegments_stretches start outer name diamond
  case typeArgs => exact typeArgs_stretches
  case typeArgList => exact typeArgList_stretches
  case wholeType => exact wholeType_stretches
  all_goals exact Cleanly.of_forall fun _ _ => trivial

end Rules

/-- All types in a type that is read without a report and without annotations cover their pieces. -/
theorem Session.typeUse_spanned {settings : Settings} {source : Source}
    (hclean : Diagnostic.Clean (start settings source).typeUse.2.diagnostics)
    (hplain : ∀ w ∈ (start settings source).state.pieces, w.1 ≠ .atSign) :
    ∃ type, (start settings source).typeUse.1 = .typeExpr type ∧
      type.Spanned (start settings source).setting false := by
  obtain ⟨hrun, -⟩ := @enter_readsAll _ (start settings source) .wholeType
    (.erroneousExpr (.point .eof)) rfl
  exact run_cleanly (fun nonterminal _ _ => rule_stretches nonterminal) (hrun _ (Nat.le_refl _))
    (isFresh_of_clean (after_typeUse _) hclean) ⟨(start_fine settings source).placed, hplain⟩

end JavaSyntax
