import JavaSyntax.Fragment.Basic
import JavaSyntax.Proofs.Lexing
import JavaSyntax.Proofs.OpenExpressions

/-!
What a text opens with, against what the grammar reads in it. The look at the symbols behind
modifiers and annotations finds the first item of a file that parses, and it finds nothing in an
expression or a type that parses.
-/

namespace JavaSyntax

open Grammar Rule
open Lookahead (next nextOneOf nextWord)
open Leading

section Rules

variable {setting : Setting} {inLabels : Bool} {s : State}

/-! Whole fragments. -/

theorem mayFollow_nil : MayFollow [] := ⟨inner_nil, inner_nil.lone⟩

/-- Nothing may follow a whole input, and what may follow a name is enough in front of that. -/
theorem whole_opens {α : Type} {nonterminal : Nonterminal α} {wrap : α → Tree .expr} {P : Prop}
    (hends : ∀ value t, (opens setting).post nonterminal inLabels s (.ok value) t → t.IsFresh →
      t.ahead = [] → P) :
    (whole nonterminal wrap).Ensures setting (opens setting) inLabels s
      (Cleanly fun _ _ => P) := by
  unfold whole
  rw [ensures_attempt_bind]
  refine ⟨trivial, fun r t ht => ?_⟩
  cases r with
  | ok value =>
    apply finish_lists.mono
    rintro r u ⟨rfl, hreaches, hend⟩ hfresh
    exact hends value t ht (hreaches.isFresh hfresh) (hend hfresh)
  | error error => exact Cleanly.report_bind

theorem wholeExpr_opens : (whole .expr id).Ensures setting (opens setting) inLabels s
    (Cleanly (Nonterminal.wholeExpr.Opens setting s)) := by
  apply whole_opens
  intro value t ht hfresh hend
  apply ht.1 hfresh
  rw [hend]
  exact mayFollow_nil

theorem wholeType_opens : (whole .type .typeExpr).Ensures setting (opens setting) inLabels s
    (Cleanly (Nonterminal.wholeType.Opens setting s)) := by
  apply whole_opens
  intro value t ht hfresh hend hs
  apply (ht.1 hfresh).2 (.inl hs)
  rw [hend]
  exact mayFollow_nil

/-! Declarations and the items of a file. -/

theorem opening_head {x : Symbol} {rest : List Symbol}
    (hx : x.kind = .packageKw ∨ x.kind = .importKw ∨ x.kind = .classKw ∨ x.kind = .interfaceKw ∨
      x.kind = .enumKw) : opening (x :: rest) = ofSymbols (x :: rest) := by
  rw [opening_cons]
  rcases hx with hx | hx | hx | hx | hx <;> simp [hx, Kind.isModifier, Symbol.isWord]

theorem opening_word {x : Symbol} {rest : List Symbol} (hx : x.kind = .identifier)
    (hsealed : x.text ≠ "sealed") (hnon : x.text ≠ "non") :
    opening (x :: rest) = ofSymbols (x :: rest) := by
  rw [opening_cons]
  simp [hx, Kind.isModifier, Symbol.isWord, hsealed, hnon]

theorem opening_annotationDecl {x y : Symbol} {rest : List Symbol} (hx : x.kind = .atSign)
    (hy : y.kind = .interfaceKw) : opening (x :: y :: rest) = some .annotationDecl := by
  rw [opening_cons]
  simp [hx, hy, next, Kind.isModifier, Symbol.isWord, ofSymbols]

theorem opening_record {ts : List Symbol} (h : Lookahead.isRecord ts = true) :
    opening ts = some .recordDecl := by
  match ts, h with
  | x :: rest, h =>
    have hword : (x.kind = .identifier ∧ x.text = "record") ∧ next [.identifier] rest = true := by
      cases rest with
      | nil => simp [Lookahead.isRecord, next] at h
      | cons y more =>
        simp only [Lookahead.isRecord, nextWord, Symbol.isWord, next, Bool.and_eq_true,
          Bool.or_eq_true, beq_iff_eq] at h ⊢
        refine ⟨h.1, ?_⟩
        rcases h.2 with h | h <;> exact ⟨h.2.1, trivial⟩
    rw [opening_word hword.1.1 (by simp [hword.1.2]) (by simp [hword.1.2])]
    simp [ofSymbols, hword]

theorem opening_module {ts : List Symbol} (h : Lookahead.isModule ts = true) :
    opening ts = some .moduleDecl := by
  match ts, h with
  | x :: rest, h =>
    by_cases hopen : x.isWord "open" = true
    · have hword : x.kind = .identifier ∧ x.text = "open" := by simpa [Symbol.isWord] using hopen
      have hmodule : nextWord "module" rest = true := by
        simp only [Lookahead.isModule, nextWord, hopen, if_true, List.drop_succ_cons,
          List.drop_zero, Bool.and_eq_true] at h
        exact h.1
      rw [opening_word hword.1 (by simp [hword.2]) (by simp [hword.2])]
      simp [ofSymbols, hword, hmodule]
    · unfold Lookahead.isModule at h
      rw [if_neg (show ¬nextWord "open" (x :: rest) = true from hopen)] at h
      simp only [nextWord, Symbol.isWord, next, Bool.and_eq_true, beq_iff_eq] at h
      obtain ⟨hword, -, hname⟩ := h
      rw [opening_word hword.1 (by simp [hword.2]) (by simp [hword.2])]
      simp [ofSymbols, hword, hname]

/-- A declaration is of the form that is put together at its end. -/
theorem finishDecl_opens {mods : Modifiers} {name : String} {form : Tree .form}
    {members : Tree (.list .member)} {k : Leading} (hopening : opening s.ahead = some k)
    (hform : form.formKind = k.label) {t : State} :
    (finishDecl mods name form members).Ensures setting (opens setting) inLabels t
      (Cleanly ((Nonterminal.typeDecl mods).Opens setting s)) := by
  unfold finishDecl
  rw [ensures_since_bind]
  exact fun _ => ⟨k, hopening, hform.symm⟩

theorem typeDecl_opens (mods : Modifiers) : (typeDecl mods).Ensures setting (opens setting)
    inLabels s (Cleanly ((Nonterminal.typeDecl mods).Opens setting s)) := by
  unfold typeDecl
  rw [ensures_view_bind, State.view_ahead]
  split
  · rename_i hnext
    obtain ⟨x, rest, hahead, hx⟩ := SoFar.ahead_of_next hnext
    have hopening : opening s.ahead = some .classDecl := by
      rw [hahead, opening_head (by simp [hx])]
      simp [ofSymbols, hx]
    unfold Grammar.classDecl
    iterate 8 refine Cleanly.any_bind fun _ _ => ?_
    exact finishDecl_opens hopening rfl
  split
  · rename_i hnext
    obtain ⟨x, rest, hahead, hx⟩ := SoFar.ahead_of_next hnext
    have hopening : opening s.ahead = some .interfaceDecl := by
      rw [hahead, opening_head (by simp [hx])]
      simp [ofSymbols, hx]
    unfold Grammar.interfaceDecl
    iterate 6 refine Cleanly.any_bind fun _ _ => ?_
    exact finishDecl_opens hopening rfl
  split
  · rename_i hnext
    obtain ⟨x, rest, hahead, hx⟩ := SoFar.ahead_of_next hnext
    have hopening : opening s.ahead = some .enumDecl := by
      rw [hahead, opening_head (by simp [hx])]
      simp [ofSymbols, hx]
    unfold Grammar.enumDecl
    iterate 8 refine Cleanly.any_bind fun _ _ => ?_
    exact finishDecl_opens hopening rfl
  split
  · unfold Grammar.annotationDecl
    apply Cleanly.expect_bind
    intro x rest hahead hx
    apply Cleanly.expect_bind
    intro y more hrest hy
    have hopening : opening s.ahead = some .annotationDecl := by
      rw [State.advance_ahead, hahead, List.drop_succ_cons, List.drop_zero] at hrest
      rw [hahead, hrest]
      exact opening_annotationDecl hx hy
    iterate 2 refine Cleanly.any_bind fun _ _ => ?_
    exact finishDecl_opens hopening rfl
  split
  · rename_i hrecord
    have hopening : opening s.ahead = some .recordDecl := opening_record hrecord
    unfold Grammar.recordDecl
    iterate 6 refine Cleanly.any_bind fun _ _ => ?_
    exact finishDecl_opens hopening rfl
  · trivial

theorem modifiers_opens : modifiers.Ensures setting (opens setting) inLabels s
    (Cleanly fun _ t => Fine setting.layout s → next [.dot] t.ahead = false →
      opening s.ahead = opening t.ahead) := by
  unfold modifiers
  rw [ensures_view_bind]
  apply Cleanly.call_bind
  intro run t _ hrun _ _
  exact hrun.2

theorem not_dot_of_opening {ts : List Symbol} {k : Leading} (h : opening ts = some k) :
    next [.dot] ts = false := by
  cases hdot : next [.dot] ts with
  | false => rfl
  | true =>
    have hnone : opening ts = none := (inner_of_next hdot (by decide)).opening_eq_none
    rw [h] at hnone
    cases hnone

/-- An item that is not a stray semicolon opens the text, behind its modifiers. -/
theorem item_opens : item.Ensures setting (opens setting) inLabels s
    (Cleanly (Nonterminal.item.Opens setting s)) := by
  unfold item
  rw [ensures_view_bind, State.view_ahead]
  split
  · rw [ensures_advance_bind]
    intro _ _ hstray
    cases hstray
  split
  · rename_i hnext
    obtain ⟨x, rest, hahead, hx⟩ := SoFar.ahead_of_next hnext
    apply Cleanly.any_bind
    intro decl t _ _ _
    refine ⟨.importClause, ?_, rfl⟩
    rw [hahead, opening_head (by simp [hx])]
    simp [ofSymbols, hx]
  apply Cleanly.bind modifiers_opens
  intro mods m _ hmods
  -- What stands behind the modifiers opens the text with them.
  have hwhole {k : Leading} (hopening : opening m.ahead = some k) (hs : Fine setting.layout s) :
      opening s.ahead = some k := by
    rw [hmods hs (not_dot_of_opening hopening), hopening]
  rw [ensures_view_bind, State.view_ahead]
  split
  · rename_i hnext
    obtain ⟨x, rest, hahead, hx⟩ := SoFar.ahead_of_next (Bool.and_eq_true _ _ ▸ hnext).2
    apply Cleanly.any_bind
    intro decl t _ hs _
    refine ⟨.packageClause, hwhole ?_ hs, rfl⟩
    rw [hahead, opening_head (by simp [hx])]
    simp [ofSymbols, hx]
  split
  · rename_i hmodule
    apply Cleanly.any_bind
    intro decl t _ hs _
    exact ⟨.moduleDecl, hwhole (opening_module (Bool.and_eq_true _ _ ▸ hmodule).2) hs, rfl⟩
  split
  · apply Cleanly.call_bind
    intro decl t _ hdecl _ _ hs _
    obtain ⟨k, hopening, hlabel⟩ := hdecl
    exact ⟨k, hwhole hopening hs, hlabel⟩
  · trivial

/-- Each rule opens what its contract says. -/
theorem rule_opens {β : Type} (nonterminal : Nonterminal β) :
    (rule nonterminal).Ensures setting (opens setting) inLabels s
      (Cleanly (nonterminal.Opens setting s)) := by
  cases nonterminal
  case annot => exact annot_opens
  case annotations onType => exact annotations_opens onType
  case modifierRun => exact modifierRun_opens
  case type => exact type_opens
  case typeSegments start outer name diamond => exact typeSegments_opens start outer name diamond
  case typeArgs => exact typeArgs_opens
  case typeArgList => exact typeArgList_opens
  case expr => exact expr_opens
  case conditional => exact conditional_opens
  case binary least => exact binary_opens least
  case binaryRest least start left => exact binaryRest_opens least start left
  case unary => exact unary_opens
  case selectors start target => exact selectors_opens start target
  case steps start operand => exact steps_opens start operand
  case lambda => exact lambda_opens
  case exprList => exact exprList_opens
  case typeDecl mods => exact typeDecl_opens mods
  case item => exact item_opens
  case wholeExpr => exact wholeExpr_opens
  case wholeType => exact wholeType_opens
  all_goals exact Cleanly.of_forall fun _ _ => trivial

end Rules

/-- What a clean run of a nonterminal opens. -/
theorem Ran.opens {setting : Setting} {β : Type} {nonterminal : Nonterminal β} {s t : State}
    {value : β} (h : Ran setting nonterminal s (.ok value) t) (ht : t.IsFresh) :
    nonterminal.Opens setting s value t := by
  obtain ⟨fuel, inLabels, hrun⟩ := h
  exact run_cleanly (fun nonterminal _ _ => rule_opens nonterminal) hrun ht

/-- The rounds that read a file without a report list first what the file opens with. -/
theorem Rounds.opens {setting : Setting} {s t : State} {after : List UnitItem} {item : UnitItem}
    (h : Rounds setting s [] after t) (hs : Fine setting.layout s) (ht : t.IsFresh)
    (hitem : after.head? = some item) (hstray : item.isStray = false) :
    ∃ k, opening s.ahead = some k ∧ k.label = item.label := by
  cases h with
  | done => cases hitem
  | @read _ m _ _ _ first ran rest =>
    have hfirst : first.placed [] = first := by cases first <;> rfl
    have hplace : m.afterPlacing setting [] first = m := by cases first <;> rfl
    rw [hfirst, hplace, List.nil_append] at rest
    have htaken : ItemTaken setting s first m := ran.reads hs rfl
    obtain ⟨others, rfl, hlisted⟩ := rest.listed htaken.soFar.fine
    cases hitem
    exact ran.opens (hlisted.reaches.isFresh ht) hs hstray
  | @failed _ u _ _ _ error n ran advanced rest =>
    have hends : Fine setting.layout u ∧ setting.layout.Told error := ran.reads hs rfl
    obtain ⟨others, rfl, hlisted⟩ := rest.listed ((hends.1.report hends.2).advance n)
    have hfresh := hlisted.reaches.isFresh ht
    rw [State.isFresh_advance] at hfresh
    exact absurd hfresh (u.not_isFresh_report _ _)
  | halted halted more =>
    rw [State.isFresh_advance] at ht
    exact absurd (ht.1.symm.trans halted) Bool.false_ne_true

open Diagnostic (Clean)

namespace Session

variable {settings : Settings} {source : Source}

theorem ofText_eq_opening (settings : Settings) (source : Source) :
    Leading.ofText source.text = opening (start settings source).state.ahead := by
  rw [start_ahead]
  rfl

theorem unit_opens (hclean : Clean (start settings source).unit.2.diagnostics) {item : UnitItem}
    (hitem : (start settings source).unit.1.items.head? = some item)
    (hstray : item.isStray = false) :
    ∃ k, Leading.ofText source.text = some k ∧ k.label = item.label := by
  rw [ofText_eq_opening settings]
  exact (unit_rounds _).opens (start_fine settings source)
    (isFresh_of_clean (after_unit _) hclean) hitem hstray

theorem expression_opens (hclean : Clean (start settings source).expression.2.diagnostics) :
    Leading.ofText source.text = none := by
  rw [ofText_eq_opening settings]
  obtain ⟨hrun, -⟩ := @enter_readsAll _ (start settings source) .wholeExpr
    (.erroneousExpr (.point .eof)) rfl
  exact Ran.opens ⟨_, _, hrun _ (Nat.le_refl _)⟩ (isFresh_of_clean (after_expression _) hclean)

theorem typeUse_opens (hclean : Clean (start settings source).typeUse.2.diagnostics) :
    Leading.ofText source.text = none := by
  rw [ofText_eq_opening settings]
  obtain ⟨hrun, -⟩ := @enter_readsAll _ (start settings source) .wholeType
    (.erroneousExpr (.point .eof)) rfl
  exact Ran.opens ⟨_, _, hrun _ (Nat.le_refl _)⟩ (isFresh_of_clean (after_typeUse _) hclean)
    (start_fine settings source)

end Session

namespace Fragment

variable {text : String}

theorem refused_of_leading {k : Leading} (h : Leading.ofText text = some k) (settings : Settings) :
    expression settings text = .error (.rejected ⟨.notExpression k, text⟩) ∧
      typeUse settings text = .error (.rejected ⟨.notTypeUse k, text⟩) := by
  simp only [expression, typeUse, Shape.expression, Shape.typeUse, h]
  exact ⟨rfl, rfl⟩

theorem parsed_of_leading (h : Leading.ofText text = none) (settings : Settings) :
    expression settings text =
        .ok (parse settings (.ofText Source.unnamed text) Session.expression) ∧
      typeUse settings text =
        .ok (parse settings (.ofText Source.unnamed text) Session.typeUse) := by
  simp only [expression, typeUse, Shape.expression, Shape.typeUse, h]
  exact ⟨rfl, rfl⟩

/-- The shape check agrees with the grammar. A text that is read as a file, and starts with anything
but a stray semicolon, is found to open with its first item and refused as an expression and as a
type. A text that is read as an expression or a type opens nothing and is parsed as either. -/
theorem shape_agrees (settings : Settings) (name text : String) :
    (Clean (Session.start settings (.ofText name text)).unit.2.diagnostics →
      ∀ item, (Session.start settings (.ofText name text)).unit.1.items.head? = some item →
        item.isStray = false →
        ∃ k, Leading.ofText text = some k ∧ k.label = item.label ∧
          ∀ chosen, expression chosen text = .error (.rejected ⟨.notExpression k, text⟩) ∧
            typeUse chosen text = .error (.rejected ⟨.notTypeUse k, text⟩)) ∧
    (Clean (Session.start settings (.ofText name text)).expression.2.diagnostics ∨
        Clean (Session.start settings (.ofText name text)).typeUse.2.diagnostics →
      Leading.ofText text = none ∧
        ∀ chosen, expression chosen text =
            .ok (parse chosen (.ofText Source.unnamed text) Session.expression) ∧
          typeUse chosen text =
            .ok (parse chosen (.ofText Source.unnamed text) Session.typeUse)) := by
  constructor
  · intro hclean item hitem hstray
    obtain ⟨k, hopens, hlabel⟩ := Session.unit_opens hclean hitem hstray
    have hleading : Leading.ofText text = some k := hopens
    exact ⟨k, hleading, hlabel, refused_of_leading hleading⟩
  · intro hclean
    have hleading : Leading.ofText text = none := by
      rcases hclean with hclean | hclean
      · have hopens := Session.expression_opens hclean
        exact hopens
      · have hopens := Session.typeUse_opens hclean
        exact hopens
    exact ⟨hleading, parsed_of_leading hleading⟩

/-- A record behind an annotation, and an expression that starts with words that may be modifiers
elsewhere. -/
theorem shape_agrees_record :
    (∃ k, Leading.ofText "@A(x = (1)) non-sealed record R() {}" = some k ∧ k.label = "record") ∧
      Leading.ofText "non - sealed.record" = none := by
  have hrecord : Clean (Session.start .standard
      (.ofText "R.java" "@A(x = (1)) non-sealed record R() {}")).unit.2.diagnostics := by
    unfold Clean
    decide
  have hsealed : Clean (Session.start .standard
      (.ofText "R.java" "non - sealed.record")).expression.2.diagnostics := by
    unfold Clean
    decide
  have hfirst : (Session.start .standard (.ofText "R.java"
      "@A(x = (1)) non-sealed record R() {}")).unit.1.items.head?.map
        (fun item => (item.isStray, item.label)) = some (false, "record") := by
    decide
  obtain ⟨item, hitem, hlabels⟩ := Option.map_eq_some_iff.mp hfirst
  obtain ⟨hstray, hrecorded⟩ := Prod.mk.inj hlabels
  obtain ⟨k, hleading, hlabel, -⟩ := (shape_agrees _ _ _).1 hrecord item hitem hstray
  exact ⟨⟨k, hleading, hlabel.trans hrecorded⟩, ((shape_agrees _ _ _).2 (.inl hsealed)).1⟩

end Fragment

end JavaSyntax
