import JavaSyntax.Proofs.Offsets

/-!
The outermost loops. A file is read in rounds, each of which adds one item to what is listed so far;
a whole expression or type is read at once, and then nothing may follow. What the rounds read is
taken from the contract of all rules.
-/

namespace JavaSyntax

/-- The items of a file, listed as the package, the imports, the module and the forms. -/
def CompilationUnit.items (unit : CompilationUnit) : List UnitItem :=
  unit.package.toList.map .package ++ unit.imports.map .import ++
    unit.module.toList.map .module ++ unit.forms.map .form

namespace UnitItem

/-- Whether an item is a package or an import. -/
def isHeader : UnitItem → Bool
  | .package _ | .import _ => true
  | _ => false

/-- Whether an item may stand behind these: the package comes first, then imports, then the module,
then forms. -/
def mayFollow (before : List UnitItem) : UnitItem → Bool
  | .package _ => before.isEmpty
  | .import _ => before.all isHeader
  | .module _ => before.all isHeader
  | .form _ => true

/-- What an item is listed as behind these: a clause in the wrong place is an error marker. -/
def placed (before : List UnitItem) (item : UnitItem) : UnitItem :=
  if item.mayFollow before then item else .form (.erroneous item.extent)

end UnitItem

/-- Some run of the nonterminal ends so. -/
def Ran (setting : Setting) {β : Type} (nonterminal : Nonterminal β) (s : State)
    (r : Except SyntaxError β) (t : State) : Prop :=
  ∃ fuel inLabels, run setting fuel nonterminal inLabels s = some (r, t)

namespace Ran

variable {setting : Setting} {β : Type} {nonterminal : Nonterminal β} {s t origin : State}
  {r : Except SyntaxError β}

theorem knows (setting : Setting) : Contract.Knows setting (Ran setting) :=
  fun h => ⟨_, _, h⟩

theorem runs (h : Ran setting nonterminal s r t) : Runs setting nonterminal s r t := by
  obtain ⟨fuel, inLabels, hrun⟩ := h
  exact knows_runs setting hrun

theorem reads (h : Ran setting nonterminal s r t) (hs : Fine setting.layout s)
    (hbegun : nonterminal.Begun setting origin s) :
    Ends setting (nonterminal.Reading setting origin) r t := by
  obtain ⟨fuel, inLabels, hrun⟩ := h
  exact run_reads hrun hs hbegun

end Ran

/-- The state in which the next round starts: a clause in the wrong place is reported at its
start. -/
def State.afterPlacing (setting : Setting) (before : List UnitItem) (item : UnitItem) (s : State) :
    State :=
  if item.mayFollow before then s
  else s.report setting.layout ⟨.typeDeclExpected, .point item.extent.start⟩

/-- The rounds that read a file from `s` to its end. They make `after` of what was listed before. -/
inductive Rounds (setting : Setting) : State → List UnitItem → List UnitItem → State → Prop where
  | done {s : State} {items : List UnitItem} (atEnd : s.ahead = []) :
      Rounds setting s items items s
  | read {s m t : State} {before after : List UnitItem} {item : UnitItem}
      (ran : Ran setting .item s (.ok item) m)
      (rest : Rounds setting (m.afterPlacing setting before item) (before ++ [item.placed before])
        after t) :
      Rounds setting s before after t
  /-- A failed item was reported, and what is skipped behind it becomes an error marker. -/
  | failed {s u t : State} {before after : List UnitItem} {error : SyntaxError} {n : Nat}
      (ran : Ran setting .item s (.error error) u)
      (advanced : s.index < ((u.report setting.layout error).advance n).index)
      (rest : Rounds setting ((u.report setting.layout error).advance n)
        (before ++ [.form (.erroneous (s.upTo ((u.report setting.layout error).advance n)))])
        after t) :
      Rounds setting s before after t
  /-- Once nothing may be reported any more, all that is left becomes one error marker. -/
  | halted {s : State} {before : List UnitItem} (halted : s.budget.halted = true)
      (more : s.ahead ≠ []) :
      Rounds setting s before (before ++ [.form (.erroneous (s.upTo (s.advance s.left)))])
        (s.advance s.left)

namespace CompilationUnit

theorem isEmpty_items (unit : CompilationUnit) :
    unit.items.isEmpty = (unit.package.isNone && unit.imports.isEmpty && unit.module.isNone &&
      unit.forms.isEmpty) := by
  obtain ⟨package, imports, module, forms⟩ := unit
  cases package <;> cases imports <;> cases module <;> cases forms <;> rfl

theorem all_isHeader_items (unit : CompilationUnit) :
    unit.items.all UnitItem.isHeader = (unit.module.isNone && unit.forms.isEmpty) := by
  obtain ⟨package, imports, module, forms⟩ := unit
  cases package <;> cases module <;> cases forms <;> simp [items, UnitItem.isHeader]

theorem items_addForm (unit : CompilationUnit) (form : TopLevel) :
    (Grammar.addForm unit form).items = unit.items ++ [.form form] := by
  simp [items, Grammar.addForm]

end CompilationUnit

namespace Grammar

open Rule

variable {setting : Setting} {C : Contract} {inLabels : Bool} {s t : State} {β : Type}
  {Q : Except SyntaxError β → State → Prop}

/-- An item is added at the end of the list. -/
theorem addItem_lists {f : CompilationUnit → Rule β} {unit : CompilationUnit} {item : UnitItem}
    (hf : ∀ result, result.items = unit.items ++ [item.placed unit.items] →
      (f result).Ensures setting C inLabels (s.afterPlacing setting unit.items item) Q) :
    (addItem unit item >>= f).Ensures setting C inLabels s Q := by
  have hmisplaced (hno : item.mayFollow unit.items = false) :
      (misplaced unit item.extent >>= f).Ensures setting C inLabels s Q := by
    have hstate : s.afterPlacing setting unit.items item =
        s.report setting.layout ⟨.typeDeclExpected, .point item.extent.start⟩ := by
      simp [State.afterPlacing, hno]
    have hrest := hf (addForm unit (.erroneous item.extent)) (by
      rw [unit.items_addForm, UnitItem.placed, hno]
      rfl)
    rw [hstate] at hrest
    exact hrest
  have hkept (hyes : item.mayFollow unit.items = true) {result : CompilationUnit}
      (hitems : result.items = unit.items ++ [item]) :
      (pure result >>= f).Ensures setting C inLabels s Q := by
    have hrest := hf result (by rw [hitems, UnitItem.placed, hyes]; rfl)
    have hstate : s.afterPlacing setting unit.items item = s := by
      simp [State.afterPlacing, hyes]
    rw [hstate] at hrest
    exact hrest
  have hclause (belongs : Bool) {result : CompilationUnit}
      (hfollow : item.mayFollow unit.items = belongs)
      (hitems : belongs = true → result.items = unit.items ++ [item]) :
      ((if belongs = true then pure result else misplaced unit item.extent) >>= f).Ensures setting C
        inLabels s Q := by
    split
    · rename_i hyes
      exact hkept (hfollow.trans hyes) (hitems hyes)
    · rename_i hno
      exact hmisplaced (hfollow.trans (Bool.eq_false_iff.mpr hno))
  cases item with
  | package decl =>
    refine hclause _ unit.isEmpty_items fun hfirst => ?_
    obtain ⟨package, imports, module, forms⟩ := unit
    simp only [Bool.and_eq_true, Option.isNone_iff_eq_none, List.isEmpty_iff] at hfirst
    obtain ⟨⟨⟨rfl, rfl⟩, rfl⟩, rfl⟩ := hfirst
    rfl
  | «import» decl =>
    refine hclause _ unit.all_isHeader_items fun hheader => ?_
    obtain ⟨package, imports, module, forms⟩ := unit
    simp only [Bool.and_eq_true, Option.isNone_iff_eq_none, List.isEmpty_iff] at hheader
    obtain ⟨rfl, rfl⟩ := hheader
    simp [CompilationUnit.items]
  | module decl =>
    refine hclause _ unit.all_isHeader_items fun hheader => ?_
    obtain ⟨package, imports, module, forms⟩ := unit
    simp only [Bool.and_eq_true, Option.isNone_iff_eq_none, List.isEmpty_iff] at hheader
    obtain ⟨rfl, rfl⟩ := hheader
    simp [CompilationUnit.items]
  | form top => exact hkept rfl (unit.items_addForm top)

end Grammar

/-- A whole input was read as one tree. Without a report all of it was, and otherwise an error
marker may stand for what failed. -/
inductive WholeRead (setting : Setting) (s : State) (tree : Tree .expr) (t : State) : Prop where
  | taken {m : State} (taken : Taken setting anywhere s tree m) (way : Reaches setting m t)
      (atEnd : t.IsFresh → m.ahead = []) : WholeRead setting s tree t
  | failed {m : State} (before : Reaches setting s m) (way : Reaches setting m t)
      (marker : tree = .erroneousExpr (m.upTo t)) (stale : ¬t.IsFresh) : WholeRead setting s tree t

/-- What the outermost nonterminals list. -/
def Nonterminal.Lists (setting : Setting) (s : State) :
    {β : Type} → Nonterminal β → β → State → Prop
  | _, .items unit => fun result t => Rounds setting s unit.items result.items t
  | _, .wholeExpr => fun tree t => Fine setting.layout s → WholeRead setting s tree t
  | _, .wholeType => fun tree t => Fine setting.layout s → WholeRead setting s tree t
  | _, _ => fun _ _ => True

/-- What the outermost nonterminals list, knowing every run. -/
def lists (setting : Setting) : Contract where
  pre _ _ _ := True
  post nonterminal _ s r t := ∀ value, r = .ok value → nonterminal.Lists setting s value t

namespace Grammar

open Rule

variable {setting : Setting} {inLabels : Bool} {s t : State}

theorem items_lists (unit : CompilationUnit) :
    (items unit).Ensures setting ((lists setting).knowing (Ran setting)) inLabels s fun r t =>
      ∀ result : CompilationUnit, r = .ok result → Rounds setting s unit.items result.items t := by
  have hagain {more : CompilationUnit} {u : State}
      (hround : ∀ (result : CompilationUnit) (t : State),
        Rounds setting u more.items result.items t → Rounds setting s unit.items result.items t) :
      (call (.items more)).Ensures setting ((lists setting).knowing (Ran setting)) inLabels u
        fun r t => ∀ result : CompilationUnit, r = .ok result →
          Rounds setting s unit.items result.items t := by
    rw [ensures_call]
    exact ⟨trivial, fun r t ht result hr => hround result t (ht.1 result hr)⟩
  unfold items
  rw [ensures_view_bind, State.view_ahead]
  split
  · rename_i hend
    rintro result ⟨⟩
    exact .done (List.isEmpty_iff.mp hend)
  rename_i hmore
  split
  · rename_i hhalted
    rintro result ⟨⟩
    rw [unit.items_addForm]
    exact .halted (by simpa [State.view] using hhalted) fun hnil => hmore (by rw [hnil]; rfl)
  rw [ensures_attempt_bind]
  refine ⟨trivial, fun r m hpost => ?_⟩
  have hran : Ran setting .item s r m := hpost.2
  cases r with
  | ok item =>
    refine addItem_lists fun more hitems => hagain fun result t hrest => ?_
    rw [hitems] at hrest
    exact .read hran hrest
  | error error =>
    refine ensures_recover_bind Resync.length_topLevel_le (left_pos_of_not_isEmpty hmore)
      hran.runs.advanced.left_le hran.runs.advanced.moved fun u n hu hlt => ?_
    refine hagain fun result t hrest => ?_
    rw [CompilationUnit.items_addForm] at hrest
    subst hu
    refine .failed hran ?_ hrest
    have hway : Reaches setting m ((m.report setting.layout error).advance n) :=
      (Reaches.step (.record ..)).trans (.step (.advance n))
    have hbeyond := (hran.runs.reaches.trans hway).beyond
    unfold Beyond at hbeyond
    omega

/-- Nothing may follow, unless something was reported. -/
theorem finish_lists {tree : Tree .expr} {C : Contract} :
    (finish >>= fun _ => pure tree).Ensures setting C inLabels s fun r t =>
      r = .ok tree ∧ Reaches setting s t ∧ (t.IsFresh → s.ahead = []) := by
  unfold finish
  rw [ensures_bind, ensures_view_bind, State.view_ahead]
  split
  · split
    · refine ⟨rfl, (Reaches.step (.record ..)).trans (.step (.advance _)), fun hfresh => ?_⟩
      exact absurd ((State.isFresh_advance ..).mp hfresh) (s.not_isFresh_report _ _)
    · rename_i hhalted
      refine ⟨rfl, .step (.advance _), fun hfresh => ?_⟩
      have hs := (State.isFresh_advance ..).mp hfresh
      exact absurd (by simp [State.view, hs.1]) hhalted
  · rename_i hend
    exact ⟨rfl, .refl s, fun _ => by simpa using hend⟩

theorem whole_lists {c : Category} {nonterminal : Nonterminal (Tree c)} {wrap : Tree c → Tree .expr}
    (hs : Fine setting.layout s) (hbegun : nonterminal.Begun setting s s)
    (hreading : ∀ value t, nonterminal.Reading setting s value t →
      Taken setting anywhere s (wrap value) t) :
    (whole nonterminal wrap).Ensures setting ((lists setting).knowing (Ran setting)) inLabels s
      fun r t => ∀ tree, r = .ok tree → WholeRead setting s tree t := by
  unfold whole
  rw [ensures_attempt_bind]
  refine ⟨trivial, fun r m hpost => ?_⟩
  have hran : Ran setting nonterminal s r m := hpost.2
  cases r with
  | ok value =>
    have htaken := hreading value m (hran.reads hs hbegun)
    refine finish_lists.mono fun r t hend tree hr => ?_
    cases hend.1.symm.trans hr
    exact .taken htaken hend.2.1 hend.2.2
  | error error =>
    -- All that is left was dropped, so nothing is there to be trailing.
    generalize hm : m.report setting.layout error = m'
    have hend : (m'.advance m'.left).ahead = [] := by
      rw [State.ahead_advance]
      exact List.drop_length
    have hstale : ¬m'.IsFresh := hm ▸ m.not_isFresh_report _ _
    have hway : Reaches setting m m' := hm ▸ Reaches.step (.record ..)
    rw [ensures_report_bind, hm]
    refine (show (finish >>= fun _ => pure (Tree.erroneousExpr
      (m'.upTo (m'.advance m'.left)))).Ensures setting _ inLabels (m'.advance m'.left) _ from ?_)
    unfold finish
    rw [ensures_bind, ensures_view_bind, State.view_ahead, hend]
    rintro tree ⟨⟩
    exact .failed (hran.runs.reaches.trans hway) (.step (.advance _)) rfl
      fun hfresh => hstale ((State.isFresh_advance ..).mp hfresh)

theorem rule_lists {β : Type} (nonterminal : Nonterminal β) :
    (rule nonterminal).Ensures setting ((lists setting).knowing (Ran setting)) inLabels s
      ((lists setting).post nonterminal inLabels s) := by
  have hwhole {c : Category} (entry : Nonterminal (Tree c)) {wrap : Tree c → Tree .expr}
      (hbegun : entry.Begun setting s s) (hreading : ∀ value t, entry.Reading setting s value t →
        Taken setting anywhere s (wrap value) t) :
      (whole entry wrap).Ensures setting ((lists setting).knowing (Ran setting)) inLabels s
        fun r t => ∀ tree, r = .ok tree → Fine setting.layout s → WholeRead setting s tree t := by
    by_cases hs : Fine setting.layout s
    · exact (whole_lists hs hbegun hreading).mono fun r t h tree hr _ => h tree hr
    · exact ensures_of_forall (fun _ _ _ => trivial) fun _ _ _ _ h => absurd h hs
  cases nonterminal
  case items unit => exact items_lists unit
  case wholeExpr => exact hwhole .expr rfl fun _ _ h => h
  case wholeType =>
    refine hwhole .type rfl fun type t h => ?_
    cases type
    exact h.wrap rfl rfl rfl rfl trivial fun _ _ _ => trivial
  all_goals exact ensures_of_forall (fun _ _ _ => trivial) fun _ _ _ _ => trivial

end Grammar

theorem run_lists {setting : Setting} {fuel : Nat} {β : Type} {nonterminal : Nonterminal β}
    {inLabels : Bool} {s t : State} {value : β}
    (h : run setting fuel nonterminal inLabels s = some (.ok value, t)) :
    nonterminal.Lists setting s value t :=
  (run_respects_knowing (C := lists setting) (Ran.knows setting)
    (fun nonterminal _ _ _ => Grammar.rule_lists nonterminal) fuel nonterminal inLabels s _ t
    trivial h).1 value rfl

/-! What the items of a file have in common, whichever round listed them. -/

/-- An item was listed for what lies between two states. An error marker has no parts. -/
structure ItemListed (setting : Setting) (s : State) (item : UnitItem) (t : State) : Prop where
  reaches : Reaches setting s t
  began : s.index < t.index
  extent : item.extent = s.upTo t
  parts : ∀ p ∈ item.parts, Read setting .plain s p.2 t
  directives : ∀ d ∈ item.directives, Stretch setting s d.extent t
  isProper : t.IsFresh → item.isProper = true

/-- Items were listed one behind the other, from a state to the end of the file. -/
inductive Listed (setting : Setting) : State → List UnitItem → State → Prop where
  | nil {s : State} (atEnd : s.ahead = []) : Listed setting s [] s
  | cons {s m t : State} {item : UnitItem} {items : List UnitItem}
      (first : ItemListed setting s item m) (rest : Listed setting m items t) :
      Listed setting s (item :: items) t

theorem Listed.reaches {setting : Setting} {s t : State} {items : List UnitItem}
    (h : Listed setting s items t) : Reaches setting s t := by
  induction h with
  | nil atEnd => exact .refl _
  | cons first rest ih => exact first.reaches.trans ih

theorem Listed.everywhere {setting : Setting} {first s t : State} {items : List UnitItem}
    (h : Listed setting s items t) (hfirst : Reaches setting first s)
    {P : {c : Category} → Tree c → Prop} (hP : Read.Grants setting first P) :
    ∀ item ∈ items, ∀ p ∈ item.parts, p.2.Everywhere P := by
  induction h with
  | nil atEnd => nofun
  | cons head rest ih =>
    intro item hitem
    rcases List.mem_cons.mp hitem with rfl | hitem
    · exact fun p hp => (head.parts p hp).everywhere hfirst hP
    · exact ih (hfirst.trans head.reaches) item hitem

namespace ItemListed

variable {setting : Setting} {s m t : State} {item : UnitItem}

/-- All that was taken becomes an error marker, if something was reported. -/
theorem erroneous (hr : Reaches setting s t) (hlt : s.index < t.index) (hstale : ¬t.IsFresh) :
    ItemListed setting s (.form (.erroneous (s.upTo t))) t :=
  ⟨hr, hlt, rfl, nofun, nofun, fun hfresh => absurd hfresh hstale⟩

theorem of_taken (h : ItemTaken setting s item t) : ItemListed setting s item t :=
  ⟨h.soFar.reaches, h.soFar.began rfl, h.extent, fun p hp => h.soFar.parts p hp .plain trivial,
    h.directives, fun _ => h.isProper⟩

/-- A clause in the wrong place is listed as an error marker where it stands. -/
theorem afterPlacing (h : ItemTaken setting s item m) (before : List UnitItem) :
    ItemListed setting s (item.placed before) (m.afterPlacing setting before item) := by
  unfold UnitItem.placed State.afterPlacing
  split
  · exact of_taken h
  · generalize (⟨.typeDeclExpected, .point item.extent.start⟩ : SyntaxError) = error
    have hindex := m.index_report setting.layout error
    rw [h.extent, State.upTo_congr hindex.symm]
    refine erroneous (h.soFar.reaches.trans (.step (.record ..))) ?_ (m.not_isFresh_report _ _)
    rw [hindex]
    exact h.soFar.began rfl

end ItemListed

theorem ItemTaken.fine_afterPlacing {setting : Setting} {s t : State} {item : UnitItem}
    (h : ItemTaken setting s item t) (hs : Fine setting.layout s) (before : List UnitItem) :
    Fine setting.layout (t.afterPlacing setting before item) := by
  unfold State.afterPlacing
  split
  · exact h.soFar.fine
  · refine h.soFar.fine.report ((Layout.sound_point ?_).told nofun)
    rw [h.extent]
    exact (State.sound_upTo hs.placed h.soFar.reaches hs.tiled).1

/-- The rounds list items one behind the other. -/
theorem Rounds.listed {setting : Setting} {s t : State} {before after : List UnitItem}
    (h : Rounds setting s before after t) (hs : Fine setting.layout s) :
    ∃ items, after = before ++ items ∧ Listed setting s items t := by
  have hcons {before after : List UnitItem} {s m t : State} {item : UnitItem}
      (hitem : ItemListed setting s item m)
      (hrest : ∃ items, after = (before ++ [item]) ++ items ∧ Listed setting m items t) :
      ∃ items, after = before ++ items ∧ Listed setting s items t := by
    obtain ⟨items, hafter, hlisted⟩ := hrest
    exact ⟨item :: items, by simpa using hafter, .cons hitem hlisted⟩
  induction h with
  | done atEnd => exact ⟨[], (List.append_nil _).symm, .nil atEnd⟩
  | read ran rest ih =>
    have htaken : ItemTaken setting _ _ _ := ran.reads hs rfl
    exact hcons (.afterPlacing htaken _) (ih (htaken.fine_afterPlacing hs _))
  | @failed s u t before after error n ran advanced rest ih =>
    have hends : Fine setting.layout u ∧ setting.layout.Told error := ran.reads hs rfl
    refine hcons (.erroneous ?_ advanced ?_) (ih ((hends.1.report hends.2).advance n))
    · exact ran.runs.reaches.trans ((Reaches.step (.record ..)).trans (.step (.advance n)))
    · rw [State.isFresh_advance]
      exact u.not_isFresh_report _ _
  | @halted s before halted more =>
    refine ⟨_, rfl, .cons (.erroneous (.step (.advance _)) ?_ ?_) (.nil ?_)⟩
    · have hpos : 0 < s.ahead.length := List.length_pos_iff.mpr more
      show s.index < (s.advance s.left).index
      have hmoved := s.moved_advance s.left
      have hleft := s.left_advance s.left
      have hlength : s.left = s.ahead.length := rfl
      omega
    · rw [State.isFresh_advance]
      exact fun hfresh => Bool.false_ne_true (hfresh.1.symm.trans halted)
    · rw [State.ahead_advance]
      exact List.drop_length

/-! Sessions. -/

open Diagnostic (Clean)

namespace Session

variable (session : Session)

theorem unit_rounds :
    Rounds session.setting session.state [] session.unit.1.items session.unit.2.state :=
  run_lists ((@enter_readsAll _ session (.items .empty) .empty rfl).1 _ (Nat.le_refl _))

theorem unit_listed {session : Session} (hs : Fine session.layout session.state) :
    Listed session.setting session.state session.unit.1.items session.unit.2.state := by
  obtain ⟨items, hitems, hlisted⟩ := session.unit_rounds.listed hs
  rw [hitems]
  exact hlisted

theorem expression_whole {session : Session} (hs : Fine session.layout session.state) :
    WholeRead session.setting session.state session.expression.1 session.expression.2.state :=
  run_lists ((@enter_readsAll _ session .wholeExpr _ rfl).1 _ (Nat.le_refl _)) hs

theorem typeUse_whole {session : Session} (hs : Fine session.layout session.state) :
    WholeRead session.setting session.state session.typeUse.1 session.typeUse.2.state :=
  run_lists ((@enter_readsAll _ session .wholeType _ rfl).1 _ (Nat.le_refl _)) hs

/-- What reading grants to every tree, and error markers have, is had by all that entry points
return, at every depth. -/
theorem everywhere {session : Session} (hs : Fine session.layout session.state)
    {P : {c : Category} → Tree c → Prop} (hP : Read.Grants session.setting session.state P)
    (hmarker : ∀ e, P (.erroneousExpr e)) :
    (∀ item ∈ session.unit.1.items, ∀ p ∈ item.parts, p.2.Everywhere P) ∧
    session.expression.1.Everywhere P ∧ session.typeUse.1.Everywhere P := by
  have hwhole {tree : Tree .expr} {t : State}
      (h : WholeRead session.setting session.state tree t) : tree.Everywhere P := by
    cases h with
    | taken taken way atEnd =>
      exact (taken.soFar.parts _ List.mem_cons_self .plain trivial).everywhere (.refl _) hP
    | failed before way marker stale =>
      rw [marker]
      exact .mk (hmarker _) fun p hp => by cases hp
  exact ⟨(unit_listed hs).everywhere (.refl _) hP, hwhole (expression_whole hs),
    hwhole (typeUse_whole hs)⟩

/-- A new session whose log has no error after an entry point reported nothing. -/
theorem isFresh_of_clean {settings : Settings} {source : Source} {entry : Entry} {last : Session}
    (hlast : (start settings source).after entry = last) (h : Clean last.diagnostics) :
    last.state.IsFresh := by
  subst hlast
  exact (afterAll_accounted settings source [entry]).isFresh h

/-- A new session in which an entry point reported nothing has no error in its log. -/
theorem clean_of_isFresh {settings : Settings} {source : Source} {entry : Entry} {last : Session}
    (hlast : (start settings source).after entry = last) (h : last.state.IsFresh) :
    Clean last.diagnostics := by
  subst hlast
  exact (afterAll_accounted settings source [entry]).clean h

theorem after_unit (session : Session) : session.after .unit = session.unit.2 := rfl

theorem after_expression (session : Session) :
    session.after .expression = session.expression.2 := rfl

theorem after_typeUse (session : Session) : session.after .typeUse = session.typeUse.2 := rfl

end Session

end JavaSyntax
