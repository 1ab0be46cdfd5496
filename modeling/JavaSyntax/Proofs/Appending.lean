import JavaSyntax.Proofs.Closing
import JavaSyntax.Proofs.Lexing

/-!
One file behind another. A file of forms that is read without a report has all its parentheses
closed and ends with a brace or a semicolon. So with more symbols behind it the same forms are read
from it, and what reads the symbols behind it reads them from there.
-/

namespace JavaSyntax

open Grammar
open Movable (move)

namespace CompilationUnit

/-- The file has no package, no import and no module. -/
structure OnlyForms (unit : CompilationUnit) : Prop where
  package : unit.package = none
  imports : unit.imports = []
  module : unit.module = none

/-- The file with more forms. -/
def withForms (unit : CompilationUnit) (forms : List TopLevel) : CompilationUnit :=
  { unit with forms := unit.forms ++ forms }

@[simp] theorem withForms_nil (unit : CompilationUnit) : unit.withForms [] = unit := by
  simp [withForms]

theorem withForms_cons (unit : CompilationUnit) (form : TopLevel) (forms : List TopLevel) :
    unit.withForms (form :: forms) = (addForm unit form).withForms forms := by
  simp [withForms, addForm]

theorem OnlyForms.form_of_mem {unit : CompilationUnit} (h : unit.OnlyForms) {item : UnitItem}
    (hitem : item ∈ unit.items) : ∃ form, item = .form form := by
  obtain ⟨package, imports, module, forms⟩ := unit
  obtain ⟨rfl, rfl, rfl⟩ := h
  obtain ⟨form, -, rfl⟩ := List.mem_map.mp (show item ∈ forms.map .form by
    simpa [items] using hitem)
  exact ⟨form, rfl⟩

end CompilationUnit

/-- What was listed stays listed. -/
theorem Rounds.starts {setting : Setting} {s t : State} {before after : List UnitItem}
    (h : Rounds setting s before after t) : ∃ more, after = before ++ more := by
  induction h with
  | done => exact ⟨[], (List.append_nil _).symm⟩
  | @read _ _ _ before _ item _ _ ih | @failed _ _ _ before _ _ _ _ _ _ ih =>
    obtain ⟨more, rfl⟩ := ih
    exact ⟨_ :: more, by rw [List.append_assoc]; rfl⟩
  | halted => exact ⟨_, rfl⟩

/-! How a list of symbols is told to go on behind its end. -/

/-- How many parentheses stay open, of so many that are; but for one they may close. -/
def unclosed : Nat → List Symbol → Nat
  | depth, [] => depth
  | depth, x :: rest =>
    if x.kind = .lparen then unclosed (depth + 1) rest
    else if x.kind = .rparen then unclosed (if 2 ≤ depth then depth - 1 else depth) rest
    else unclosed depth rest

theorem counts_unclosed : CountsParens unclosed where
  plain {depth x rest} hx := by
    have hplain : x.kind ≠ .lparen ∧ x.kind ≠ .rparen := by
      constructor <;> intro heq <;> rw [heq] at hx <;> cases hx
    simp only [unclosed, hplain, if_false]
  opens hx := by simp only [unclosed, hx, if_true]
  closes hx := by simp [unclosed, hx]

/-- If fewer parentheses stay open than are, then the last one closes. -/
theorem isSome_afterClosing {d k : Nat} {ts : List Symbol} (h : unclosed (d + k + 2) ts ≤ d + 1) :
    (Lookahead.afterClosing (k + 1) ts).isSome = true := by
  induction ts generalizing k with
  | nil =>
    simp only [unclosed] at h
    omega
  | cons x rest ih =>
    simp only [unclosed] at h
    simp only [Lookahead.afterClosing]
    split
    · rename_i hopen
      rw [if_pos hopen] at h
      exact ih h
    · rename_i hopen
      rw [if_neg hopen] at h
      split
      · rename_i hclose
        rw [if_pos hclose, if_pos (by omega)] at h
        cases k with
        | zero => rfl
        | succ k => exact ih h
      · rename_i hclose
        rw [if_neg hclose] at h
        exact ih h

/-- A list of symbols that ends an item and leaves no parenthesis open looks the same with more
symbols behind it. -/
theorem Along.of_closed {tail ts : List Symbol} {d : Nat} (hts : ts ≠ [])
    (hlast : ∀ x ∈ ts.getLast?, x.kind = .rbrace ∨ x.kind = .semicolon)
    (hclosed : unclosed (d + 1) ts = 1) : Along tail ts (ts ++ tail) := by
  induction ts generalizing d with
  | nil => exact absurd rfl hts
  | cons x rest ih =>
    cases rest with
    | nil => exact .last rfl rfl (hlast x rfl)
    | cons y more =>
      have hlast' : ∀ z ∈ (y :: more).getLast?, z.kind = .rbrace ∨ z.kind = .semicolon := by
        rwa [List.getLast?_cons_cons] at hlast
      refine .cons rfl rfl ?_ (fun hopen => .inr ?_) ?_
      · cases more with
        | nil =>
          have hy : y.kind ≠ .minus := by
            rcases hlast' y rfl with hy | hy <;> simp [hy]
          cases tail <;> simp [Lookahead.isNonSealed, hy]
        | cons z more => rfl
      · rw [unclosed, if_pos hopen] at hclosed
        exact isSome_afterClosing (Nat.le_trans (Nat.le_of_eq hclosed) (Nat.le_add_left 1 d))
      · rw [unclosed] at hclosed
        split at hclosed
        · exact ih (List.cons_ne_nil y more) hlast' hclosed
        · split at hclosed
          · cases d with
            | zero => exact ih (List.cons_ne_nil y more) hlast' hclosed
            | succ d => exact ih (List.cons_ne_nil y more) hlast' hclosed
          · exact ih (List.cons_ne_nil y more) hlast' hclosed

section Runs

variable {setting : Setting} {n : Nat} {tail : List Symbol} {fuel : Nat} {inLabels : Bool}
  {unit result : CompilationUnit} {s s' t m : State}

theorem exec_attempt {caller : Caller} {α : Type} {nonterminal : Nonterminal α}
    {r : Except SyntaxError α} (h : caller nonterminal inLabels s = some (r, t)) :
    exec setting caller inLabels (attempt nonterminal) s = some (.ok r, t) := by
  unfold attempt
  simp only [exec, Bool.or_false, h]

/-- A form is read, and then the rest. -/
theorem run_items_form {form : TopLevel} {out : Except SyntaxError CompilationUnit × State}
    (hs : s.IsFresh) (hmore : s.ahead ≠ [])
    (hitem : run setting fuel .item inLabels s = some (.ok (.form form), m))
    (hrest : run setting fuel (.items (addForm unit form)) inLabels m = some out) :
    run setting (fuel + 1) (.items unit) inLabels s = some out := by
  show exec setting (run setting fuel) inLabels (if s.ahead.isEmpty = true then _ else
    if (!(s.view inLabels).running) = true then _ else _) s = _
  rw [if_neg (by simpa using hmore), if_neg (by simp [State.view, hs.1]),
    exec_bind_of_ok (exec_attempt hitem)]
  exact (exec_call _ _).trans hrest

/-- An item that is added without a report is listed. -/
theorem mem_of_addItem {caller : Caller} {item : UnitItem} {more : CompilationUnit}
    (h : exec setting caller inLabels (addItem unit item) s = some (.ok more, t))
    (ht : t.IsFresh) : item ∈ more.items := by
  have hclause {fits : Bool} {listed : CompilationUnit} {e : Extent} (hlisted : item ∈ listed.items)
      (h : exec setting caller inLabels
        (if fits = true then pure listed else misplaced unit e) s = some (.ok more, t)) :
      item ∈ more.items := by
    split at h
    · cases h
      exact hlisted
    · cases h
      exact absurd ht (s.not_isFresh_report _ _)
  cases item with
  | package decl | «import» decl | module decl => exact hclause (by simp [CompilationUnit.items]) h
  | form form =>
    cases h
    simp [CompilationUnit.items_addForm]

/-- The rounds of a file of forms: it ends, or a form is read first. -/
theorem run_items_cases
    (h : run setting (fuel + 1) (.items unit) inLabels s = some (.ok result, t)) (ht : t.IsFresh)
    (hforms : result.OnlyForms) :
    (s.ahead = [] ∧ result = unit ∧ t = s) ∨
    (s.ahead ≠ [] ∧ ∃ form m, run setting fuel .item inLabels s = some (.ok (.form form), m) ∧
      run setting fuel (.items (addForm unit form)) inLabels m = some (.ok result, t)) := by
  have hs := run_isFresh h ht
  change exec setting (run setting fuel) inLabels (if s.ahead.isEmpty = true then _ else
    if (!(s.view inLabels).running) = true then _ else _) s = _ at h
  split at h
  · rename_i hend
    cases h
    exact .inl ⟨List.isEmpty_iff.mp hend, rfl, rfl⟩
  rename_i hmore
  rw [if_neg (by simp [State.view, hs.1])] at h
  refine .inr ⟨by simpa using hmore, ?_⟩
  obtain ⟨r, m, hattempt, hrest⟩ := exec_bind_ok h
  have hitem : run setting fuel .item inLabels s = some (r, m) := by
    cases hrun : run setting fuel .item inLabels s with
    | none =>
      unfold attempt at hattempt
      simp [exec, hrun] at hattempt
    | some out =>
      obtain ⟨r', m'⟩ := out
      rw [exec_attempt hrun] at hattempt
      cases hattempt
      rfl
  cases r with
  | error error =>
    refine absurd ht (Rule.IsFault.not_isFresh ?_ hrest)
    trivial
  | ok item =>
    obtain ⟨more, u, hadd, hcall⟩ := exec_bind_ok hrest
    rw [exec_call] at hcall
    have hlisted : item ∈ result.items := by
      obtain ⟨others, hitems⟩ := (run_lists hcall).starts
      rw [hitems]
      exact List.mem_append_left _ (mem_of_addItem hadd (run_isFresh hcall ht))
    obtain ⟨form, rfl⟩ := hforms.form_of_mem hlisted
    cases hadd
    exact ⟨form, m, hitem, hcall⟩

/-- From the first state a run lists these forms, whatever was listed before, and goes on from the
second one. -/
def ReadsForms (setting : Setting) (inLabels : Bool) (s : State) (forms : List TopLevel)
    (t : State) : Prop :=
  ∀ (unit : CompilationUnit) (fuel : Nat) (out : Except SyntaxError CompilationUnit × State),
    run setting fuel (.items (unit.withForms forms)) inLabels t = some out →
      ∃ more, run setting more (.items unit) inLabels s = some out

namespace ReadsForms

theorem nil : ReadsForms setting inLabels s [] s := by
  intro unit fuel out h
  rw [unit.withForms_nil] at h
  exact ⟨fuel, h⟩

theorem cons {form : TopLevel} {forms : List TopLevel} (hs : s.IsFresh) (hmore : s.ahead ≠ [])
    (hitem : run setting fuel .item inLabels s = some (.ok (.form form), m))
    (hrest : ReadsForms setting inLabels m forms t) :
    ReadsForms setting inLabels s (form :: forms) t := by
  intro unit fuel' out h
  rw [unit.withForms_cons] at h
  obtain ⟨more, hmoreFuel⟩ := hrest (addForm unit form) fuel' out h
  exact ⟨max fuel more + 1, run_items_form hs hmore
    (run_more (Nat.le_max_left fuel more) _ _ _ _ hitem)
    (run_more (Nat.le_max_right fuel more) _ _ _ _ hmoreFuel)⟩

theorem trans {forms forms' : List TopLevel} (h : ReadsForms setting inLabels s forms m)
    (h' : ReadsForms setting inLabels m forms' t) :
    ReadsForms setting inLabels s (forms ++ forms') t := by
  intro unit fuel out hrun
  have hforms : unit.withForms (forms ++ forms') = (unit.withForms forms).withForms forms' := by
    simp [CompilationUnit.withForms]
  rw [hforms] at hrun
  obtain ⟨more, hmore⟩ := h' _ fuel out hrun
  exact h unit more out hmore

end ReadsForms

/-- A file of forms is read in the second text as well, up to where the tail is left. -/
theorem items_behind (setting' : Setting)
    (hrun : run setting fuel (.items unit) inLabels s = some (.ok result, t))
    (ht : t.IsFresh) (hforms : result.OnlyForms) (hs : s.Behind n tail s') :
    ∃ forms t', result.forms = unit.forms ++ forms ∧
      ReadsForms setting' inLabels s' (move n forms) t' ∧ t.Behind n tail t' ∧ t'.ahead = tail := by
  induction fuel generalizing unit s s' with
  | zero => cases hrun
  | succ fuel ih =>
    rcases run_items_cases hrun ht hforms with ⟨hend, rfl, rfl⟩ | ⟨hmore, form, m, hitem, hrest⟩
    · refine ⟨[], s', (List.append_nil _).symm, .nil, hs, ?_⟩
      rcases hs.left with halong | ⟨-, hleft⟩
      · rw [hend] at halong
        exact halong.eq_tail
      · exact hleft
    · have hbeside : s.Beside n tail s' := by
        rcases hs.left with halong | ⟨hend, -⟩
        · exact ⟨halong, hs.index, hs.taken, hs.isFresh⟩
        · exact absurd hend hmore
      obtain ⟨-, m', hitem', hm'⟩ := item_behind setting' hitem (run_isFresh hrest ht) hbeside
      obtain ⟨forms, t', hall, hreads, ht', hleft⟩ := ih hrest hm'
      refine ⟨form :: forms, t', ?_, .cons hs.isFresh ?_ hitem' hreads, ht', hleft⟩
      · rw [hall]
        simp [addForm]
      · intro hnil
        have hlength := hbeside.along.length
        rw [hnil, List.length_nil] at hlength
        exact hmore (List.eq_nil_of_length_eq_zero (by omega))

/-- A file of forms ends with a brace or a semicolon. -/
theorem items_endsAt (hrun : run setting fuel (.items unit) inLabels s = some (.ok result, t))
    (ht : t.IsFresh) (hforms : result.OnlyForms) (hmore : s.ahead ≠ []) : EndsAt setting s t := by
  induction fuel generalizing unit s with
  | zero => cases hrun
  | succ fuel ih =>
    rcases run_items_cases hrun ht hforms with ⟨hend, -⟩ | ⟨-, form, m, hitem, hrest⟩
    · exact absurd hend hmore
    · have hm := run_isFresh hrest ht
      have hsame : s.Beside 0 [] s := ⟨.refl _, rfl, rfl, run_isFresh hitem hm⟩
      obtain ⟨hends, -⟩ := item_behind setting hitem hm hsame
      by_cases hleft : m.ahead = []
      · have hend : t.ahead = [] :=
          run_keeps (kept_ahead_nil setting) fuel _ _ _ _ _ hrest hleft
        obtain ⟨u, x, hu, hahead, hx⟩ := hends
        exact ⟨u, x, hu, by rw [hahead, hleft, hend], hx⟩
      · have hran : Ran setting .item s (.ok (.form form)) m := ⟨fuel, inLabels, hitem⟩
        exact (ih hrest hleft).from_earlier hran.runs.reaches

/-- A file of forms leaves no parenthesis open. -/
theorem items_unclosed (hrun : run setting fuel (.items unit) inLabels s = some (.ok result, t))
    (ht : t.IsFresh) (hforms : result.OnlyForms) (hs : Fine setting.layout s) :
    unclosed 1 s.ahead = unclosed 1 t.ahead := by
  induction fuel generalizing unit s with
  | zero => cases hrun
  | succ fuel ih =>
    rcases run_items_cases hrun ht hforms with ⟨-, -, rfl⟩ | ⟨-, form, m, hitem, hrest⟩
    · rfl
    · have hm := run_isFresh hrest ht
      have htaken : ItemTaken setting s (.form form) m := Ran.reads ⟨fuel, inLabels, hitem⟩ hs rfl
      exact (htaken.soFar.level hm unclosed counts_unclosed 0).trans (ih hrest htaken.soFar.fine)

theorem kept_last (setting : Setting) : Kept setting fun s =>
    ∀ x ∈ s.ahead.getLast?, x.kind ≠ .rbrace ∧ x.kind ≠ .semicolon where
  advance s n h := by
    intro x hx
    rw [State.advance_ahead, List.getLast?_drop] at hx
    split at hx
    · cases hx
    · exact h x hx
  splitAngle s h := by
    unfold State.splitAngle
    split
    · exact h
    · rename_i y rest hahead
      split
      · exact h
      · rename_i k hk
        intro x hx
        cases rest with
        | nil =>
          cases hx
          cases hy : y.kind <;> rw [hy] at hk <;> cases hk <;> decide
        | cons z rest =>
          rw [List.getLast?_cons_cons] at hx
          exact h x (by rwa [hahead, List.getLast?_cons_cons])
  record s fault start stop h := by simpa using h
  deprecation s doc name h := by simpa using h

/-- What ends the last item is the last symbol. -/
theorem EndsAt.last (h : EndsAt setting s t) (ht : t.ahead = []) {x : Symbol}
    (hx : x ∈ s.ahead.getLast?) : x.kind = .rbrace ∨ x.kind = .semicolon := by
  obtain ⟨u, y, hu, hahead, hy⟩ := h
  apply Classical.byContradiction
  intro hnot
  rw [not_or] at hnot
  have hlast := hu.kept (kept_last setting) (fun z hz => by
    cases Option.some.inj (hx.symm.trans hz)
    exact hnot)
  rw [hahead, ht] at hlast
  have hplain := hlast y rfl
  rcases hy with hy | hy
  · exact hplain.1 hy
  · exact hplain.2 hy

/-- Nothing is taken off a symbol that is not there. -/
theorem kept_taken (setting : Setting) : Kept setting fun s => s.ahead = [] → s.taken = 0 where
  advance s n h := by
    unfold State.advance
    split
    · exact h
    · exact fun _ => rfl
  splitAngle s h := by
    unfold State.splitAngle
    split
    · exact h
    · split
      · exact h
      · exact fun hnil => by cases hnil
  record s fault start stop h := by simpa using h
  deprecation s doc name h := by simpa using h

/-- At its end the loop gives what it has read. -/
theorem run_items_end (hend : s.ahead = []) :
    run setting 1 (.items unit) inLabels s = some (.ok unit, s) := by
  show exec setting (run setting 0) inLabels (if s.ahead.isEmpty = true then _ else _) s = _
  rw [if_pos (by rw [hend]; rfl)]
  rfl

end Runs

namespace Session

/-- In front of its first symbol, and nothing was reported. -/
structure AtStart (session : Session) : Prop where
  index : session.state.index = 0
  taken : session.state.taken = 0
  isFresh : session.state.IsFresh

variable {first second whole : Session}

/-- A session whose symbols start with those of another starts beside it. -/
theorem start_behind {tail : List Symbol} (hfirst : first.AtStart) (hwhole : whole.AtStart)
    (hfine : Fine first.layout first.state) (hahead : whole.state.ahead = first.state.ahead ++ tail)
    (hfresh : first.unit.2.state.IsFresh) (hforms : first.unit.1.OnlyForms) :
    first.state.Behind 0 tail whole.state := by
  refine ⟨hwhole.index.trans hfirst.index.symm, hwhole.taken.trans hfirst.taken.symm,
    hwhole.isFresh, ?_⟩
  by_cases hnil : first.state.ahead = []
  · exact .inr ⟨hnil, by rw [hahead, hnil]; rfl⟩
  · obtain ⟨hrun, hend, -⟩ := @enter_readsAll _ first (.items .empty) .empty rfl
    have hread := hrun _ (Nat.le_refl _)
    have hclosed := items_unclosed hread hfresh hforms hfine
    have hends := items_endsAt hread hfresh hforms hnil
    rw [hahead]
    refine .inl (Along.of_closed hnil (fun x hx => hends.last hend hx) (hclosed.trans ?_))
    exact congrArg (unclosed 1) hend

/-- A session whose symbols are those of two others reads the forms of both, if these read nothing
else and report nothing. -/
theorem unit_append (hfirst : first.AtStart) (hsecond : second.AtStart) (hwhole : whole.AtStart)
    (hfine : Fine first.layout first.state)
    (hahead : whole.state.ahead = first.state.ahead ++ second.state.ahead)
    (hfresh : first.unit.2.state.IsFresh) (hfresh' : second.unit.2.state.IsFresh)
    (hforms : first.unit.1.OnlyForms) (hforms' : second.unit.1.OnlyForms) :
    whole.unit.2.state.IsFresh ∧ whole.unit.1 = CompilationUnit.withForms .empty
      (first.unit.1.forms ++ move first.state.ahead.length second.unit.1.forms) := by
  obtain ⟨hrun, hend, hindex⟩ := @enter_readsAll _ first (.items .empty) .empty rfl
  obtain ⟨hrun', hend', -⟩ := @enter_readsAll _ second (.items .empty) .empty rfl
  obtain ⟨hruns, -⟩ := @enter_readsAll _ whole (.items .empty) .empty rfl
  have hread := hrun _ (Nat.le_refl _)
  have hread' := hrun' _ (Nat.le_refl _)
  obtain ⟨forms, m, hlisted, hm, hbehind, hmid⟩ := items_behind whole.setting hread hfresh hforms
    (start_behind hfirst hwhole hfine hahead hfresh hforms)
  -- From there the second text is read, as many tokens further on as the first one has.
  have hnext : second.state.Behind first.state.ahead.length [] m := by
    have htaken : first.unit.2.state.taken = 0 :=
      run_keeps (kept_taken first.setting) _ _ _ _ _ _ hread (fun _ => hfirst.taken) hend
    refine ⟨?_, ?_, hbehind.isFresh, .inl (hmid ▸ .refl _)⟩
    · rw [hbehind.index, hindex, hfirst.index, hsecond.index, Nat.add_zero]
    · exact (hbehind.taken.trans htaken).trans hsecond.taken.symm
  obtain ⟨forms', t, hlisted', ht, hbehind', hlast⟩ :=
    items_behind whole.setting hread' hfresh' hforms' hnext
  obtain ⟨more, hmore⟩ := (hm.trans ht) .empty 1 _ (run_items_end hlast)
  have hsame := run_unique (hruns _ (Nat.le_refl _)) hmore
  obtain ⟨hvalue, hstate⟩ := Prod.mk.inj hsame
  refine ⟨?_, ?_⟩
  · show (whole.enter _ _).2.state.IsFresh
    rw [hstate]
    exact hbehind'.isFresh
  · have hforms₁ : first.unit.1.forms = move 0 forms :=
      hlisted.trans (Movable.list_move_zero Movable.form_move_zero forms).symm
    have hforms₂ : second.unit.1.forms = forms' := hlisted'
    rw [hforms₁, hforms₂]
    exact Except.ok.inj hvalue

end Session

end JavaSyntax
