import JavaSyntax.Proofs.ReadDeclarations

/-!
What the rules for members and for the top of a file read, and with them what every nonterminal
reads: `run_reads` is the contract of all rules together.
-/

namespace JavaSyntax

namespace Grammar

open Rule

variable {setting : Setting} {inLabels : Bool} {A : Context → Prop} {s t origin : State}
  {β : Type} {P : β → State → Prop} {mods : Modifiers}

theorem next_of_next {k l : Kind} {ts : List Symbol} (h : Lookahead.next [k, l] ts = true) :
    Lookahead.next [k] ts = true := by
  cases ts with
  | nil => cases h
  | cons x rest => simp_all [Lookahead.next]

theorem member_reads (owner : String) (hs : Fine setting.layout s) :
    (member owner).Ensures setting (reads setting) inLabels s
      (Ends setting (Taken setting (ownedBy owner) s)) := by
  unfold member
  refine modifiers_reads hs fun mods t hmods h _ hwhole => ?_
  rw [ensures_ahead_bind]
  split
  · exact initBlock_reads hmods h
  · split
    · rename_i hdecl
      have hs := hwhole (h.fine.taken_eq_zero (Lookahead.startsWhole_of_isTypeDecl hdecl))
      refine call_wrapped h.fine ⟨hmods, hs, h⟩ rfl (fun tree => ?_) rfl (fun _ => rfl)
        (fun tree => ?_) (fun _ => trivial) fun _ _ _ => trivial
      · cases tree
        exact ⟨_, rfl⟩
      · cases tree
        rfl
    · refine h.bind (typeParams_taken h.fine) fun typeParams t h hparams => ?_
      have hwhole := hwhole ∘ hparams
      rw [ensures_ahead_bind]
      split
      · rename_i hnext
        exact constructorDecl_reads owner hmods hwhole h (next_of_next hnext)
      · split
        · rename_i hnext
          exact compactConstructor_reads hmods hwhole (h.only (by simp))
            (Bool.and_eq_true_iff.mp hnext).2
        · exact typedMember_reads hmods hwhole h

/-! The clauses of a file. -/

/-- The first symbol of a clause is that of its annotations; without any it is the next one. -/
theorem clauseStart_reads {f : Mark → Rule β} (hmods : mods.BeganAt s)
    (hsame : mods.modifiers = [] → mods.annotations.isNil = true → t = s)
    (hf : (f s.mark).Ensures setting (reads setting) inLabels t (Ends setting P)) :
    (clauseStart mods >>= f).Ensures setting (reads setting) inLabels t (Ends setting P) := by
  unfold clauseStart
  split
  · rename_i hnone
    simp only [Bool.and_eq_true, List.isEmpty_iff] at hnone
    rw [hsame hnone.1 hnone.2] at hf ⊢
    exact hf
  · rw [← hmods.start] at hf
    exact hf

/-- A package was read behind the annotations in front of it. -/
theorem packageDecl_reads (hmods : mods.BeganAt s)
    (hsame : mods.modifiers = [] → mods.annotations.isNil = true → t = s)
    (h : SoFar setting anywhere s [⟨_, mods.annotations⟩] 0 false t) :
    (packageDecl mods).Ensures setting (reads setting) inLabels t
      (Ends setting fun decl u => ItemTaken setting s (.package decl) u) := by
  unfold packageDecl
  refine clauseStart_reads hmods hsame ?_
  refine h.expect rfl fun h => ?_
  refine h.qualifiedName fun name u h => ?_
  exact h.require rfl fun u h => ⟨h, rfl, nofun, rfl⟩

/-- A dotted name takes every segment there is. -/
theorem next_dottedTail (ts : List Symbol) :
    Lookahead.next [.dot, .identifier] (ts.drop (2 * (Lookahead.dottedTail ts).length)) =
      false := by
  fun_induction Lookahead.dottedTail ts with
  | case1 x y rest hxy ih => simpa [Nat.mul_add] using ih
  | case2 x y rest hxy => simpa [Lookahead.next] using hxy
  | case3 ts hshort =>
    rcases ts with _ | ⟨x, _ | ⟨y, rest⟩⟩
    · rfl
    · simp [Lookahead.next]
    · exact (hshort x y rest rfl).elim

theorem wholeName_reads {f : String → Rule β} {parts : List Part} {depth : Nat} {b : Bool}
    (h : SoFar setting A s parts depth b t)
    (hf : ∀ name u, SoFar setting A s parts depth true u →
      Lookahead.next [.dot, .identifier] u.ahead = false →
      (f name).Ensures setting (reads setting) inLabels u (Ends setting P)) :
    (qualifiedName >>= f).Ensures setting (reads setting) inLabels t (Ends setting P) := by
  refine ensures_bind_ends (P := fun _ u => SoFar setting A s parts depth true u ∧
    Lookahead.next [.dot, .identifier] u.ahead = false) ?_ fun name u hu => hf name u hu.1 hu.2
  unfold qualifiedName
  refine h.identifier fun name u h _ => ⟨h.advance (SoFar.plain_dottedTail u.ahead), ?_⟩
  rw [State.ahead_advance]
  exact next_dottedTail u.ahead

theorem importDecl_reads (hs : Fine setting.layout s) :
    importDecl.Ensures setting (reads setting) inLabels s
      (Ends setting fun decl u => ItemTaken setting s (.import decl) u) := by
  unfold importDecl
  rw [ensures_mark_bind]
  refine hs.soFar.expect rfl fun h => ?_
  refine h.acceptDropped rfl fun isStatic t h => ?_
  refine wholeName_reads h fun name t h hlast => ?_
  have hrest : ∀ dotted u, SoFar setting anywhere s [] 0 true u →
      (require .semicolon >>= fun _ => since s.mark >>= fun e =>
        pure (⟨name, isStatic, dotted, e⟩ : ImportDecl)).Ensures setting (reads setting) inLabels u
          (Ends setting fun decl u => ItemTaken setting s (.import decl) u) := fun dotted u h =>
    h.require rfl fun u h => ⟨h, rfl, nofun, rfl⟩
  rw [ensures_accept_bind]
  split
  · rename_i hdot
    have hdotted := h.takeNext hdot rfl
    rw [if_pos rfl, ensures_check_bind]
    dsimp only
    split
    · -- Behind the dot stands no name, for the dotted name would have taken it.
      have hno : ¬Lookahead.next [.identifier] (t.advance 1).ahead = true := by
        obtain ⟨x, rest, hahead, hkind⟩ := SoFar.ahead_of_next hdot
        rw [State.ahead_advance, hahead]
        simpa [hahead, Lookahead.next, hkind] using hlast
      unfold identifier
      rw [ensures_bind, ensures_view_bind, State.view_ahead, if_neg hno]
      exact hdotted.missing .identifier fun (_ : String) _ => True
    · rename_i hstar
      exact hrest true _ (hdotted.takeNext (by simpa using hstar) rfl)
  · exact hrest false t h

theorem names_reads (hs : Fine setting.layout s) :
    names.Ensures setting (reads setting) inLabels s
      (Ends setting fun _ u => SoFar setting anywhere s [] 0 false u) := by
  unfold names
  refine hs.soFar.qualifiedName fun first t h => ?_
  refine h.accept rfl (fun h => ?_) h.idle
  exact call_reads h.fine rfl fun rest u hrest _ => (h.trans hrest).idle

theorem targets_reads (ht : Fine setting.layout t) :
    targets.Ensures setting (reads setting) inLabels t
      (Ends setting fun _ u => SoFar setting anywhere t [] 0 false u) := by
  unfold targets
  rw [ensures_ahead_bind]
  split
  · rename_i hnext
    have h := takeWord ht.soFar hnext
    have hbegun : Nonterminal.names.Begun setting (t.advance 1) (t.advance 1) := rfl
    exact (call_ends h.fine hbegun).ends fun _ _ hnames => (h.trans hnames).idle
  · exact ht.soFar

theorem plain_requireWords (ts : List Symbol) :
    ∀ x ∈ ts.take (Lookahead.requireWords ts).2.2, isParen x.kind = false := by
  fun_induction Lookahead.requireWords ts with
  | case1 => simp
  | case2 x rest hword isTransitive isStatic n hrest ih =>
    rw [hrest] at ih
    intro y hy
    rcases List.mem_cons.mp hy with rfl | hy
    · exact isParen_of_isWord (Bool.and_eq_true_iff.mp hword).1
    · exact ih y hy
  | case3 x rest _ hstatic isTransitive isStatic n hrest ih =>
    rw [hrest] at ih
    intro y hy
    rcases List.mem_cons.mp hy with rfl | hy
    · rw [hstatic]
      rfl
    · exact ih y hy
  | case4 => simp

theorem directive_reads (hs : Fine setting.layout s) :
    directive.Ensures setting (reads setting) inLabels s
      (Ends setting fun d u => SoFar setting anywhere s [] 0 true u ∧ d.extent = s.upTo u) := by
  unfold directive
  rw [ensures_view_bind, State.view_ahead]
  have htake {word : String} (hnext : Lookahead.nextWord word s.ahead = true) :=
    takeWord hs.soFar hnext
  dsimp only
  split
  · rename_i hnext
    have h := (htake hnext).advance (plain_requireWords (s.advance 1).ahead)
    refine SoFar.qualifiedName h fun name t h => ?_
    exact h.require rfl fun t h => ⟨h, rfl⟩
  split
  · rename_i hnext
    refine SoFar.qualifiedName (htake hnext) fun package t h => ?_
    refine h.skip (targets_reads h.fine) fun targets t h => ?_
    exact h.require rfl fun t h => ⟨h, rfl⟩
  split
  · rename_i hnext
    refine SoFar.qualifiedName (htake hnext) fun package t h => ?_
    refine h.skip (targets_reads h.fine) fun targets t h => ?_
    exact h.require rfl fun t h => ⟨h, rfl⟩
  split
  · rename_i hnext
    refine SoFar.qualifiedName (htake hnext) fun service t h => ?_
    exact h.require rfl fun t h => ⟨h, rfl⟩
  split
  · rename_i hnext
    refine SoFar.qualifiedName (htake hnext) fun service t h => ?_
    rw [ensures_view_bind, State.view_ahead]
    split
    · rename_i hwith
      have h := takeWord h hwith
      refine call_reads h.fine rfl fun implementations u hnames _ => ?_
      exact SoFar.require (h.trans hnames) rfl fun t h => ⟨h, rfl⟩
    · exact h.missing (.word "with") fun (_ : Directive) _ => True
  · exact hs.soFar.missing .directive _

theorem directives_reads (hs : Fine setting.layout s) :
    directives.Ensures setting (reads setting) inLabels s
      (Ends setting (Nonterminal.directives.Reading setting s)) := by
  unfold directives
  rw [ensures_ahead_bind]
  split
  · exact ⟨hs.soFar, nofun⟩
  · refine ensures_bind_ends (directive_reads hs) fun first t hfirst => ?_
    obtain ⟨h, hextent⟩ := hfirst
    refine call_reads h.fine rfl fun rest u hrest hruns => ⟨(h.trans hrest.1).idle, ?_⟩
    intro d hd
    rcases List.mem_cons.mp hd with rfl | hd
    · exact ⟨s, t, .refl s, h.reaches, hruns.reaches, hextent, h.began rfl⟩
    · exact (hrest.2 d hd).between h.reaches (.refl u)

theorem plain_isModule {ts : List Symbol} (h : Lookahead.isModule ts = true) :
    ∀ x ∈ ts.take (if Lookahead.nextWord "open" ts = true then 2 else 1),
      isParen x.kind = false := by
  have hword {word : String} {ts : List Symbol} (h : Lookahead.nextWord word ts = true) :
      ∀ x ∈ ts.take 1, isParen x.kind = false := by
    cases ts with
    | nil => simp
    | cons x rest => simpa using isParen_of_isWord h
  unfold Lookahead.isModule at h
  dsimp only at h
  have hmodule := (Bool.and_eq_true_iff.mp h).1
  split
  · rename_i hopen
    rw [if_pos hopen] at hmodule
    intro x hx
    rw [show 2 = 1 + 1 from rfl, List.take_add] at hx
    rcases List.mem_append.mp hx with hx | hx
    · exact hword hopen x hx
    · exact hword hmodule x hx
  · rename_i hopen
    rw [if_neg hopen] at hmodule
    exact hword hmodule

theorem moduleDecl_reads (hmods : mods.BeganAt s)
    (hsame : mods.modifiers = [] → mods.annotations.isNil = true → t = s)
    (h : SoFar setting anywhere s [⟨_, mods.annotations⟩] 0 false t)
    (hnext : Lookahead.isModule t.ahead = true) :
    (moduleDecl mods).Ensures setting (reads setting) inLabels t
      (Ends setting fun decl u => ItemTaken setting s (.module decl) u) := by
  unfold moduleDecl
  refine clauseStart_reads hmods hsame ?_
  rw [ensures_ahead_bind]
  dsimp only
  rw [ensures_advance_bind]
  refine SoFar.qualifiedName (h.advance (plain_isModule hnext)) fun name u h => ?_
  refine h.expect rfl fun h => ?_
  refine call_reads h.fine rfl fun directives w hdirectives hruns => ?_
  have hall := h.trans hdirectives.1
  refine hall.requireFrom rfl fun v h' hway => ⟨h', rfl, fun d hd => ?_, rfl⟩
  exact (hdirectives.2 d hd).between h.reaches hway

theorem item_reads (hs : Fine setting.layout s) :
    item.Ensures setting (reads setting) inLabels s (Ends setting (ItemTaken setting s)) := by
  unfold item
  rw [ensures_view_bind, State.view_ahead]
  split
  · rename_i hnext
    obtain ⟨x, rest, hahead, _⟩ := SoFar.ahead_of_next hnext
    exact ⟨hs.soFar.takeNext hnext rfl, hs.placed.here_eq hahead inLabels, nofun, rfl⟩
  split
  · exact ensures_bind_ends (importDecl_reads hs) fun _ _ hdecl => hdecl
  · refine modifiers_reads hs fun mods t hmods h hsame hwhole => ?_
    rw [ensures_view_bind, State.view_ahead]
    split
    · exact ensures_bind_ends (packageDecl_reads hmods hsame h) fun _ _ hdecl => hdecl
    split
    · rename_i hnext
      exact ensures_bind_ends
        (moduleDecl_reads hmods hsame h (Bool.and_eq_true_iff.mp hnext).2) fun _ _ hdecl => hdecl
    split
    · rename_i hdecl
      have hs := hwhole (h.fine.taken_eq_zero (Lookahead.startsWhole_of_isTypeDecl hdecl))
      refine call_reads h.fine ⟨hmods, hs, h⟩ fun decl u hdecl _ => ?_
      exact ⟨hdecl.begun rfl, hdecl.extent _ rfl, nofun, rfl⟩
    · exact h.wrong _ nofun

/-! Whole inputs. What they read is said elsewhere; here, that all that is reported lies in the
text. -/

theorem addItem_fine {unit : CompilationUnit} {item : UnitItem} (hitem : ItemTaken setting s item t)
    (hs : Fine setting.layout s) :
    (addItem unit item).Ensures setting (reads setting) inLabels t
      (Ends setting fun _ => Fine setting.layout) := by
  have ht := hitem.soFar.fine
  have hsound : setting.layout.Sound (.point item.extent.start) := by
    rw [hitem.extent]
    exact Layout.sound_point (State.sound_upTo hs.placed hitem.soFar.reaches hs.tiled).1
  unfold addItem
  split
  case h_4 => exact ht
  all_goals
    split
    · exact ht
    · exact ht.report (hsound.told nofun)

theorem items_fine (unit : CompilationUnit) (hs : Fine setting.layout s) :
    (items unit).Ensures setting (reads setting) inLabels s
      (Ends setting fun _ => Fine setting.layout) := by
  unfold items
  rw [ensures_view_bind, State.view_ahead]
  split
  · exact hs
  rename_i hmore
  split
  · exact hs.advance _
  · rw [ensures_attempt_bind]
    refine ⟨⟨hs, s, rfl⟩, fun r t hpost => ?_⟩
    have hends := hpost.1 s rfl
    cases r with
    | ok item =>
      exact ensures_bind_ends (addItem_fine hends hs) fun unit u hu => call_ends hu rfl
    | error error =>
      exact recover_reads Resync.length_topLevel_le (left_pos_of_not_isEmpty hmore) hpost.2
        hends.1 hends.2 fun u h _ => call_ends h.fine rfl

theorem finish_fine (hs : Fine setting.layout s) :
    finish.Ensures setting (reads setting) inLabels s
      (Ends setting fun _ => Fine setting.layout) := by
  unfold finish
  rw [ensures_view_bind]
  split
  · split
    · have htold : setting.layout.Told ⟨.trailingInput, (s.view inLabels).here⟩ :=
        (hs.placed.sound_here hs.tiled inLabels).told nofun
      exact (hs.report htold).advance _
    · exact hs.advance _
  · exact hs

theorem whole_fine {c : Category} {nonterminal : Nonterminal (Tree c)} {wrap : Tree c → Tree .expr}
    (hs : Fine setting.layout s) (hbegun : nonterminal.Begun setting s s)
    (hreading : nonterminal.Reading setting s = Taken setting anywhere s) :
    (whole nonterminal wrap).Ensures setting (reads setting) inLabels s
      (Ends setting fun _ => Fine setting.layout) := by
  have hfinish {t : State} (tree : Tree .expr) (ht : Fine setting.layout t) :
      (finish >>= fun _ => pure tree).Ensures setting (reads setting) inLabels t
        (Ends setting fun _ => Fine setting.layout) :=
    ensures_bind_ends (finish_fine ht) fun _ _ hu => hu
  unfold whole
  rw [ensures_attempt_bind]
  refine ⟨⟨hs, s, hbegun⟩, fun r t hpost => ?_⟩
  have hends := hpost.1 s hbegun
  cases r with
  | ok value =>
    have htaken : Taken setting anywhere s value t := hreading ▸ hends
    exact hfinish _ htaken.soFar.fine
  | error error => exact hfinish _ ((hends.1.report hends.2).advance _)

/-- Every rule reads what its nonterminal promises. -/
theorem rule_reads {nonterminal : Nonterminal β} (hs : Fine setting.layout s)
    (hbegun : nonterminal.Begun setting origin s) :
    (rule nonterminal).Ensures setting (reads setting) inLabels s
      (Ends setting (nonterminal.Reading setting origin)) := by
  cases nonterminal
  -- These go on with what their caller began.
  case typeSegments start outer name diamond =>
    obtain ⟨rfl, h⟩ := hbegun
    exact typeSegments_reads name diamond h
  case typesAfter separator =>
    obtain ⟨rfl, hk⟩ := hbegun
    exact typesAfter_reads hk hs
  case binaryRest least start left =>
    obtain ⟨rfl, h⟩ := hbegun
    exact binaryRest_reads least h
  case selectors start target =>
    obtain ⟨rfl, h⟩ := hbegun
    exact selectors_reads h
  case steps start operand =>
    obtain ⟨rfl, h⟩ := hbegun
    exact steps_reads h
  case declarators name start =>
    obtain ⟨rfl, h⟩ := hbegun
    exact declarators_reads name h
  case typeDecl mods => exact typeDecl_reads hbegun.1 hbegun.2.1 hbegun.2.2
  all_goals obtain rfl : origin = s := hbegun
  case annot => exact annot_reads hs
  case annotations onType => exact annotations_reads onType hs
  case namedElements => exact namedElements_reads hs
  case elementValue => exact elementValue_reads hs
  case elementValues => exact elementValues_reads hs
  case type => exact type_reads hs
  case typeArgs => exact typeArgs_reads hs
  case typeArgList => exact typeArgList_reads hs
  case typeParamList => exact typeParamList_reads hs
  case expr => exact expr_reads hs
  case conditional => exact conditional_reads hs
  case binary least => exact binary_reads least hs
  case unary => exact unary_reads hs
  case lambda => exact lambda_reads hs
  case exprList => exact exprList_reads hs
  case sizes => exact sizes_reads hs
  case arrayInit => exact arrayInit_reads hs
  case arrayElements => exact arrayElements_reads hs
  case lambdaParamList => exact lambdaParamList_reads hs
  case labels => exact labels_reads hs
  case switchRest isExpr => exact switchRest_reads isExpr hs
  case switchCases isExpr => exact switchCases_reads isExpr hs
  case switchCase isExpr => exact switchCase_reads isExpr hs
  case stmt => exact stmt_reads hs
  case block => exact block_reads hs
  case statements inSwitch => exact statements_reads inSwitch hs
  case standalones => exact standalones_reads hs
  case resources => exact resources_reads hs
  case catches => exact catches_reads hs
  case modifierRun => exact modifierRun_reads hs
  case members owner => exact members_reads owner hs
  case member owner => exact member_reads owner hs
  case paramList => exact paramList_reads hs
  case enumConstants => exact enumConstants_reads hs
  case names => exact names_reads hs
  case directives => exact directives_reads hs
  case item => exact item_reads hs
  case items unit => exact items_fine unit hs
  case wholeExpr => exact whole_fine hs rfl rfl
  case wholeType => exact whole_fine hs rfl rfl

end Grammar

/-- What a nonterminal has read when its run ends. -/
theorem run_reads {setting : Setting} {fuel : Nat} {β : Type} {nonterminal : Nonterminal β}
    {inLabels : Bool} {s t origin : State} {r : Except SyntaxError β}
    (h : run setting fuel nonterminal inLabels s = some (r, t)) (hs : Fine setting.layout s)
    (hbegun : nonterminal.Begun setting origin s) :
    Ends setting (nonterminal.Reading setting origin) r t := by
  refine (run_respects_knowing (C := readings setting) (knows_runs setting) ?_ fuel nonterminal
    inLabels s r t ⟨hs, origin, hbegun⟩ h).1 origin hbegun
  intro β nonterminal flag s hpre
  obtain ⟨hs, first, hfirst⟩ := hpre
  have hnonempty : Nonempty {origin // nonterminal.Begun setting origin s} := ⟨first, hfirst⟩
  refine (Rule.ensures_forall fun origin : {origin // nonterminal.Begun setting origin s} =>
    Grammar.rule_reads hs origin.2).mono fun r t hr origin hbegun => ?_
  exact hr ⟨origin, hbegun⟩

end JavaSyntax
