import JavaSyntax.Proofs.ReadExpressions

/-!
What the rules for modifiers, variables, statements and switches read. A fault inside a block or a
switch was reported before its marker is put down, so a parse without errors has none.
-/

namespace JavaSyntax.Grammar

open Rule

variable {setting : Setting} {inLabels : Bool} {A : Context → Prop} {s t origin : State}
  {β : Type} {P : β → State → Prop}

/-! Modifiers and variables. -/

theorem isParen_of_isWord {x : Symbol} {word : String} (h : x.isWord word = true) :
    isParen x.kind = false := by
  have hkind : x.kind = .identifier := by
    simpa using (Bool.and_eq_true_iff.mp h).1
  rw [hkind]
  rfl

theorem plain_nextModifier {ts : List Symbol} {m : Modifier} {n : Nat}
    (h : nextModifier ts = some (m, n)) : ∀ x ∈ ts.take n, isParen x.kind = false := by
  unfold nextModifier at h
  split at h
  · rename_i found hfound
    cases h
    cases ts with
    | nil => simp
    | cons x rest =>
      have hx : modifier? x.kind = some m := by simpa [lookup] using hfound
      simpa using SoFar.isParen_of_table hx rfl rfl
  · split at h
    · rename_i hsealed
      cases h
      unfold Lookahead.isSealed at hsealed
      split at hsealed
      · rename_i x y rest
        intro z hz
        cases List.mem_singleton.mp hz
        exact isParen_of_isWord (Bool.and_eq_true_iff.mp hsealed).1
      · cases hsealed
    · split at h
      · rename_i hnon
        cases h
        unfold Lookahead.isNonSealed at hnon
        split at hnon
        · rename_i x y z rest _ _
          simp only [Bool.and_eq_true, beq_iff_eq] at hnon
          obtain ⟨⟨⟨⟨hx, hy⟩, hz⟩, _⟩, _⟩ := hnon
          have hminus : isParen y.kind = false := by
            rw [hy]
            rfl
          simpa using ⟨isParen_of_isWord hx, hminus, isParen_of_isWord hz⟩
        · cases hnon
      · cases h

theorem modifierRun_reads (hs : Fine setting.layout s) :
    modifierRun.Ensures setting (reads setting) inLabels s
      (Ends setting (Nonterminal.modifierRun.Reading setting s)) := by
  unfold modifierRun
  rw [ensures_ahead_bind]
  split
  · refine hs.soFar.call rfl rfl fun first t h => ?_
    refine call_reads h.fine rfl fun read u hread _ => ?_
    obtain ⟨modifiers, annotations⟩ := read
    exact ⟨(h.cons hread.1).idle, fun _ hnil => by cases hnil⟩
  · split
    · rename_i first n hnext
      have h := hs.soFar.advance (plain_nextModifier hnext)
      rw [ensures_advance_bind]
      refine call_reads h.fine rfl fun read u hread _ => ?_
      obtain ⟨modifiers, annotations⟩ := read
      exact ⟨h.trans hread.1, nofun⟩
    · exact ⟨hs.soFar.nil, fun _ _ => rfl⟩

/-- Modifiers are whole tokens, so what begins with them begins with a whole token if what is
behind them does. -/
theorem modifiers_reads {f : Modifiers → Rule β} (ht : Fine setting.layout t)
    (hf : ∀ mods u, mods.BeganAt t →
      SoFar setting anywhere t [⟨_, mods.annotations⟩] 0 false u →
      (mods.modifiers = [] → mods.annotations.isNil = true → u = t) →
      (u.taken = 0 → t.taken = 0) →
      (f mods).Ensures setting (reads setting) inLabels u (Ends setting P)) :
    (modifiers >>= f).Ensures setting (reads setting) inLabels t (Ends setting P) := by
  refine ensures_bind_ends (P := fun mods u => mods.BeganAt t ∧
    SoFar setting anywhere t [⟨_, mods.annotations⟩] 0 false u ∧
    (mods.modifiers = [] → mods.annotations.isNil = true → u = t) ∧
    (u.taken = 0 → t.taken = 0)) ?_
    fun mods u hu => hf mods u hu.1 hu.2.1 hu.2.2.1 hu.2.2.2
  unfold modifiers
  rw [ensures_view_bind]
  refine call_reads ht rfl fun read u hread hruns => ?_
  obtain ⟨modifiers, annotations⟩ := read
  refine ⟨⟨rfl, rfl⟩, hread.1, hread.2, fun hu => ?_⟩
  rcases hruns.edge _ rfl with rfl | hwhole
  · exact hu
  · exact ht.taken_eq_zero hwhole

theorem declarator_reads (name : String) (h : SoFar setting anywhere origin [] 0 true s) :
    (declarator name origin.mark).Ensures setting (reads setting) inLabels s
      (Ends setting (Taken setting anywhere origin)) := by
  unfold declarator
  refine h.dims fun n t h => ?_
  refine h.acceptOption rfl (fun u hu => (initialValue_reads hu).soFar) fun init u h => ?_
  exact h.finish (fun _ => rfl) (fun _ => rfl) (fun _ => trivial) fun _ _ _ _ => trivial

theorem declarators_reads (name : String) (h : SoFar setting anywhere origin [] 0 true s) :
    (declarators name origin.mark).Ensures setting (reads setting) inLabels s
      (Ends setting (Taken setting anywhere origin)) := by
  unfold declarators
  refine ensures_bind_ends (declarator_reads name h) fun first t hfirst => ?_
  refine hfirst.soFar.accept rfl (fun h => ?_) (.of_list hfirst.soFar.single)
  rw [if_pos rfl, ensures_mark_bind]
  refine h.fine.soFar.identifier fun name u hname _ => ?_
  refine call_reads hname.fine ⟨rfl, hname⟩ fun rest w hrest _ => ?_
  exact .of_list (h.cons hrest.soFar)

theorem variableNames_reads (ht : Fine setting.layout t) :
    variableNames.Ensures setting (reads setting) inLabels t
      (Ends setting fun names u => SoFar setting anywhere t [⟨_, names⟩] 0 true u) := by
  unfold variableNames
  rw [ensures_mark_bind]
  refine ht.soFar.identifier fun name u hname _ => ?_
  have hbegun : (Nonterminal.declarators name t.mark).Begun setting t u := ⟨rfl, hname⟩
  refine (call_runs hname.fine hbegun).ends fun names w hw => ?_
  exact hw.1.soFar.begin (Nat.lt_of_lt_of_le (hname.began rfl) hw.2.reaches.index_le)

theorem localVariables_reads {mods : Modifiers} (hmods : mods.BeganAt s)
    (h : SoFar setting anywhere s [⟨_, mods.annotations⟩] 0 false t) :
    (localVariables mods).Ensures setting (reads setting) inLabels t
      (Ends setting (Taken setting anywhere s)) := by
  unfold localVariables
  rw [hmods.start]
  refine h.call rfl rfl fun type u h => ?_
  refine h.tree (variableNames_reads h.fine) fun names u h => ?_
  refine h.require rfl fun u h => ?_
  have hdecl := h.here (B := anywhere) (Tree.varDecl mods.undocumented mods.annotations type names)
    (fun _ => rfl) (fun _ => rfl) (fun _ => trivial) fun _ _ _ _ => trivial
  exact hdecl.wrap rfl rfl rfl rfl trivial fun _ _ _ => trivial

/-! Expressions in the place of statements. -/

theorem standsAlone_of_fits {ctx : Context} {e : Tree .expr} (h : mayStandAlone e = true)
    (hfits : e.Fits ctx) : e.standsAlone = true := by
  cases e <;> first | exact h | exact hfits.elim

theorem checkStandalone_reads {e : Tree .expr} {f : Unit → Rule β} {b : Bool}
    (h : SoFar setting anywhere s [⟨_, e⟩] 0 b t) (hsound : setting.layout.Sound e.exprExtent)
    (hf : ∀ u, SoFar setting anywhere s [⟨_, e⟩] 0 b u → (u.IsFresh → e.standsAlone = true) →
      (f ()).Ensures setting (reads setting) inLabels u (Ends setting P)) :
    (checkStandalone e >>= f).Ensures setting (reads setting) inLabels t (Ends setting P) := by
  unfold checkStandalone
  split
  · rename_i hmay
    have hread := h.parts _ List.mem_cons_self .plain trivial
    exact hf t h fun hfresh => standsAlone_of_fits hmay (hread.fits hfresh)
  · exact h.reporting (hsound.told nofun) fun u _ h hstale =>
      hf u h fun hfresh => absurd hfresh hstale

theorem parenExpr_reads (ht : Fine setting.layout t) :
    parenExpr.Ensures setting (reads setting) inLabels t
      (Ends setting fun inner u => SoFar setting anywhere t [⟨_, inner⟩] 0 true u) := by
  unfold parenExpr
  refine ht.soFar.expectOpen fun h => ?_
  refine h.call rfl rfl fun inner u h => ?_
  exact h.expectClose fun h => h

theorem exprStatement_reads (hs : Fine setting.layout s) :
    (exprStatement s.mark).Ensures setting (reads setting) inLabels s
      (Ends setting (Taken setting anywhere s)) := by
  unfold exprStatement
  refine call_reads hs rfl fun e t he _ => ?_
  refine checkStandalone_reads (he.begun rfl) (he.sound hs rfl) fun u h halone => ?_
  refine h.requireFrom rfl fun w h hway => ?_
  have hstandalone := h.here (B := anywhere) (Tree.standalone e) (fun _ => rfl) (fun _ => rfl)
    (fun _ => trivial) fun _ _ _ hfresh => .inr (halone (hway.isFresh hfresh))
  exact hstandalone.wrap rfl rfl rfl rfl trivial fun _ _ _ => trivial

theorem standalones_reads (hs : Fine setting.layout s) :
    standalones.Ensures setting (reads setting) inLabels s
      (Ends setting (Taken setting anywhere s)) := by
  unfold standalones
  rw [ensures_mark_bind]
  refine call_reads hs rfl fun e t he _ => ?_
  refine checkStandalone_reads (he.begun rfl) (he.sound hs rfl) fun u h halone => ?_
  rw [ensures_since_bind]
  have hfirst := h.here (B := anywhere) (Tree.standalone e) (fun _ => rfl) (fun _ => rfl)
    (fun _ => trivial) fun _ _ _ hfresh => .inr (halone hfresh)
  exact hfirst.soFar.separated rfl (fun _ => rfl) fun _ => rfl

/-! Statements. Those that a keyword opens are followed from behind it. -/

theorem localDeclaration_reads (hs : Fine setting.layout s) :
    localDeclaration.Ensures setting (reads setting) inLabels s
      (Ends setting (Taken setting anywhere s)) := by
  unfold localDeclaration
  refine modifiers_reads hs fun mods t hmods h _ hwhole => ?_
  rw [ensures_ahead_bind]
  split
  · rename_i hdecl
    have hs := hwhole (h.fine.taken_eq_zero (Lookahead.startsWhole_of_isTypeDecl hdecl))
    refine call_wrapped h.fine ⟨hmods, hs, h⟩ rfl (fun tree => ?_) rfl (fun _ => rfl)
      (fun tree => ?_) (fun _ => trivial) fun _ _ _ => trivial
    · cases tree
      exact ⟨_, rfl⟩
    · cases tree
      rfl
  · exact localVariables_reads hmods h

/-- An `else` that comes next could have been taken by no statement inside. -/
theorem ifStatement_reads (h : SoFar setting anywhere s [] 0 true (s.advance 1)) :
    (ifStatement s.mark).Ensures setting (reads setting) inLabels s
      (Ends setting (Taken setting anywhere s)) := by
  unfold ifStatement
  rw [ensures_advance_bind]
  refine h.tree (parenExpr_reads h.fine) fun condition t h => ?_
  refine h.callKnowing rfl rfl fun yes t h hruns => ?_
  rw [ensures_accept_bind]
  split
  · rename_i hnext
    have hyes : ¬yes.Dangles := fun hdangles => by
      rw [hruns.edge yes rfl hdangles] at hnext
      cases hnext
    have h := h.takeNext hnext rfl
    refine h.tree (optionIf_read h.fine fun _ => call_read h.fine rfl rfl) fun no t h => ?_
    refine h.finish (fun _ => rfl) (fun _ => rfl) (fun e => ?_) fun _ _ _ _ => trivial
    cases no with
    | none => trivial
    | some no => exact hyes
  · exact h.addNone.finish (fun _ => rfl) (fun _ => rfl) (fun _ => trivial) fun _ _ _ _ => trivial

theorem whileStatement_reads (h : SoFar setting anywhere s [] 0 true (s.advance 1)) :
    (whileStatement s.mark).Ensures setting (reads setting) inLabels s
      (Ends setting (Taken setting anywhere s)) := by
  unfold whileStatement
  rw [ensures_advance_bind]
  refine h.tree (parenExpr_reads h.fine) fun condition t h => ?_
  refine h.call rfl rfl fun body t h => ?_
  exact h.finish (fun _ => rfl) (fun _ => rfl) (fun _ => trivial) fun _ _ _ _ => trivial

theorem doStatement_reads (h : SoFar setting anywhere s [] 0 true (s.advance 1)) :
    (doStatement s.mark).Ensures setting (reads setting) inLabels s
      (Ends setting (Taken setting anywhere s)) := by
  unfold doStatement
  rw [ensures_advance_bind]
  refine h.call rfl rfl fun body t h => ?_
  refine h.expect rfl fun h => ?_
  refine h.tree (parenExpr_reads h.fine) fun condition t h => ?_
  refine h.require rfl fun t h => ?_
  exact h.finish (fun _ => rfl) (fun _ => rfl) (fun _ => trivial) fun _ _ _ _ => trivial

theorem forInit_reads (ht : Fine setting.layout t) :
    forInit.Ensures setting (reads setting) inLabels t
      (Ends setting fun init u => SoFar setting anywhere t [⟨_, init⟩] 0 false u) := by
  unfold forInit
  rw [ensures_ahead_bind]
  split
  · have h : SoFar setting anywhere t [⟨_, (.nil : Tree (.list .standalone))⟩] 0 false t :=
      ht.soFar.nil
    exact h.wrap rfl rfl rfl trivial fun _ _ => trivial
  · split
    · refine modifiers_reads ht fun mods u hmods h _ _ => ?_
      rw [hmods.start]
      refine h.call rfl rfl fun type u h => ?_
      refine h.tree (variableNames_reads h.fine) fun names u h => ?_
      have hdecl := h.here (B := anywhere)
        (Tree.varDecl mods.undocumented mods.annotations type names) (fun _ => rfl) (fun _ => rfl)
        (fun _ => trivial) fun _ _ _ _ => trivial
      exact hdecl.soFar.wrap rfl rfl rfl trivial fun _ _ => trivial
    · refine ensures_bind_ends (call_read (A := anywhere) ht rfl rfl) fun exprs u h => ?_
      exact h.idle.wrap rfl rfl rfl trivial fun _ _ => trivial

/-- The parameter reaches up to its name, so that it encloses the further types. -/
theorem plainParam_reads {further : Rule (Tree (.list .type))} {b : Bool}
    (ht : Fine setting.layout t)
    (hfurther : ∀ u, Fine setting.layout u → further.Ensures setting (reads setting) inLabels u
      (Ends setting fun types w => SoFar setting anywhere u [⟨_, types⟩] 0 b w)) :
    (plainParam further).Ensures setting (reads setting) inLabels t (Ends setting fun read u =>
      SoFar setting anywhere t [⟨_, read.1⟩, ⟨_, read.2⟩] 0 true u) := by
  unfold plainParam
  refine modifiers_reads ht fun mods u hmods h _ _ => ?_
  rw [hmods.start]
  refine h.call rfl rfl fun type u h => ?_
  refine h.tree (hfurther u h.fine) fun types u h => ?_
  refine h.identifier fun name u h _ => ?_
  have hown : SoFar setting anywhere t [⟨_, mods.annotations⟩, ⟨_, type⟩] 0 true u :=
    h.only (by simp)
  have hparam := hown.here (B := anywhere)
    (Tree.param mods.modifiers mods.annotations type name false) (fun _ => rfl) (fun _ => rfl)
    (fun _ => trivial) fun _ _ _ _ => trivial
  have htypes : SoFar setting anywhere t [⟨_, types⟩] 0 true u := h.only (by simp)
  exact hparam.soFar.join (.refl u) htypes

theorem forStatement_reads (h : SoFar setting anywhere s [] 0 true (s.advance 1)) :
    (forStatement s.mark).Ensures setting (reads setting) inLabels s
      (Ends setting (Taken setting anywhere s)) := by
  unfold forStatement
  rw [ensures_advance_bind]
  refine h.expectOpen fun h => ?_
  rw [ensures_ahead_bind]
  split
  · have hnone : ∀ u, Fine setting.layout u → (pure .nil : Rule (Tree (.list .type))).Ensures
        setting (reads setting) inLabels u
          (Ends setting fun types w => SoFar setting anywhere u [⟨_, types⟩] 0 false w) :=
      fun u hu => hu.soFar.nil
    refine h.run (plainParam_reads h.fine hnone) fun read t h => ?_
    obtain ⟨param, types⟩ := read
    have h : SoFar setting anywhere s [⟨_, param⟩] 1 true t := h.only (by simp)
    refine h.expect rfl fun h => ?_
    refine h.call rfl rfl fun iterable t h => ?_
    refine h.expectClose fun h => ?_
    refine h.call rfl rfl fun body t h => ?_
    exact h.finish (fun _ => rfl) (fun _ => rfl) (fun _ => trivial) fun _ _ _ _ => trivial
  · refine h.tree (forInit_reads h.fine) fun init t h => ?_
    refine h.expect rfl fun h => ?_
    rw [ensures_check_bind]
    refine h.tree (optionIf_read h.fine fun _ => call_read h.fine rfl rfl) fun condition t h => ?_
    refine h.expect rfl fun h => ?_
    rw [ensures_check_bind]
    refine h.tree (listIf_read h.fine fun _ => call_read h.fine rfl rfl) fun update t h => ?_
    refine h.expectClose fun h => ?_
    refine h.call rfl rfl fun body t h => ?_
    exact h.finish (fun _ => rfl) (fun _ => rfl) (fun _ => trivial) fun _ _ _ _ => trivial

theorem resource_reads (hs : Fine setting.layout s) :
    resource.Ensures setting (reads setting) inLabels s
      (Ends setting (Taken setting anywhere s)) := by
  unfold resource
  rw [ensures_mark_bind, ensures_ahead_bind]
  split
  · refine modifiers_reads hs fun mods t _ h _ _ => ?_
    have h : SoFar setting anywhere s [] 0 false t := h.forget
    refine h.call rfl rfl fun type t h => ?_
    refine h.identifier fun name t h _ => ?_
    refine h.expect rfl fun h => ?_
    refine h.call rfl rfl fun init t h => ?_
    exact h.finish (fun _ => rfl) (fun _ => rfl) (fun _ => trivial) fun _ _ _ _ => trivial
  · refine hs.soFar.call rfl rfl fun e t h => ?_
    exact h.finish (fun _ => rfl) (fun _ => rfl) (fun _ => trivial) fun _ _ _ _ => trivial

theorem resources_reads (hs : Fine setting.layout s) :
    resources.Ensures setting (reads setting) inLabels s
      (Ends setting (Taken setting anywhere s)) := by
  unfold resources
  rw [ensures_ahead_bind]
  split
  · exact .of_list hs.soFar.nil
  · exact hs.soFar.tree (resource_reads hs).soFar fun _ _ h =>
      h.separated rfl (fun _ => rfl) fun _ => rfl

theorem catches_reads (hs : Fine setting.layout s) :
    catches.Ensures setting (reads setting) inLabels s
      (Ends setting (Taken setting anywhere s)) := by
  unfold catches
  rw [ensures_mark_bind]
  refine hs.soFar.accept rfl (fun h => ?_) (.of_list hs.soFar.nil)
  refine h.expectOpen fun h => ?_
  refine h.run (plainParam_reads h.fine fun u hu => call_read hu ⟨rfl, rfl⟩ rfl)
    fun read t h => ?_
  obtain ⟨param, alternatives⟩ := read
  refine h.expectClose fun h => ?_
  refine h.call rfl rfl fun block t h => ?_
  have hfirst := h.here (B := anywhere) (Tree.catchClause param alternatives block) (fun _ => rfl)
    (fun _ => rfl) (fun _ => trivial) fun _ _ _ _ => trivial
  exact hfirst.soFar.followed rfl rfl

/-- Resources in parentheses, if there are any. -/
theorem resourceGroup_reads {f : Tree (.list .resource) → Rule β}
    (h : SoFar setting anywhere s [] 0 true t)
    (hf : ∀ resources u, SoFar setting anywhere s [⟨_, resources⟩] 0 true u →
      (f resources).Ensures setting (reads setting) inLabels u (Ends setting P)) :
    (accept .lparen >>= fun found => listIf found (call .resources >>= fun resources =>
      expect .rparen >>= fun _ => pure resources) >>= f).Ensures setting (reads setting) inLabels t
        (Ends setting P) := by
  rw [ensures_accept_bind]
  split
  · rename_i hnext
    obtain ⟨x, rest, hahead, hkind⟩ := SoFar.ahead_of_next hnext
    refine ensures_bind_ends (P := fun resources u =>
      SoFar setting anywhere s [⟨_, resources⟩] 0 true u) ?_ hf
    refine SoFar.call (h.openParen hahead hkind) rfl rfl fun resources u h => ?_
    exact h.expectClose fun h => h
  · exact hf .nil t h.nil

theorem tryStatement_reads (h : SoFar setting anywhere s [] 0 true (s.advance 1))
    (hs : Fine setting.layout s) :
    (tryStatement s.mark).Ensures setting (reads setting) inLabels s
      (Ends setting (Taken setting anywhere s)) := by
  unfold tryStatement
  rw [ensures_advance_bind]
  refine resourceGroup_reads h fun resources t h => ?_
  refine h.call rfl rfl fun body t h => ?_
  refine h.call rfl rfl fun catches t h => ?_
  refine h.acceptOption rfl (fun u hu => call_read hu rfl rfl) fun final t h => ?_
  dsimp only
  split
  · refine h.reporting ((hs.placed.sound_mark hs.tiled).told nofun) fun u _ h hstale => ?_
    exact h.finish (fun _ => rfl) (fun _ => rfl) (fun _ => trivial)
      fun _ _ _ hfresh => absurd hfresh hstale
  · rename_i hhandled
    refine h.finish (fun _ => rfl) (fun _ => rfl) (fun _ => trivial) fun _ _ _ _ => ?_
    simpa [Tree.Fits, imp_iff_not_or, Option.isSome_iff_ne_none, or_assoc] using hhandled

theorem synchronizedStatement_reads (h : SoFar setting anywhere s [] 0 true (s.advance 1)) :
    (synchronizedStatement s.mark).Ensures setting (reads setting) inLabels s
      (Ends setting (Taken setting anywhere s)) := by
  unfold synchronizedStatement
  rw [ensures_advance_bind]
  refine h.tree (parenExpr_reads h.fine) fun lock t h => ?_
  refine h.call rfl rfl fun body t h => ?_
  exact h.finish (fun _ => rfl) (fun _ => rfl) (fun _ => trivial) fun _ _ _ _ => trivial

theorem returnStatement_reads (h : SoFar setting anywhere s [] 0 true (s.advance 1)) :
    (returnStatement s.mark).Ensures setting (reads setting) inLabels s
      (Ends setting (Taken setting anywhere s)) := by
  unfold returnStatement
  rw [ensures_advance_bind, ensures_check_bind]
  refine h.tree (optionIf_read h.fine fun _ => call_read h.fine rfl rfl) fun value t h => ?_
  refine h.require rfl fun t h => ?_
  exact h.finish (fun _ => rfl) (fun _ => rfl) (fun _ => trivial) fun _ _ _ _ => trivial

theorem jumpLabel_reads {f : Option String → Rule β}
    (h : SoFar setting anywhere s [] 0 true (s.advance 1))
    (hf : ∀ label u, SoFar setting anywhere s [] 0 true u →
      (f label).Ensures setting (reads setting) inLabels u (Ends setting P)) :
    (jumpLabel >>= f).Ensures setting (reads setting) inLabels s (Ends setting P) := by
  refine ensures_bind_ends (P := fun _ u => SoFar setting anywhere s [] 0 true u) ?_ hf
  unfold jumpLabel
  rw [ensures_advance_bind, ensures_check_bind]
  dsimp only
  split
  · rename_i hnext
    exact SoFar.require (h.takeNext hnext rfl) rfl fun u h => h
  · exact h.require rfl fun u h => h

theorem throwStatement_reads (h : SoFar setting anywhere s [] 0 true (s.advance 1)) :
    (throwStatement s.mark).Ensures setting (reads setting) inLabels s
      (Ends setting (Taken setting anywhere s)) := by
  unfold throwStatement
  rw [ensures_advance_bind]
  refine h.call rfl rfl fun value t h => ?_
  refine h.require rfl fun t h => ?_
  exact h.finish (fun _ => rfl) (fun _ => rfl) (fun _ => trivial) fun _ _ _ _ => trivial

theorem assertStatement_reads (h : SoFar setting anywhere s [] 0 true (s.advance 1)) :
    (assertStatement s.mark).Ensures setting (reads setting) inLabels s
      (Ends setting (Taken setting anywhere s)) := by
  unfold assertStatement
  rw [ensures_advance_bind]
  refine h.call rfl rfl fun condition t h => ?_
  refine h.acceptOption rfl (fun u hu => call_read hu rfl rfl) fun message t h => ?_
  refine h.require rfl fun t h => ?_
  exact h.finish (fun _ => rfl) (fun _ => rfl) (fun _ => trivial) fun _ _ _ _ => trivial

theorem yieldStatement_reads (h : SoFar setting anywhere s [] 0 true (s.advance 1)) :
    (yieldStatement s.mark).Ensures setting (reads setting) inLabels s
      (Ends setting (Taken setting anywhere s)) := by
  unfold yieldStatement
  rw [ensures_advance_bind]
  refine h.call rfl rfl fun value t h => ?_
  refine h.require rfl fun t h => ?_
  exact h.finish (fun _ => rfl) (fun _ => rfl) (fun _ => trivial) fun _ _ _ _ => trivial

theorem labeledStatement_reads (hs : Fine setting.layout s)
    (hnext : Lookahead.next [.identifier, .colon] s.ahead = true) :
    (labeledStatement s.mark).Ensures setting (reads setting) inLabels s
      (Ends setting (Taken setting anywhere s)) := by
  obtain ⟨x, y, rest, hahead, hx, hy⟩ : ∃ x y rest, s.ahead = x :: y :: rest ∧
      x.kind = .identifier ∧ y.kind = .colon := by
    cases hahead : s.ahead with
    | nil => simp [hahead, Lookahead.next] at hnext
    | cons x rest =>
      cases rest with
      | nil => simp [hahead, Lookahead.next] at hnext
      | cons y rest =>
        simp only [hahead, Lookahead.next, Bool.and_eq_true, beq_iff_eq, and_true] at hnext
        exact ⟨x, y, rest, rfl, hnext⟩
  have hbehind : (s.advance 1).ahead = y :: rest := by
    show s.ahead.drop 1 = y :: rest
    rw [hahead]
    rfl
  have h := (hs.soFar.take hahead (by rw [hx]; rfl)).take hbehind (by rw [hy]; rfl)
  unfold labeledStatement
  refine SoFar.call h rfl rfl fun body t h => ?_
  exact h.finish (fun _ => rfl) (fun _ => rfl) (fun _ => trivial) fun _ _ _ _ => trivial

theorem plainStatement_reads (hs : Fine setting.layout s) :
    (plainStatement s.mark).Ensures setting (reads setting) inLabels s
      (Ends setting (Taken setting anywhere s)) := by
  unfold plainStatement
  rw [ensures_ahead_bind]
  split
  · exact modifiers_reads hs fun mods t hmods h _ _ => localVariables_reads hmods h
  · exact exprStatement_reads hs

theorem namedStatement_reads (hs : Fine setting.layout s)
    (h : SoFar setting anywhere s [] 0 true (s.advance 1)) :
    (namedStatement s.mark s.ahead).Ensures setting (reads setting) inLabels s
      (Ends setting (Taken setting anywhere s)) := by
  unfold namedStatement
  split
  · exact yieldStatement_reads h
  · split
    · rename_i hnext
      exact labeledStatement_reads hs hnext
    · split
      · exact localDeclaration_reads hs
      · exact plainStatement_reads hs

theorem blockStmt_reads (hs : Fine setting.layout s) :
    (call .block >>= fun block => pure (Tree.blockStmt block)).Ensures setting (reads setting)
      inLabels s (Ends setting (Taken setting A s)) := by
  refine call_wrapped hs rfl rfl (fun tree => ?_) rfl (fun _ => rfl) (fun tree => ?_)
    (fun _ => trivial) fun _ _ _ => trivial
  · cases tree
    exact ⟨_, rfl⟩
  · cases tree
    rfl

theorem stmt_reads (hs : Fine setting.layout s) :
    stmt.Ensures setting (reads setting) inLabels s (Ends setting (Taken setting anywhere s)) := by
  unfold stmt
  rw [ensures_view_bind, State.view_ahead]
  dsimp only
  have htake {k : Kind} (hkind : s.ahead.head?.map Symbol.kind = some k)
      (hk : isParen k = false) := hs.soFar.takeKind hkind hk
  split
  all_goals rename_i hkind
  · exact ⟨hs, setting.layout.sound_eof.told nofun⟩
  · exact blockStmt_reads hs
  · exact (htake hkind rfl).finish (fun _ => rfl) (fun _ => rfl) (fun _ => trivial)
      fun _ _ _ _ => trivial
  · exact ifStatement_reads (htake hkind rfl)
  · exact whileStatement_reads (htake hkind rfl)
  · exact doStatement_reads (htake hkind rfl)
  · exact forStatement_reads (htake hkind rfl)
  · exact tryStatement_reads (htake hkind rfl) hs
  · have h := htake hkind rfl
    refine call_reads h.fine rfl fun read t hread _ => ?_
    obtain ⟨selector, cases⟩ := read
    have h := h.trans (hread.weaken (fun _ hp => hp) (fun _ _ => nofun) fun hb => hb)
    exact h.finish (fun _ => rfl) (fun _ => rfl) (fun _ => trivial) fun _ _ _ _ => trivial
  · split
    · exact synchronizedStatement_reads (htake hkind rfl)
    · exact plainStatement_reads hs
  · exact returnStatement_reads (htake hkind rfl)
  · exact jumpLabel_reads (htake hkind rfl) fun label u h =>
      h.finish (fun _ => rfl) (fun _ => rfl) (fun _ => trivial) fun _ _ _ _ => trivial
  · exact jumpLabel_reads (htake hkind rfl) fun label u h =>
      h.finish (fun _ => rfl) (fun _ => rfl) (fun _ => trivial) fun _ _ _ _ => trivial
  · exact throwStatement_reads (htake hkind rfl)
  · exact assertStatement_reads (htake hkind rfl)
  · exact localDeclaration_reads hs
  · exact localDeclaration_reads hs
  · exact localDeclaration_reads hs
  · exact localDeclaration_reads hs
  · exact localDeclaration_reads hs
  · exact localDeclaration_reads hs
  · exact localDeclaration_reads hs
  · exact localDeclaration_reads hs
  · exact namedStatement_reads hs (htake hkind rfl)
  · exact plainStatement_reads hs

theorem block_reads (hs : Fine setting.layout s) :
    block.Ensures setting (reads setting) inLabels s (Ends setting (Taken setting anywhere s)) := by
  unfold block
  rw [ensures_mark_bind]
  refine hs.soFar.expect rfl fun h => ?_
  refine h.call rfl rfl fun statements t h => ?_
  refine h.require rfl fun t h => ?_
  exact h.finish (fun _ => rfl) (fun _ => rfl) (fun _ => trivial) fun _ _ _ _ => trivial

/-! Lists that go on behind a fault. -/

/-- After a fault was reported, what is skipped reaches from where the failed element began. -/
theorem recover_reads {α : Type} {element : Nonterminal α} {goOn : List Symbol → List Symbol}
    {error : SyntaxError} {f : Extent → Rule β} (hgo : ∀ ts, (goOn ts).length ≤ ts.length)
    (hleft : 0 < s.left) (hruns : Runs setting element s (.error error) t)
    (ht : Fine setting.layout t) (htold : setting.layout.Told error)
    (hf : ∀ u, SoFar setting anywhere s [] 0 true u → ¬u.IsFresh →
      (f (s.upTo u)).Ensures setting (reads setting) inLabels u (Ends setting P)) :
    (report error >>= fun _ => resync goOn (s.view inLabels) >>= f).Ensures setting
      (reads setting) inLabels t (Ends setting P) := by
  refine ensures_recover_bind hgo hleft hruns.advanced.left_le hruns.advanced.moved
    fun u n hu hlt => ?_
  have hway : Reaches setting t u := hu ▸ (Reaches.step (.record ..)).trans (.step (.advance n))
  have hstale : ¬u.IsFresh := by
    rw [hu, State.isFresh_advance]
    exact t.not_isFresh_report _ _
  refine hf u ⟨?_, hruns.reaches.trans hway, fun hfresh => absurd hfresh hstale, ?_, nofun⟩ hstale
  · rw [hu]
    exact (ht.report htold).advance n
  · have hbeyond := (hruns.reaches.trans hway).beyond
    unfold Beyond at hbeyond
    omega

/-- A list whose failed elements become markers. -/
theorem loop_reads {c : Category} {element : Nonterminal (Tree c)}
    {again : Nonterminal (Tree (.list c))} {goOn : List Symbol → List Symbol}
    {next : Except SyntaxError (Tree c) → Rule (Tree (.list c))} (marker : Extent → Tree c)
    (hok : ∀ first, next (.ok first) = (call again >>= fun rest => pure (.cons first rest)))
    (herror : ∀ error, next (.error error) =
      (report error >>= fun _ => resync goOn (s.view inLabels) >>= fun extent =>
        call again >>= fun rest => pure (.cons (marker extent) rest)))
    (hs : Fine setting.layout s) (hleft : 0 < s.left)
    (hgo : ∀ ts, (goOn ts).length ≤ ts.length) (hbegun : element.Begun setting s s)
    (hreading : element.Reading setting s = Taken setting A s)
    (hagain : ∀ t, again.Begun setting t t)
    (hrest : ∀ t, again.Reading setting t = Taken setting A t)
    (hmarker : ∀ u, SoFar setting anywhere s [] 0 true u → ¬u.IsFresh →
      Taken setting A s (marker (s.upTo u)) u) :
    (attempt element >>= next).Ensures setting (reads setting) inLabels s
      (Ends setting (Taken setting A s)) := by
  rw [ensures_attempt_bind]
  refine ⟨⟨hs, s, hbegun⟩, fun r t ht => ?_⟩
  obtain ⟨hends, hruns⟩ := ht
  have hends := hends s hbegun
  cases r with
  | ok first =>
    rw [hok]
    have hfirst : Taken setting A s first t := hreading ▸ hends
    exact hfirst.soFar.followed (hagain t) (hrest t)
  | error error =>
    rw [herror]
    refine recover_reads hgo hleft hruns hends.1 hends.2 fun u h hstale => ?_
    exact (hmarker u h hstale).soFar.followed (hagain u) (hrest u)

theorem statements_reads (inSwitch : Bool) (hs : Fine setting.layout s) :
    (statements inSwitch).Ensures setting (reads setting) inLabels s
      (Ends setting (Taken setting anywhere s)) := by
  unfold statements
  rw [ensures_view_bind]
  split
  · exact .of_list hs.soFar.nil
  · rename_i hmore
    refine loop_reads .erroneousStmt (fun _ => rfl) (fun _ => rfl) hs (left_pos_of_not_isEmpty ?_)
      (Resync.length_block_le inSwitch 0) rfl rfl (fun _ => rfl) (fun _ => rfl)
      fun u h hstale => ?_
    · intro hempty
      simp [State.view, endsStatements, hempty] at hmore
    · exact h.here Tree.erroneousStmt (fun _ => rfl) (fun _ => rfl) (fun _ => trivial)
        fun _ _ _ hfresh => absurd hfresh hstale

/-! Switches. -/

theorem switchRest_reads (isExpr : Bool) (hs : Fine setting.layout s) :
    (switchRest isExpr).Ensures setting (reads setting) inLabels s
      (Ends setting ((Nonterminal.switchRest isExpr).Reading setting s)) := by
  unfold switchRest
  refine ensures_bind_ends (parenExpr_reads hs) fun selector t h => ?_
  have h : SoFar setting (inSwitch isExpr) s [⟨_, selector⟩] 0 true t := h.narrow
  refine h.expect rfl fun h => ?_
  refine h.tree (call_read h.fine rfl rfl) fun cases t h => ?_
  exact h.require rfl fun t h => h.idle

theorem switchCases_reads (isExpr : Bool) (hs : Fine setting.layout s) :
    (switchCases isExpr).Ensures setting (reads setting) inLabels s
      (Ends setting (Taken setting (inSwitch isExpr) s)) := by
  unfold switchCases
  rw [ensures_view_bind]
  split
  · exact .of_list hs.soFar.nil
  · rename_i hmore
    refine loop_reads (fun e => .switchCase .nil false (.cons (.erroneousStmt e) .nil) e)
      (fun _ => rfl) (fun _ => rfl) hs (left_pos_of_not_isEmpty ?_)
      (Resync.length_block_le true 0) rfl rfl (fun _ => rfl) (fun _ => rfl) fun u h hstale => ?_
    · intro hempty
      simp [State.view, hempty] at hmore
    · have hstmt := h.here (B := anywhere) Tree.erroneousStmt (fun _ => rfl) (fun _ => rfl)
        (fun _ => trivial) fun _ _ _ hfresh => absurd hfresh hstale
      have hparts := (h.nil (A := anywhere) (c := .expr)).join (.refl u) (hstmt.begun rfl).single
      exact hparts.node rfl rfl (fun _ he => (Option.some.inj he).symm) trivial
        fun _ _ => ⟨trivial, fun _ => trivial⟩

theorem labels_reads (hs : Fine setting.layout s) :
    labels.Ensures setting (reads setting) inLabels s
      (Ends setting (Taken setting anywhere s)) :=
  hs.soFar.call rfl rfl fun _ _ h => h.separated rfl (fun _ => rfl) fun _ => rfl

theorem caseLabels_reads (ht : Fine setting.layout t) :
    caseLabels.Ensures setting (reads setting) inLabels t
      (Ends setting fun labels u => SoFar setting anywhere t [⟨_, labels⟩] 0 true u) := by
  unfold caseLabels
  refine ht.soFar.accept rfl (fun h => h.nil) (ht.soFar.accept rfl (fun h => ?_) ?_)
  · refine ⟨⟨h.fine, _, rfl⟩, fun r u hu => ?_⟩
    have hends := hu.1 _ rfl
    cases r with
    | error error => exact hends
    | ok labels => exact h.trans (Taken.soFar hends)
  · exact ht.soFar.missing .caseLabel fun (_ : Tree (.list .expr)) _ => True

/-- The contexts of what follows an arrow. -/
def behindArrow (isExpr : Bool) : Context → Prop := fun ctx => isExpr = true → ctx = .arrow

/-- The value of a switch need not have an effect. -/
theorem arrowBody_reads (isExpr : Bool) (hs : Fine setting.layout s) :
    (arrowBody isExpr).Ensures setting (reads setting) inLabels s
      (Ends setting (Taken setting (behindArrow isExpr) s)) := by
  have hvalue : ∀ (e : Tree .expr) u, SoFar setting anywhere s [⟨_, e⟩] 0 true u →
      (u.IsFresh → isExpr = false → e.standsAlone = true) →
      (require .semicolon >>= fun _ => since s.mark >>= fun extent =>
        pure (Tree.exprStmt (.standalone e extent))).Ensures setting (reads setting) inLabels u
          (Ends setting (Taken setting (behindArrow isExpr) s)) := by
    intro e u h halone
    refine h.requireFrom rfl fun w h hway => ?_
    have hstandalone := h.here (B := behindArrow isExpr) (Tree.standalone e) (fun _ => rfl)
      (fun _ => rfl) (fun _ => trivial) fun _ ctx hctx hfresh => by
        cases hexpr : isExpr with
        | true => exact .inl (hctx hexpr)
        | false => exact .inr (halone (hway.isFresh hfresh) hexpr)
    refine (hstandalone.soFar.begin (h.began rfl)).node rfl rfl
      (fun _ he => (Option.some.inj he).symm) trivial
      fun ctx hctx => ⟨fun hexpr => ?_, fun _ => trivial⟩
    rw [hctx hexpr]
    rfl
  unfold arrowBody
  rw [ensures_view_bind, State.view_ahead]
  split
  · exact blockStmt_reads hs
  · split
    · have hbegun : Nonterminal.stmt.Begun setting s s := rfl
      exact (call_ends hs hbegun).ends fun _ _ hstmt => hstmt.narrow
    · refine call_reads hs rfl fun e t he _ => ?_
      dsimp only
      split
      · exact checkStandalone_reads (he.begun rfl) (he.sound hs rfl) fun u h halone =>
          hvalue e u h fun hfresh _ => halone hfresh
      · rename_i hexpr
        exact hvalue e t (he.begun rfl) fun _ hfalse => absurd (by rw [hfalse]; rfl) hexpr

theorem switchCase_reads (isExpr : Bool) (hs : Fine setting.layout s) :
    (switchCase isExpr).Ensures setting (reads setting) inLabels s
      (Ends setting (Taken setting (inSwitch isExpr) s)) := by
  unfold switchCase
  rw [ensures_mark_bind]
  refine ensures_bind_ends (caseLabels_reads hs) fun labels t h => ?_
  refine h.accept rfl (fun h => ?_) ?_
  · have h : SoFar setting (behindArrow isExpr) s [⟨_, labels⟩] 0 true (t.advance 1) := h.narrow
    refine ensures_bind_ends (arrowBody_reads isExpr h.fine) fun body u hbody => ?_
    refine SoFar.node (h.trans hbody.soFar.single) rfl rfl
      (fun _ he => (Option.some.inj he).symm) trivial
      fun ctx hctx => ⟨fun hexpr => ?_, fun _ => trivial⟩
    rw [hctx hexpr]
    rfl
  · rw [if_neg nofun, ensures_view_bind, State.view_ahead]
    dsimp only
    split
    · rename_i hnext
      have h := h.takeNext hnext rfl
      refine SoFar.call h rfl rfl fun statements u h => ?_
      exact h.finish (fun _ => rfl) (fun _ => rfl) (fun _ => trivial) fun _ _ _ _ => trivial
    · exact h.missing .colonOrArrow _

end JavaSyntax.Grammar
