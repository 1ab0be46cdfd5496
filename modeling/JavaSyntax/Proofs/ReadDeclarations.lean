import JavaSyntax.Proofs.ReadStatements

/-!
What the rules for type declarations, their members and the clauses of a file read. The members of
a class are read in the context of its name, which is where its constructors fit.
-/

namespace JavaSyntax

theorem IsWordText.ne_empty {text : String} (h : IsWordText text) : text ≠ "" := by
  rintro rfl
  obtain ⟨c, cs, htext, _⟩ := h
  cases htext

theorem IsWordText.ne_error {text : String} (h : IsWordText text) : text ≠ "<error>" := by
  rintro rfl
  obtain ⟨c, cs, htext, hbegin, _⟩ := h
  obtain ⟨rfl, _⟩ := List.cons.inj htext
  revert hbegin
  decide

namespace Grammar

open Rule

variable {setting : Setting} {inLabels : Bool} {A : Context → Prop} {s t origin : State}
  {β : Type} {P : β → State → Prop} {mods : Modifiers}

/-- A part behind a symbol that is only looked at. -/
theorem optional_reads {c : Category} {rule : Rule (Tree c)} {f : Tree (.option c) → Rule β}
    {parts : List Part} {depth : Nat} {present b b' : Bool} (h : SoFar setting A s parts depth b t)
    (hrule : rule.Ensures setting (reads setting) inLabels t
      (Ends setting fun value u => SoFar setting A t [⟨_, value⟩] 0 b' u))
    (hf : ∀ value u, SoFar setting A s (parts ++ [⟨_, value⟩]) depth b u →
      (f value).Ensures setting (reads setting) inLabels u (Ends setting P)) :
    (if present = true then Tree.some <$> rule >>= f else pure Tree.none >>= f).Ensures setting
      (reads setting) inLabels t (Ends setting P) := by
  split
  · refine ensures_bind_ends (P := fun value u =>
      SoFar setting A s (parts ++ [⟨_, value⟩]) depth b u) ?_ hf
    show (rule >>= fun value => pure (Tree.some value)).Ensures _ _ _ _ _
    refine ensures_bind_ends hrule fun value u hu => ?_
    have hall := h.trans hu.idle.some
    rw [Bool.or_false] at hall
    exact hall
  · exact hf .none t h.addNone

theorem checkDeprecation_reads {name : Extent} {f : Unit → Rule β} {parts : List Part}
    {depth : Nat} {b : Bool} (h : SoFar setting A s parts depth b t)
    (hsound : setting.layout.Sound name)
    (hf : ∀ u, u.ahead = t.ahead → u.index = t.index → SoFar setting A s parts depth b u →
      Reaches setting t u → (f ()).Ensures setting (reads setting) inLabels u (Ends setting P)) :
    (checkDeprecation mods name >>= f).Ensures setting (reads setting) inLabels t
      (Ends setting P) := by
  unfold checkDeprecation
  split
  · exact hf t rfl rfl h (.refl t)
  · exact hf _ (State.ahead_deprecation ..) (State.index_deprecation ..)
      (h.deprecation mods.doc hsound) (.step (.deprecation ..))

theorem declName_reads {f : String → Rule β} {parts : List Part} {depth : Nat} {b : Bool}
    (h : SoFar setting A s parts depth b t)
    (hf : ∀ name u, SoFar setting A s parts depth true u →
      (f name).Ensures setting (reads setting) inLabels u (Ends setting P)) :
    (declName mods >>= f).Ensures setting (reads setting) inLabels t (Ends setting P) := by
  refine ensures_bind_ends (P := fun _ u => SoFar setting A s parts depth true u) ?_ hf
  unfold declName
  rw [ensures_view_bind]
  have hsound := h.fine.placed.sound_here h.fine.tiled inLabels
  refine h.identifier fun name u h _ => ?_
  exact checkDeprecation_reads h hsound fun u _ _ h _ => h

theorem listAfter_reads {k : Kind} (hk : isParen k = false) (ht : Fine setting.layout t) :
    (listAfter k).Ensures setting (reads setting) inLabels t
      (Ends setting fun types u => SoFar setting anywhere t [⟨_, types⟩] 0 false u) := by
  unfold listAfter
  refine ht.soFar.accept hk (fun h => ?_) ht.soFar.nil
  exact (typeList_reads h.fine).ends fun types u hu => (h.trans hu).idle

theorem ahead_of_nextWord {word : String} (h : Lookahead.nextWord word t.ahead = true) :
    ∃ x rest, t.ahead = x :: rest ∧ x.kind = .identifier ∧ x.text = word := by
  cases hahead : t.ahead with
  | nil => simp [hahead, Lookahead.nextWord] at h
  | cons x rest =>
    have hword : x.kind = .identifier ∧ x.text = word := by
      simpa [hahead, Lookahead.nextWord, Symbol.isWord] using h
    exact ⟨x, rest, rfl, hword⟩

theorem takeWord {word : String} {parts : List Part} {depth : Nat} {b : Bool}
    (h : SoFar setting A s parts depth b t) (hnext : Lookahead.nextWord word t.ahead = true) :
    SoFar setting A s parts depth true (t.advance 1) := by
  obtain ⟨x, rest, hahead, hkind, _⟩ := ahead_of_nextWord hnext
  refine h.take hahead ?_
  rw [hkind]
  rfl

theorem permits_reads (ht : Fine setting.layout t) :
    permits.Ensures setting (reads setting) inLabels t
      (Ends setting fun types u => SoFar setting anywhere t [⟨_, types⟩] 0 false u) := by
  unfold permits
  rw [ensures_ahead_bind]
  split
  · rename_i hnext
    have h := takeWord ht.soFar hnext
    exact (typeList_reads h.fine).ends fun types u hu => (h.trans hu).idle
  · exact ht.soFar.nil

/-! Type declarations, from behind their modifiers. -/

theorem finishDecl_reads {name : String} {form : Tree .form} {members : Tree (.list .member)}
    {b : Bool} (hmods : mods.BeganAt origin) (hwhole : origin.taken = 0)
    (h : SoFar setting anywhere origin [⟨_, mods.annotations⟩, ⟨_, form⟩] 0 true s)
    (hmembers : SoFar setting (ownedBy name) s [⟨_, members⟩] 0 b t) :
    (finishDecl mods name form members).Ensures setting (reads setting) inLabels t
      (Ends setting (Taken setting anywhere origin)) := by
  unfold finishDecl
  rw [hmods.start]
  exact (h.narrow.trans hmembers).node rfl rfl (fun _ he => (Option.some.inj he).symm)
    ⟨hwhole, hmods.doc⟩ fun ctx _ => ⟨.inl (by cases ctx <;> rfl), fun _ => trivial⟩

theorem declBody_reads {name : String} {form : Tree .form} {parts : List Part}
    (hmods : mods.BeganAt origin) (hwhole : origin.taken = 0)
    (h : SoFar setting anywhere origin (⟨_, mods.annotations⟩ :: parts) 0 true t)
    (hparts : form.parts = parts) (hfits : ∀ ctx, form.Fits ctx) :
    (classBody name >>= fun members => finishDecl mods name form members).Ensures setting
      (reads setting) inLabels t (Ends setting (Taken setting anywhere origin)) := by
  refine ensures_bind_ends (classBody_reads name h.fine) fun members u hmembers => ?_
  have hown : SoFar setting anywhere origin parts 0 true t :=
    h.only fun p hp => List.mem_cons_of_mem _ hp
  have hform : SoFar setting anywhere origin [⟨_, form⟩] 0 true t :=
    hown.wrap rfl hparts (by cases form <;> rfl) (by cases form <;> trivial) fun ctx _ => hfits ctx
  have hannotations : SoFar setting anywhere origin [⟨_, mods.annotations⟩] 0 true t :=
    h.only fun p hp => by
      cases List.mem_singleton.mp hp
      exact List.mem_cons_self
  exact finishDecl_reads hmods hwhole (hannotations.join (.refl t) hform) hmembers

theorem classDecl_reads (hmods : mods.BeganAt origin) (hwhole : origin.taken = 0)
    (h : SoFar setting anywhere origin [⟨_, mods.annotations⟩] 0 false s) :
    (classDecl mods).Ensures setting (reads setting) inLabels s
      (Ends setting (Taken setting anywhere origin)) := by
  unfold classDecl
  refine h.expect rfl fun h => ?_
  refine declName_reads h fun name t h => ?_
  refine h.tree (typeParams_reads h.fine) fun params t h => ?_
  refine h.acceptOption rfl (fun u hu => call_read hu rfl rfl) fun parent t h => ?_
  refine h.tree (listAfter_reads rfl h.fine) fun interfaces t h => ?_
  refine h.tree (permits_reads h.fine) fun permitted t h => ?_
  exact declBody_reads hmods hwhole h rfl fun _ => trivial

theorem interfaceDecl_reads (hmods : mods.BeganAt origin) (hwhole : origin.taken = 0)
    (h : SoFar setting anywhere origin [⟨_, mods.annotations⟩] 0 false s) :
    (interfaceDecl mods).Ensures setting (reads setting) inLabels s
      (Ends setting (Taken setting anywhere origin)) := by
  unfold interfaceDecl
  refine h.expect rfl fun h => ?_
  refine declName_reads h fun name t h => ?_
  refine h.tree (typeParams_reads h.fine) fun params t h => ?_
  refine h.tree (listAfter_reads rfl h.fine) fun parents t h => ?_
  refine h.tree (permits_reads h.fine) fun permitted t h => ?_
  exact declBody_reads hmods hwhole h rfl fun _ => trivial

theorem enumConstant_reads (hs : Fine setting.layout s) :
    enumConstant.Ensures setting (reads setting) inLabels s
      (Ends setting (Taken setting anywhere s)) := by
  unfold enumConstant
  rw [ensures_mark_bind]
  refine hs.soFar.call rfl rfl fun annotations t h => ?_
  refine h.identifier fun name t h _ => ?_
  rw [ensures_check_bind]
  refine optional_reads h (arguments_reads h.fine) fun args t h => ?_
  rw [ensures_check_bind]
  have h : SoFar setting (ownedBy "") s [⟨_, annotations⟩, ⟨_, args⟩] 0 true t := h.narrow
  refine optional_reads h (classBody_reads "" h.fine) fun body t h => ?_
  exact h.node rfl rfl (fun _ he => (Option.some.inj he).symm) trivial
    fun ctx _ => ⟨.inr ⟨rfl, by cases ctx <;> rfl⟩, fun _ => trivial⟩

theorem enumConstants_reads (hs : Fine setting.layout s) :
    enumConstants.Ensures setting (reads setting) inLabels s
      (Ends setting (Taken setting anywhere s)) := by
  unfold enumConstants
  rw [ensures_ahead_bind]
  split
  · exact .of_list hs.soFar.nil
  · exact hs.soFar.tree (enumConstant_reads hs).soFar fun _ _ h =>
      h.separated rfl (fun _ => rfl) fun _ => rfl

theorem enumDecl_reads (hmods : mods.BeganAt origin) (hwhole : origin.taken = 0)
    (h : SoFar setting anywhere origin [⟨_, mods.annotations⟩] 0 false s) :
    (enumDecl mods).Ensures setting (reads setting) inLabels s
      (Ends setting (Taken setting anywhere origin)) := by
  unfold enumDecl
  refine h.expect rfl fun h => ?_
  refine declName_reads h fun name t h => ?_
  refine h.tree (listAfter_reads rfl h.fine) fun interfaces t h => ?_
  refine h.expect rfl fun h => ?_
  refine h.call rfl rfl fun constants t h => ?_
  have hown : SoFar setting anywhere origin [⟨_, interfaces⟩, ⟨_, constants⟩] 0 true t :=
    h.only (by simp)
  have hform : SoFar setting anywhere origin [⟨_, Tree.enumForm interfaces constants⟩] 0 true t :=
    hown.wrap rfl rfl rfl trivial fun _ _ => trivial
  have hannotations : SoFar setting anywhere origin [⟨_, mods.annotations⟩] 0 true t :=
    h.only (by simp)
  have hhead := hannotations.join (.refl t) hform
  refine (SoFar.start (A := ownedBy name) h.fine).acceptList rfl
    (fun u hu => call_read hu rfl rfl) fun members u hmembers => ?_
  exact hmembers.require rfl fun u hmembers => finishDecl_reads hmods hwhole hhead hmembers

theorem param_reads (hs : Fine setting.layout s) :
    param.Ensures setting (reads setting) inLabels s (Ends setting (Taken setting anywhere s)) := by
  unfold param
  refine modifiers_reads hs fun mods t hmods h _ _ => ?_
  rw [hmods.start]
  refine h.call rfl rfl fun type t h => ?_
  refine h.callDropped rfl rfl fun _ t h => ?_
  refine h.acceptDropped rfl fun varargs t h => ?_
  rw [ensures_check_bind]
  have hrest : ∀ name u, SoFar setting anywhere s [⟨_, mods.annotations⟩, ⟨_, type⟩] 0 true u →
      (dims >>= fun n => since s.mark >>= fun extent => pure (Tree.param mods.modifiers
        mods.annotations (type.addDims n) name varargs extent)).Ensures setting (reads setting)
          inLabels u (Ends setting (Taken setting anywhere s)) := by
    intro name u h
    refine h.dims fun n u h => ?_
    have htype : SoFar setting anywhere s [⟨_, type⟩] 0 true u := h.only (by simp)
    have hannotations : SoFar setting anywhere s [⟨_, mods.annotations⟩] 0 true u :=
      h.only (by simp)
    exact (hannotations.join (.refl u) (addDims_reads n htype)).finish (fun _ => rfl)
      (fun _ => rfl) (fun _ => trivial) fun _ _ _ _ => trivial
  dsimp only
  split
  · rename_i hnext
    exact h.takeText hnext rfl fun h => hrest _ _ h
  · exact h.identifier fun name u h _ => hrest name u h

theorem paramList_reads (hs : Fine setting.layout s) :
    paramList.Ensures setting (reads setting) inLabels s
      (Ends setting (Taken setting anywhere s)) :=
  hs.soFar.tree (param_reads hs).soFar fun _ _ h => h.separated rfl (fun _ => rfl) fun _ => rfl

theorem params_reads (ht : Fine setting.layout t) :
    params.Ensures setting (reads setting) inLabels t
      (Ends setting fun params u => SoFar setting anywhere t [⟨_, params⟩] 0 true u) := by
  unfold params
  refine ht.soFar.expectOpen fun h => ?_
  rw [ensures_check_bind]
  refine h.tree (listIf_read h.fine fun _ => call_read h.fine rfl rfl) fun params u h => ?_
  exact h.expectClose fun h => h

theorem recordDecl_reads (hmods : mods.BeganAt origin) (hwhole : origin.taken = 0)
    (h : SoFar setting anywhere origin [⟨_, mods.annotations⟩] 0 false s)
    (hnext : Lookahead.isRecord s.ahead = true) :
    (recordDecl mods).Ensures setting (reads setting) inLabels s
      (Ends setting (Taken setting anywhere origin)) := by
  have h := takeWord h (Bool.and_eq_true_iff.mp hnext).1
  unfold recordDecl
  rw [ensures_advance_bind]
  refine declName_reads h fun name t h => ?_
  refine h.tree (typeParams_reads h.fine) fun typeParams t h => ?_
  refine h.tree (params_reads h.fine) fun components t h => ?_
  refine h.tree (listAfter_reads rfl h.fine) fun interfaces t h => ?_
  exact declBody_reads hmods hwhole h rfl fun _ => trivial

theorem annotationDecl_reads (hmods : mods.BeganAt origin) (hwhole : origin.taken = 0)
    (h : SoFar setting anywhere origin [⟨_, mods.annotations⟩] 0 false s) :
    (annotationDecl mods).Ensures setting (reads setting) inLabels s
      (Ends setting (Taken setting anywhere origin)) := by
  unfold annotationDecl
  refine h.expect rfl fun h => ?_
  refine h.expect rfl fun h => ?_
  refine declName_reads h fun name t h => ?_
  exact declBody_reads hmods hwhole h rfl fun _ => trivial

theorem typeDecl_reads (hmods : mods.BeganAt origin) (hwhole : origin.taken = 0)
    (h : SoFar setting anywhere origin [⟨_, mods.annotations⟩] 0 false s) :
    (typeDecl mods).Ensures setting (reads setting) inLabels s
      (Ends setting (Taken setting anywhere origin)) := by
  unfold typeDecl
  rw [ensures_view_bind, State.view_ahead]
  split
  · exact classDecl_reads hmods hwhole h
  · split
    · exact interfaceDecl_reads hmods hwhole h
    · split
      · exact enumDecl_reads hmods hwhole h
      · split
        · exact annotationDecl_reads hmods hwhole h
        · split
          · rename_i hnext
            exact recordDecl_reads hmods hwhole h hnext
          · exact h.wrong _ nofun

/-! Members, from behind their modifiers. -/

theorem members_reads (owner : String) (hs : Fine setting.layout s) :
    (members owner).Ensures setting (reads setting) inLabels s
      (Ends setting (Taken setting (ownedBy owner) s)) := by
  unfold members
  rw [ensures_view_bind, State.view_ahead]
  split
  · exact .of_list hs.soFar.nil
  · rename_i hmore
    split
    · rename_i hnext
      have h := (SoFar.start (A := ownedBy owner) hs).takeNext hnext rfl
      have hbegun : (Nonterminal.members owner).Begun setting (s.advance 1) (s.advance 1) := rfl
      exact (call_ends h.fine hbegun).ends fun rest u hrest => .of_list (h.trans hrest.soFar)
    · refine loop_reads .erroneousMember (fun _ => rfl) (fun _ => rfl) hs
        (left_pos_of_not_isEmpty ?_) Resync.length_classBody_le rfl rfl (fun _ => rfl)
        (fun _ => rfl) fun u h hstale => ?_
      · intro hempty
        simp [hempty] at hmore
      · exact h.here Tree.erroneousMember (fun _ => rfl) (fun _ => rfl) (fun _ => trivial)
          fun _ _ _ hfresh => absurd hfresh hstale

theorem initBlock_reads (hmods : mods.BeganAt s)
    (h : SoFar setting anywhere s [⟨_, mods.annotations⟩] 0 false t) :
    (initBlock mods).Ensures setting (reads setting) inLabels t
      (Ends setting (Taken setting A s)) := by
  unfold initBlock
  rw [hmods.start]
  have h : SoFar setting anywhere s [] 0 false t := h.forget
  refine h.call rfl rfl fun body u h => ?_
  exact h.finish (fun _ => rfl) (fun _ => rfl) (fun _ => trivial) fun _ _ _ _ => trivial

/-- A constructor of another name was reported, and an anonymous class has no name. -/
theorem constructorDecl_reads {typeParams : Tree (.list .typeParam)} (owner : String)
    (hmods : mods.BeganAt s) (hwhole : t.taken = 0 → s.taken = 0)
    (h : SoFar setting anywhere s [⟨_, mods.annotations⟩, ⟨_, typeParams⟩] 0 false t)
    (hnext : Lookahead.next [.identifier] t.ahead = true) :
    (constructorDecl mods typeParams owner).Ensures setting (reads setting) inLabels t
      (Ends setting (Taken setting (ownedBy owner) s)) := by
  unfold constructorDecl
  rw [ensures_view_bind, hmods.start]
  have hsound := h.fine.placed.sound_here h.fine.tiled inLabels
  have hword := h.fine.isWordText hnext
  have hs := hwhole (h.fine.taken_eq_zero (Lookahead.startsWhole_of_next hnext rfl))
  refine h.takeText hnext rfl fun h => ?_
  generalize (t.ahead.head?.map Symbol.text).getD "" = name at hword ⊢
  have hrest : ∀ u,
      SoFar setting anywhere s [⟨_, mods.annotations⟩, ⟨_, typeParams⟩] 0 true u →
      (u.IsFresh → name = owner) →
      (checkDeprecation mods (t.view inLabels).here >>= fun _ => params >>= fun params =>
        listAfter .throwsKw >>= fun throws => call .block >>= fun body => since s.mark >>= fun e =>
          pure (Tree.constructor mods.front mods.annotations typeParams name params throws body
            false e)).Ensures setting (reads setting) inLabels u
              (Ends setting (Taken setting (ownedBy owner) s)) := by
    intro u h howner
    refine checkDeprecation_reads h.fine.soFar hsound fun w _ _ hbehind _ => ?_
    refine hbehind.tree (params_reads hbehind.fine) fun params w hbehind => ?_
    refine hbehind.tree (listAfter_reads rfl hbehind.fine) fun throws w hbehind => ?_
    refine hbehind.call rfl rfl fun body w hbehind => ?_
    refine (h.trans hbehind).finish (fun _ => rfl) (fun _ => rfl) (fun _ => ⟨hs, hmods.doc⟩)
      fun _ ctx hctx hfresh => ?_
    have hname : name = owner := howner (hbehind.reaches.isFresh hfresh)
    rcases hctx with rfl | ⟨hanonymous, _⟩
    · exact congrArg (Context.body ∘ some) hname.symm
    · exact absurd (hname.trans hanonymous) hword.ne_empty
  dsimp only
  split
  · exact h.reporting (hsound.told nofun) fun u _ h hstale =>
      hrest u h fun hfresh => absurd hfresh hstale
  · rename_i hsame
    exact hrest _ h fun _ => by simpa using hsame

theorem compactConstructor_reads {owner : String} (hmods : mods.BeganAt s)
    (hwhole : t.taken = 0 → s.taken = 0)
    (h : SoFar setting anywhere s [⟨_, mods.annotations⟩] 0 false t)
    (hnext : Lookahead.nextWord owner t.ahead = true) :
    (compactConstructor mods).Ensures setting (reads setting) inLabels t
      (Ends setting (Taken setting (ownedBy owner) s)) := by
  obtain ⟨x, rest, hahead, hkind, htext⟩ := ahead_of_nextWord hnext
  have hname : Lookahead.next [.identifier] t.ahead = true := by
    simp [hahead, Lookahead.next, hkind]
  have hword := h.fine.isWordText hname
  have hs := hwhole (h.fine.taken_eq_zero (Lookahead.startsWhole_of_next hname rfl))
  unfold compactConstructor
  rw [hmods.start]
  refine h.takeText hname rfl fun h => ?_
  rw [hahead, List.head?_cons, Option.map_some, Option.getD_some, htext] at hword ⊢
  have h := (h.addNil (c := .typeParam)).addNil (c := .param)
  refine SoFar.call (h.addNil (c := .type)) rfl rfl fun body u h => ?_
  refine h.finish (fun _ => rfl) (fun _ => rfl) (fun _ => ⟨hs, hmods.doc⟩) fun _ ctx hctx _ => ?_
  rcases hctx with rfl | ⟨hanonymous, _⟩
  · rfl
  · exact absurd hanonymous hword.ne_empty

/-- Dimensions behind the parameters of a method belong to its result. -/
theorem resultDims_reads {result : Tree (.option .type)} {depth : Nat} {b : Bool} (n : Nat)
    (h : SoFar setting A s [⟨_, result⟩] depth b t) :
    SoFar setting A s [⟨_, match result with
      | .some type => .some (type.addDims n)
      | .none => .none⟩] depth b t := by
  cases result with
  | none => exact h
  | some type => exact (addDims_reads n h.value).some

theorem methodRest_reads {typeParams : Tree (.list .typeParam)} {result : Tree (.option .type)}
    {name : String} (hmods : mods.BeganAt s) (hwhole : s.taken = 0)
    (h : SoFar setting anywhere s [⟨_, mods.annotations⟩, ⟨_, typeParams⟩, ⟨_, result⟩] 0 true t)
    (hname : t.IsFresh → name ≠ "<error>") :
    (methodRest mods typeParams result name).Ensures setting (reads setting) inLabels t
      (Ends setting (Taken setting A s)) := by
  unfold methodRest
  rw [hmods.start]
  have hbehind := h.fine.soFar
  refine hbehind.tree (params_reads h.fine) fun params u hbehind => ?_
  refine hbehind.dims fun n u hbehind => ?_
  dsimp only
  refine hbehind.tree (listAfter_reads rfl hbehind.fine) fun throws u hbehind => ?_
  refine hbehind.acceptOption rfl (fun u hu => call_read hu rfl rfl) fun default u hbehind => ?_
  rw [ensures_check_bind]
  refine hbehind.tree (optionIf_read hbehind.fine fun _ => call_read hbehind.fine rfl rfl)
    fun body u hbehind => ?_
  have hfront : SoFar setting anywhere s [⟨_, mods.annotations⟩, ⟨_, typeParams⟩] 0 true t :=
    h.only (by simp)
  have hresult : SoFar setting anywhere s [⟨_, result⟩] 0 true t := h.only (by simp)
  have hend : ∀ result u, SoFar setting anywhere s [⟨_, result⟩] 0 true t →
      SoFar setting anywhere t [⟨_, params⟩, ⟨_, throws⟩, ⟨_, default⟩, ⟨_, body⟩] 0 true u →
      (since s.mark >>= fun e => pure (Tree.method mods.front mods.annotations typeParams
        result name params throws body default e)).Ensures setting (reads setting) inLabels u
          (Ends setting (Taken setting A s)) := fun result u hresult hbehind =>
    SoFar.finish ((hfront.join (.refl t) hresult).trans hbehind) (fun _ => rfl) (fun _ => rfl)
      (fun _ => ⟨hwhole, hmods.doc⟩) fun _ _ _ hfresh => hname (hbehind.reaches.isFresh hfresh)
  split
  · exact hbehind.require rfl fun u hbehind => hend _ u (resultDims_reads n hresult) hbehind
  · exact hend _ u (resultDims_reads n hresult) hbehind

theorem fieldRest_reads {type : Tree .type} {name : String} (hmods : mods.BeganAt s)
    (hwhole : s.taken = 0)
    (h : SoFar setting anywhere s [⟨_, mods.annotations⟩, ⟨_, type⟩] 0 true origin)
    (hname : SoFar setting anywhere origin [] 0 true t) :
    (fieldRest mods type name origin.mark).Ensures setting (reads setting) inLabels t
      (Ends setting (Taken setting A s)) := by
  unfold fieldRest
  rw [hmods.start]
  refine call_reads hname.fine ⟨rfl, hname⟩ fun names u hnames _ => ?_
  refine SoFar.require (h.trans hnames.soFar) rfl fun u h => ?_
  have hdecl := h.here (B := anywhere) (Tree.varDecl mods.front mods.annotations type names)
    (fun _ => rfl) (fun _ => rfl) (fun _ => trivial) fun _ _ _ _ => trivial
  exact hdecl.wrap rfl rfl rfl rfl ⟨hwhole, hmods.doc⟩ fun _ _ _ => trivial

theorem memberName_reads {f : String → Rule β} (ht : Fine setting.layout t)
    (hf : ∀ name u, SoFar setting anywhere t [] 0 false u → (u.IsFresh → name ≠ "<error>") →
      (Lookahead.next [.lparen] u.ahead = false → t.index < u.index) →
      (f name).Ensures setting (reads setting) inLabels u (Ends setting P)) :
    (memberName >>= f).Ensures setting (reads setting) inLabels t (Ends setting P) := by
  refine ensures_bind_ends (P := fun name u => SoFar setting anywhere t [] 0 false u ∧
    (u.IsFresh → name ≠ "<error>") ∧ (Lookahead.next [.lparen] u.ahead = false → t.index < u.index))
    ?_ fun name u hu => hf name u hu.1 hu.2.1 hu.2.2
  unfold memberName
  rw [ensures_view_bind, State.view_ahead]
  split
  · rename_i hnext
    have h := ht.soFar.takeNext hnext rfl
    exact ⟨h.idle, fun _ => (ht.isWordText hnext).ne_error, fun _ => h.began rfl⟩
  · split
    · rename_i hnext
      refine ⟨ht.soFar.report (ht.placed.told_missing ht.tiled ..) 0,
        fun hfresh => absurd hfresh (t.not_isFresh_report _ _), fun hno => ?_⟩
      rw [State.ahead_report, hnext] at hno
      cases hno
    · exact ht.soFar.missing .identifier _

/-- A method or a field begins with a whole token, for `void` and types do. -/
theorem typedMember_reads {typeParams : Tree (.list .typeParam)} (hmods : mods.BeganAt s)
    (hwhole : t.taken = 0 → s.taken = 0)
    (h : SoFar setting anywhere s [⟨_, mods.annotations⟩, ⟨_, typeParams⟩] 0 false t) :
    (typedMember mods typeParams).Ensures setting (reads setting) inLabels t
      (Ends setting (Taken setting A s)) := by
  have hrest : ∀ result u, s.taken = 0 →
      SoFar setting anywhere s [⟨_, mods.annotations⟩, ⟨_, typeParams⟩, ⟨_, result⟩] 0 true u →
      (view >>= fun named => memberName >>= fun name => checkDeprecation mods named.here >>=
        fun _ => view >>= fun v =>
          if Lookahead.next [.lparen] v.ahead then methodRest mods typeParams result name
          else
            match result with
            | .some type => fieldRest mods type name named.mark
            | .none => raise (v.missing (.symbol .lparen))).Ensures setting (reads setting)
              inLabels u (Ends setting (Taken setting A s)) := by
    intro result u hs h
    rw [ensures_view_bind]
    have hsound := h.fine.placed.sound_here h.fine.tiled inLabels
    refine memberName_reads h.fine fun name w hname herror hindex => ?_
    refine checkDeprecation_reads hname hsound fun v hahead hsame hname hway => ?_
    rw [ensures_view_bind, State.view_ahead]
    split
    · exact methodRest_reads hmods hs (h.trans hname) fun hfresh => herror (hway.isFresh hfresh)
    · rename_i hno
      split
      · rename_i type
        have hbegan : u.index < v.index := by
          rw [hsame]
          exact hindex (by simpa [hahead] using hno)
        have hfield : SoFar setting anywhere s [⟨_, mods.annotations⟩, ⟨_, type⟩] 0 true u := by
          have htype : SoFar setting anywhere s [⟨_, .some type⟩] 0 true u := h.only (by simp)
          have hfront : SoFar setting anywhere s [⟨_, mods.annotations⟩] 0 true u :=
            h.only (by simp)
          exact hfront.join (.refl u) htype.value
        exact fieldRest_reads hmods hs hfield (hname.begin hbegan)
      · exact hname.missing _ _
  unfold typedMember
  rw [ensures_accept_bind]
  split
  · rename_i hnext
    have hs := hwhole (h.fine.taken_eq_zero (Lookahead.startsWhole_of_next hnext rfl))
    exact hrest .none _ hs (h.takeNext hnext rfl).addNone
  · refine ensures_bind_ends (P := fun result u => s.taken = 0 ∧ SoFar setting anywhere s
      [⟨_, mods.annotations⟩, ⟨_, typeParams⟩, ⟨_, result⟩] 0 true u) ?_
      fun result u hu => hrest result u hu.1 hu.2
    show (call .type >>= fun type => pure (Tree.some type)).Ensures _ _ _ _ _
    refine ensures_bind_ends (call_taken h.fine rfl rfl) fun type u hu => ?_
    exact ⟨hwhole (h.fine.taken_eq_zero (hu.2.edge type rfl)), h.trans hu.1.some⟩

end Grammar

end JavaSyntax
