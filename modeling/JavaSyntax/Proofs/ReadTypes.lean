import JavaSyntax.Proofs.ReadContract

/-!
What the rules for annotations and types read.
-/

namespace JavaSyntax.Grammar

open Rule

variable {setting : Setting} {inLabels : Bool} {A : Context → Prop} {s t : State} {β : Type}

theorem annot_reads (hs : Fine setting.layout s) :
    annot.Ensures setting (reads setting) inLabels s (Ends setting (Taken setting anywhere s)) := by
  unfold annot
  rw [ensures_mark_bind]
  refine hs.soFar.expect rfl fun h => ?_
  refine h.qualifiedName fun name t h => ?_
  rw [ensures_accept_bind]
  split
  · rename_i hnext
    obtain ⟨x, rest, hahead, hkind⟩ := SoFar.ahead_of_next hnext
    have h := h.openParen hahead hkind
    rw [if_pos rfl, ensures_ahead_bind]
    have hclose : ∀ elements u, SoFar setting anywhere s [⟨_, elements⟩] 1 true u →
        (expect .rparen >>= fun _ => since s.mark >>= fun e =>
          pure (Tree.annot name elements e)).Ensures setting (reads setting) inLabels u
            (Ends setting (Taken setting anywhere s)) := fun elements u h =>
      h.expectClose fun h => h.finish (fun _ => rfl) (fun _ => rfl) (fun _ => trivial)
        fun _ _ _ _ => trivial
    split
    · exact h.call rfl rfl hclose
    · split
      · exact hclose _ _ h.addNil
      · refine h.callInto (fun value => .cons (.element none value) .nil) rfl rfl
          (fun value u hu => ?_) fun value u h => hclose _ _ h
        have helement : SoFar setting anywhere _ [⟨_, Tree.element none value⟩] 0 true u :=
          hu.wrap rfl rfl rfl trivial fun _ _ => trivial
        exact helement.single
  · exact h.addNil.finish (fun _ => rfl) (fun _ => rfl) (fun _ => trivial) fun _ _ _ _ => trivial

theorem annotations_reads (onType : Bool) (hs : Fine setting.layout s) :
    (annotations onType).Ensures setting (reads setting) inLabels s
      (Ends setting (Taken setting anywhere s)) := by
  unfold annotations
  rw [ensures_ahead_bind]
  split
  · exact hs.soFar.call rfl rfl fun first t h => h.followed rfl rfl
  · exact .of_list hs.soFar.nil

theorem namedElements_reads (hs : Fine setting.layout s) :
    namedElements.Ensures setting (reads setting) inLabels s
      (Ends setting (Taken setting anywhere s)) := by
  unfold namedElements
  refine hs.soFar.identifier fun key t h _ => ?_
  refine h.expect rfl fun h => ?_
  refine h.call rfl rfl fun value t h => ?_
  have helement : SoFar setting anywhere s [⟨_, .element (some key) value⟩] 0 true t :=
    h.wrap rfl rfl rfl trivial fun _ _ => trivial
  exact helement.separated rfl (fun _ => rfl) fun _ => rfl

theorem elementValue_reads (hs : Fine setting.layout s) :
    elementValue.Ensures setting (reads setting) inLabels s
      (Ends setting (Taken setting anywhere s)) := by
  unfold elementValue
  rw [ensures_ahead_bind]
  split
  · refine call_wrapped hs rfl rfl (fun tree => ?_) rfl (fun _ => rfl) (fun tree => ?_)
      (fun _ => trivial) fun _ _ _ => trivial
    · cases tree
      exact ⟨_, rfl⟩
    · cases tree
      rfl
  · split
    · rename_i hnext
      rw [ensures_mark_bind]
      refine SoFar.call (hs.soFar.takeNext hnext rfl) rfl rfl fun elements t h => ?_
      refine h.expect rfl fun h => ?_
      have hinit := h.here (B := anywhere) (Tree.arrayInit elements) (fun _ => rfl) (fun _ => rfl)
        (fun _ => trivial) fun _ _ _ _ => trivial
      exact hinit.wrap rfl rfl rfl rfl trivial fun _ _ _ => trivial
    · exact call_ends hs rfl

theorem elementValues_reads (hs : Fine setting.layout s) :
    elementValues.Ensures setting (reads setting) inLabels s
      (Ends setting (Taken setting anywhere s)) := by
  unfold elementValues
  rw [ensures_ahead_bind]
  split
  · exact .of_list hs.soFar.nil
  · exact hs.soFar.call rfl rfl fun first t h => h.separated rfl (fun _ => rfl) fun _ => rfl

theorem type_reads (hs : Fine setting.layout s) :
    type.Ensures setting (reads setting) inLabels s (Ends setting (Taken setting anywhere s)) := by
  unfold type
  rw [ensures_mark_bind]
  refine hs.soFar.call rfl rfl fun annotations t h => ?_
  rw [ensures_view_bind, State.view_ahead]
  have hrest : ∀ outer name args diamond e u,
      SoFar setting anywhere s [⟨_, annotations⟩, ⟨_, outer⟩, ⟨_, args⟩] 0 true u →
      (dims >>= fun n => since s.mark >>= fun e' => pure (completeType annotations n e'
        (.type outer name args diamond .nil 0 e))).Ensures setting (reads setting) inLabels u
          (Ends setting (Taken setting anywhere s)) := fun outer name args diamond e u h =>
    h.dims fun n u h => h.finish (fun _ => rfl) (fun _ => rfl) (fun _ => trivial)
      fun _ _ _ _ => trivial
  split
  · rename_i hnext
    refine h.takeText hnext rfl fun h => ?_
    refine call_reads h.fine ⟨rfl, h.none⟩ fun named u hread hruns => ?_
    obtain ⟨outer, name, args, diamond, e, rfl, hread⟩ := hread
    exact hrest _ _ _ _ _ _ (h.join hruns.reaches hread)
  · split
    · rename_i hprimitive
      cases hahead : t.ahead with
      | nil => simp [hahead] at hprimitive
      | cons x rest =>
        rw [hahead] at hprimitive
        have hplain : isParen x.kind = false := by
          have hprim : x.kind.isPrimitive = true := by simpa using hprimitive
          cases hk : x.kind <;> rw [hk] at hprim <;> first | rfl | cases hprim
        have h := h.take hahead hplain
        exact hrest _ _ _ _ _ _ (h.join (.refl _) (h.none.join (.refl _) h.nil))
    · exact h.wrong _ nofun

theorem typeSegments_reads {origin : State} {outer : Tree (.option .type)} (name : String)
    (diamond : Bool) (h : SoFar setting anywhere origin [⟨_, outer⟩] 0 true s) :
    (typeSegments origin.mark outer name diamond).Ensures setting (reads setting) inLabels s
      (Ends setting
        ((Nonterminal.typeSegments origin.mark outer name diamond).Reading setting origin)) := by
  unfold typeSegments
  rw [ensures_check_bind]
  refine h.tree (listIf_read h.fine fun _ => call_read h.fine rfl rfl) fun args t h => ?_
  rw [ensures_ahead_bind]
  split
  · rename_i hnext
    have hdot : Lookahead.next [.dot] t.ahead = true := by
      cases hahead : t.ahead with
      | nil => simp [hahead, Lookahead.next] at hnext
      | cons x rest =>
        simp only [hahead, Lookahead.next, Bool.or_eq_true, Bool.and_eq_true] at hnext ⊢
        rcases hnext with hnext | hnext <;> exact ⟨hnext.1, trivial⟩
    refine SoFar.callDropped (h.takeNext hdot rfl) rfl rfl fun _ u h => ?_
    refine h.identifier fun segment u h _ => ?_
    split
    · exact call_ends h.fine ⟨rfl, h.weaken (by simp) (fun _ hA => hA) fun hb => hb⟩
    · rw [ensures_since_bind]
      refine call_ends h.fine ⟨rfl, ?_⟩
      have hnode (flag : Bool) := SoFar.here (B := anywhere) (h.nil.join (.refl _) h)
        (Tree.type outer name args flag .nil 0) (fun _ => rfl) (fun _ => rfl) (fun _ => trivial)
          fun _ _ _ _ => trivial
      exact ((hnode _).soFar.begin (h.began rfl)).some
  · exact ⟨outer, name, args, _, _, rfl, h⟩

theorem closeAngle_reads {f : Unit → Rule β} {P : β → State → Prop} {parts : List Part}
    {depth : Nat} {b : Bool} (h : SoFar setting A s parts depth b t)
    (hf : ∀ u, SoFar setting A s parts depth b u →
      (f ()).Ensures setting (reads setting) inLabels u (Ends setting P)) :
    (closeAngle >>= f).Ensures setting (reads setting) inLabels t (Ends setting P) := by
  unfold closeAngle
  rw [ensures_bind, ensures_view_bind]
  split
  · rename_i hnext
    exact hf _ ((h.takeNext hnext rfl).weaken (fun _ hp => hp) (fun _ hA => hA) fun _ => rfl)
  · split
    · exact hf _ h.splitAngle
    · exact h.missing (.symbol .greater) P

theorem typeArgs_reads (hs : Fine setting.layout s) :
    typeArgs.Ensures setting (reads setting) inLabels s
      (Ends setting (Taken setting anywhere s)) := by
  unfold typeArgs
  refine hs.soFar.expect rfl fun h => ?_
  rw [ensures_ahead_bind]
  refine h.tree (listIf_read h.fine fun _ => call_read h.fine rfl rfl) fun args t h => ?_
  exact closeAngle_reads h fun u h => .of_list h

/-- The annotations in front of a type argument become those of its type. -/
theorem annotatedType_taken {before : Tree (.list .annot)} {type : Tree .type} {m : State}
    (hbefore : SoFar setting anywhere s [⟨_, before⟩] 0 false m)
    (htype : SoFar setting anywhere m [⟨_, type⟩] 0 true t) :
    Taken setting anywhere s (annotatedType before (s.upTo t) type) t := by
  have hread := htype.parts _ List.mem_cons_self .plain trivial
  cases type with
  | type outer name args diamond annotations dims e =>
    cases hread with
    | node _ first way last _ _ _ parts =>
      have hplain : ∀ ctx : Context,
          ctx.inside (Tree.type outer name args diamond annotations dims e) = .plain := by
        intro ctx
        cases ctx <;> rfl
      have hpart : ∀ p ∈ (Tree.type outer name args diamond annotations dims e).parts,
          Read setting .plain m p.2 t := fun p hp =>
        ((hplain .plain ▸ parts p hp).from_earlier first).to_later last
      have hall := hbefore.trans htype
      have hparts : SoFar setting (· = .plain) s
          [⟨_, before.append annotations⟩, ⟨_, outer⟩, ⟨_, args⟩] 0 true t := by
        refine ⟨hall.fine, hall.reaches, hall.level, hall.began, ?_⟩
        rintro p hp ctx rfl
        rcases List.mem_cons.mp hp with rfl | hp
        · exact (hbefore.parts _ List.mem_cons_self _ trivial).append
            (hpart _ List.mem_cons_self)
        · exact (hpart p (List.mem_cons_of_mem _ hp)).from_earlier hbefore.reaches
      exact hparts.node rfl rfl (fun _ he => (Option.some.inj he).symm) trivial
        fun ctx _ => ⟨by cases ctx <;> rfl, fun _ => trivial⟩

theorem typeArg_reads (hs : Fine setting.layout s) :
    typeArg.Ensures setting (reads setting) inLabels s
      (Ends setting (Taken setting anywhere s)) := by
  unfold typeArg
  rw [ensures_mark_bind]
  refine hs.soFar.call rfl rfl fun annotations t h => ?_
  refine h.accept rfl (fun h => ?_) ?_
  · rw [if_pos rfl]
    refine h.accept rfl (fun h => ?_) (h.accept rfl (fun h => ?_) ?_)
    · exact h.call rfl rfl fun bound u h =>
        h.finish (fun _ => rfl) (fun _ => rfl) (fun _ => trivial) fun _ _ _ _ => trivial
    · exact h.call rfl rfl fun bound u h =>
        h.finish (fun _ => rfl) (fun _ => rfl) (fun _ => trivial) fun _ _ _ _ => trivial
    · exact h.finish (fun _ => rfl) (fun _ => rfl) (fun _ => trivial) fun _ _ _ _ => trivial
  · refine h.fine.soFar.call rfl rfl fun type u htype => ?_
    have htaken := annotatedType_taken h htype
    cases type
    exact htaken.wrap rfl rfl rfl rfl trivial fun _ _ _ => trivial

theorem typeArgList_reads (hs : Fine setting.layout s) :
    typeArgList.Ensures setting (reads setting) inLabels s
      (Ends setting (Taken setting anywhere s)) :=
  hs.soFar.tree (typeArg_reads hs).soFar
    fun _ _ h => h.separated rfl (fun _ => rfl) fun _ => rfl

theorem typesAfter_reads {separator : Kind} (hk : isParen separator = false)
    (hs : Fine setting.layout s) :
    (typesAfter separator).Ensures setting (reads setting) inLabels s
      (Ends setting (Taken setting anywhere s)) := by
  unfold typesAfter
  refine hs.soFar.accept hk (fun h => ?_) (.of_list hs.soFar.nil)
  exact h.call rfl rfl fun first t h => h.followed ⟨rfl, hk⟩ rfl

/-- Types with something between them. -/
theorem types_reads {separator : Kind} (hk : isParen separator = false)
    (ht : Fine setting.layout t) :
    (call .type >>= fun first => call (.typesAfter separator) >>= fun rest =>
      pure (Tree.cons first rest)).Ensures setting (reads setting) inLabels t
        (Ends setting fun types u => SoFar setting anywhere t [⟨_, types⟩] 0 false u) := by
  refine Ensures.soFar ?_
  exact ht.soFar.call rfl rfl fun _ _ h => h.followed ⟨rfl, hk⟩ rfl

theorem typeList_reads (ht : Fine setting.layout t) :
    typeList.Ensures setting (reads setting) inLabels t
      (Ends setting fun types u => SoFar setting anywhere t [⟨_, types⟩] 0 false u) :=
  types_reads rfl ht

theorem typeParam_reads (hs : Fine setting.layout s) :
    typeParam.Ensures setting (reads setting) inLabels s
      (Ends setting (Taken setting anywhere s)) := by
  unfold typeParam
  rw [ensures_mark_bind]
  refine hs.soFar.call rfl rfl fun annotations t h => ?_
  refine h.identifier fun name t h _ => ?_
  refine h.acceptList rfl (fun u hu => types_reads rfl hu) fun bounds u h => ?_
  exact h.finish (fun _ => rfl) (fun _ => rfl) (fun _ => trivial) fun _ _ _ _ => trivial

theorem typeParamList_reads (hs : Fine setting.layout s) :
    typeParamList.Ensures setting (reads setting) inLabels s
      (Ends setting (Taken setting anywhere s)) :=
  hs.soFar.tree (typeParam_reads hs).soFar
    fun _ _ h => h.separated rfl (fun _ => rfl) fun _ => rfl

/-- Type parameters begin with a whole token, if there are any. -/
theorem typeParams_taken (ht : Fine setting.layout t) :
    typeParams.Ensures setting (reads setting) inLabels t
      (Ends setting fun params u => SoFar setting anywhere t [⟨_, params⟩] 0 false u ∧
        (u.taken = 0 → t.taken = 0)) := by
  unfold typeParams
  rw [ensures_accept_bind]
  split
  · rename_i hnext
    have hwhole := ht.taken_eq_zero (Lookahead.startsWhole_of_next hnext rfl)
    have h := ht.soFar.takeNext hnext rfl
    exact h.call rfl rfl fun params u h => closeAngle_reads h fun u h => ⟨h.idle, fun _ => hwhole⟩
  · exact ⟨ht.soFar.nil, id⟩

theorem typeParams_reads (ht : Fine setting.layout t) :
    typeParams.Ensures setting (reads setting) inLabels t
      (Ends setting fun params u => SoFar setting anywhere t [⟨_, params⟩] 0 false u) :=
  (typeParams_taken ht).ends fun _ _ hu => hu.1

end JavaSyntax.Grammar
