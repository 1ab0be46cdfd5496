import JavaSyntax.Proofs.ReadTypes
import JavaSyntax.Proofs.Refusals

/-!
What the rules for expressions read. A fault inside a literal is told at one of its characters, so
the errors of literals are looked into first.
-/

namespace JavaSyntax

namespace Literal

/-- An offset at which a character of the text starts, or the text ends. It cuts no line end. -/
def Cut (offset : Nat) (cs : List Char) : Prop :=
  ∃ front back, cs = front ++ back ∧ offset = byteLength front ∧
    (front.getLast? = some '\r' → back.head? ≠ some '\n')

theorem unescapeFrom_error {inBlock : Bool} {skip offset o : Nat} {cs : List Char}
    (h : unescapeFrom inBlock skip offset cs = .error o) :
    ∃ front back, cs = front ++ '\\' :: back ∧ o = offset + byteLength front := by
  fun_induction unescapeFrom inBlock skip offset cs with
  | case1 => cases h
  | case2 skip offset c cs ih =>
    obtain ⟨front, back, rfl, rfl⟩ := ih h
    exact ⟨c :: front, back, rfl, Nat.add_assoc ..⟩
  | case3 offset cs =>
    cases h
    exact ⟨[], cs, rfl, rfl⟩
  | case4 offset cs out n _ ih =>
    obtain ⟨front, back, rfl, rfl⟩ := ih (map_error h)
    exact ⟨'\\' :: front, back, rfl, Nat.add_assoc ..⟩
  | case5 offset c cs _ ih =>
    obtain ⟨front, back, rfl, rfl⟩ := ih (map_error h)
    exact ⟨c :: front, back, rfl, Nat.add_assoc ..⟩

theorem between?_quote {quote : Char} {cs inner : List Char}
    (h : between? [quote] cs = some inner) : ∃ rest, cs = quote :: (inner ++ rest) := by
  unfold between? at h
  split at h
  · rename_i hprefix
    dsimp only at h
    split at h
    · cases h
      obtain ⟨rest, rfl⟩ := List.isPrefixOf_iff_prefix.mp hprefix
      exact ⟨_, congrArg (quote :: ·) (List.take_append_drop ..).symm⟩
    · cases h
  · cases h

theorem body_offset {quote : Char} {text : String} {error : LiteralError} {o : Nat}
    (hquote : quote.utf8Size = 1) (h : body quote text = .error error)
    (ho : error.offset? = some o) : Cut o text.toList := by
  unfold body at h
  dsimp only at h
  split at h
  · cases h
  · rename_i offset herror
    cases h
    cases ho
    obtain ⟨front, back, hcs, rfl⟩ := unescapeFrom_error herror
    cases hbetween : between? [quote] text.toList with
    | none =>
      -- Without quotes around it the text is counted as if there were: that is past the backslash.
      rw [hbetween, Option.getD_none] at hcs
      refine ⟨front ++ ['\\'], back, by simpa using hcs, ?_, by simp⟩
      rw [byteLength_append, Nat.zero_add]
      rfl
    | some inner =>
      rw [hbetween, Option.getD_some] at hcs
      obtain ⟨rest, htext⟩ := between?_quote hbetween
      refine ⟨quote :: front, '\\' :: back ++ rest, by rw [htext, hcs]; simp, ?_, by simp⟩
      rw [byteLength, hquote]
      omega

theorem checkUnderscores_offset {cs : List Char} {error : LiteralError} {o : Nat}
    (h : checkUnderscores cs = .error error) (ho : error.offset? = some o) : Cut o cs := by
  obtain ⟨front, back, hcs, rfl⟩ := checkUnderscores_error h
  cases ho
  exact ⟨front, '_' :: back, hcs, rfl, by simp⟩

theorem integer_offset {text : String} {negated : Bool} {error : LiteralError} {o : Nat}
    (h : integer text negated = .error error) (ho : error.offset? = some o) :
    Cut o text.toList := by
  rcases integer_error h with h | rfl
  · exact checkUnderscores_offset h ho
  · cases ho

theorem floating_offset {text : String} {negated : Bool} {error : LiteralError} {o : Nat}
    (h : floating text negated = .error error) (ho : error.offset? = some o) :
    Cut o text.toList := by
  rcases floating_error h with h | rfl | rfl | rfl
  · exact checkUnderscores_offset h ho
  all_goals cases ho

theorem charValue_offset {text : String} {error : LiteralError} {o : Nat}
    (h : charValue text = .error error) (ho : error.offset? = some o) : Cut o text.toList := by
  rcases charValue_error h with h | rfl
  · exact body_offset rfl h ho
  · cases ho

end Literal

namespace Grammar

open Literal

/-- The culprit in a literal is one of its characters. -/
theorem literalValue_offset {x : Symbol} {negated : Bool} {error : LiteralError} {o : Nat}
    (h : literalValue x negated = some (.error error)) (ho : error.offset? = some o) :
    Cut o x.text.toList := by
  unfold literalValue at h
  split at h
  · exact integer_offset (Option.some.inj h) ho
  · exact floating_offset (Option.some.inj h) ho
  · exact body_offset rfl (map_error (map_error (Option.some.inj h))) ho
  · cases textBlockValue_error (map_error (Option.some.inj h))
    cases ho
    exact ⟨[], _, rfl, rfl, nofun⟩
  · exact charValue_offset (map_error (Option.some.inj h)) ho
  all_goals cases h

open Rule

variable {setting : Setting} {inLabels : Bool} {A : Context → Prop} {s t origin : State}
  {β : Type}

theorem expr_reads (hs : Fine setting.layout s) :
    expr.Ensures setting (reads setting) inLabels s (Ends setting (Taken setting anywhere s)) := by
  unfold expr
  rw [ensures_startsLambda_bind]
  split
  · exact call_ends hs rfl
  · rw [ensures_mark_bind]
    refine call_reads hs rfl fun target t htarget hruns => ?_
    rw [ensures_ahead_bind]
    split
    · exact htarget
    · rename_i op hop
      have h := htarget.begun rfl
      refine SoFar.call (h.takeLookup hop rfl rfl) rfl rfl fun value u h => ?_
      exact h.finish (fun _ => rfl) (fun _ => rfl) (fun _ => trivial) fun _ _ _ _ => trivial

theorem conditional_reads (hs : Fine setting.layout s) :
    conditional.Ensures setting (reads setting) inLabels s
      (Ends setting (Taken setting anywhere s)) := by
  unfold conditional
  rw [ensures_mark_bind]
  refine call_reads hs rfl fun condition t hcondition hruns => ?_
  have h := hcondition.begun rfl
  refine h.accept rfl (fun h => ?_) hcondition
  refine h.call rfl rfl fun yes u h => ?_
  refine h.expect rfl fun h => ?_
  rw [ensures_startsLambda_bind]
  split
  · exact h.call rfl rfl fun no u h =>
      h.finish (fun _ => rfl) (fun _ => rfl) (fun _ => trivial) fun _ _ _ _ => trivial
  · exact h.call rfl rfl fun no u h =>
      h.finish (fun _ => rfl) (fun _ => rfl) (fun _ => trivial) fun _ _ _ _ => trivial

theorem binary_reads (least : Nat) (hs : Fine setting.layout s) :
    (binary least).Ensures setting (reads setting) inLabels s
      (Ends setting (Taken setting anywhere s)) := by
  unfold binary
  rw [ensures_mark_bind]
  refine call_reads hs rfl fun left t hleft hruns => ?_
  exact call_ends hleft.soFar.fine ⟨rfl, hleft⟩

theorem binaryRest_reads (least : Nat) {left : Tree .expr}
    (hleft : Taken setting anywhere origin left s) :
    (binaryRest least origin.mark left).Ensures setting (reads setting) inLabels s
      (Ends setting (Taken setting anywhere origin)) := by
  have h := hleft.begun rfl
  unfold binaryRest
  rw [ensures_ahead_bind]
  split
  · rename_i hnext
    split
    · exact hleft
    · rw [ensures_advance_bind]
      refine SoFar.acceptDropped (h.takeNext hnext rfl) rfl fun _ t h => ?_
      refine h.call rfl rfl fun type t h => ?_
      rw [ensures_check_bind]
      have hrest : ∀ binding u,
          SoFar setting anywhere origin [⟨_, left⟩, ⟨_, type⟩] 0 true u →
          (since origin.mark >>= fun e => call (.binaryRest least origin.mark
            (.instanceOf left type binding e))).Ensures setting (reads setting) inLabels u
              (Ends setting (Taken setting anywhere origin)) := fun binding u h =>
        call_ends h.fine ⟨rfl, h.here (Tree.instanceOf left type binding) (fun _ => rfl)
          (fun _ => rfl) (fun _ => trivial) fun _ _ _ _ => trivial⟩
      split
      · rename_i hname
        exact hrest _ _ (h.takeNext hname rfl)
      · exact hrest _ _ h
  · split
    · exact hleft
    · rename_i op level hop
      split
      · exact hleft
      · rw [ensures_advance_bind]
        refine SoFar.call (h.takeLookup hop rfl rfl) rfl rfl fun right u h => ?_
        rw [ensures_since_bind]
        exact call_ends h.fine ⟨rfl, h.here (Tree.binary left op right) (fun _ => rfl)
          (fun _ => rfl) (fun _ => trivial) fun _ _ _ _ => trivial⟩

/-- A literal is never split, so its text is that of its token. -/
theorem told_literal {x : Symbol} {rest : List Symbol} {negated : Bool} {error : LiteralError}
    (hs : Fine setting.layout s) (hahead : s.ahead = x :: rest)
    (hvalue : literalValue x negated = some (.error error)) :
    setting.layout.Told ⟨.literal error, match error.offset? with
      | some offset => .point (.before s.index (s.taken + offset))
      | none => (s.view inLabels).here⟩ := by
  obtain ⟨token, htoken, hkind, hsame⟩ := hs.placed.head x (by simp [hahead])
  have htaken : s.taken = 0 := by
    cases hn : s.taken with
    | zero => rfl
    | succ n =>
      rw [hn] at hkind
      obtain ⟨k, _, hk⟩ := Option.bind_eq_some_iff.mp hkind
      have hnone : literalValue x negated = none := by
        unfold literalValue
        cases k <;> first | cases hk | rw [← Option.some.inj hk]
      rw [hnone] at hvalue
      cases hvalue
  have htext := hsame htaken
  have hblames {offset : Nat} (hoffset : offset = token.start + error.offset?.getD 0) :
      setting.layout.Blames error offset := by
    rw [htaken] at hkind
    refine ⟨token, Layout.Tiled.mem htoken, x.joined, negated, ?_, hoffset⟩
    rw [htext, Option.some.inj hkind]
    exact hvalue
  split
  · rename_i offset hoffset
    obtain ⟨front, back, hcut, rfl, hends⟩ := literalValue_offset hvalue hoffset
    have hvisible := hs.tiled.visible_inside htoken (htext.symm ▸ hcut) hends
    have hmark : setting.layout.offset (.before s.index (s.taken + byteLength front)) =
        token.start + byteLength front := by
      simp [Layout.offset, htoken, htaken]
    refine ⟨Layout.sound_point (hmark ▸ hvisible), ?_⟩
    rintro e ⟨⟩
    exact hblames (by rw [hoffset]; exact hmark)
  · rename_i hoffset
    refine ⟨hs.placed.sound_here hs.tiled inLabels, ?_⟩
    rintro e ⟨⟩
    refine hblames ?_
    rw [hoffset]
    simp [View.here, State.view, hahead, Layout.offset, htoken, htaken]

theorem literal_reads {negatedFrom : Option Mark} {b : Bool}
    (h : SoFar setting anywhere origin [] 0 b s)
    (hstart : negatedFrom.getD s.mark = origin.mark) :
    (literal negatedFrom).Ensures setting (reads setting) inLabels s
      (Ends setting (Taken setting anywhere origin)) := by
  unfold literal
  rw [ensures_view_bind, State.view_ahead]
  cases hahead : s.ahead with
  | nil => exact h.wrong _ nofun
  | cons x rest =>
    simp only [List.head?_cons, Option.bind_some]
    split
    · exact h.wrong _ nofun
    · rename_i value hvalue
      have hplain : isParen x.kind = false := by
        unfold literalValue at hvalue
        cases hk : x.kind <;> first | rfl | simp [hk] at hvalue
      rw [ensures_advance_bind, ensures_since_bind]
      have htake := h.take hahead hplain
      have hextent : ((s.advance 1).view inLabels).since (negatedFrom.getD (s.view inLabels).mark) =
          origin.upTo (s.advance 1) := by
        show ((s.advance 1).view inLabels).since (negatedFrom.getD s.mark) = _
        rw [hstart]
        rfl
      rw [hextent]
      split
      · rename_i value
        exact htake.here (Tree.literal value) (fun _ => rfl) (fun _ => rfl) (fun _ => trivial)
          fun _ _ _ _ => trivial
      · rename_i error
        refine htake.reporting (told_literal h.fine hahead hvalue) fun u hu h hstale => ?_
        rw [← State.upTo_congr hu]
        exact h.here Tree.erroneousExpr (fun _ => rfl) (fun _ => rfl) (fun _ => trivial)
          fun _ _ _ hfresh => absurd hfresh hstale

/-- Arguments in parentheses. -/
theorem arguments_reads (ht : Fine setting.layout t) :
    arguments.Ensures setting (reads setting) inLabels t
      (Ends setting fun args u => SoFar setting anywhere t [⟨_, args⟩] 0 true u) := by
  unfold arguments
  refine ht.soFar.expectOpen fun h => ?_
  rw [ensures_check_bind]
  refine h.tree (listIf_read h.fine fun _ => call_read h.fine rfl rfl) fun args u h => ?_
  exact h.expectClose fun h => h

theorem exprList_reads (hs : Fine setting.layout s) :
    exprList.Ensures setting (reads setting) inLabels s
      (Ends setting (Taken setting anywhere s)) :=
  hs.soFar.call rfl rfl fun _ _ h => h.separated rfl (fun _ => rfl) fun _ => rfl

theorem nameOrCall_reads {k : Kind} (hs : Fine setting.layout s)
    (hkind : s.ahead.head?.map Symbol.kind = some k) (hk : isParen k = false) :
    (nameOrCall s.mark).Ensures setting (reads setting) inLabels s
      (Ends setting (Taken setting anywhere s)) := by
  unfold nameOrCall
  have h := hs.soFar.takeKind hkind hk
  change Ensures _ _ _ (check .lparen >>= _) (s.advance 1) _
  rw [ensures_check_bind]
  split
  · have h := (h.addNone (c := .expr)).addNil (c := .typeArg)
    refine h.tree (arguments_reads h.fine) fun args u h => ?_
    exact h.finish (fun _ => rfl) (fun _ => rfl) (fun _ => trivial) fun _ _ _ _ => trivial
  · exact h.finish (fun _ => rfl) (fun _ => rfl) (fun _ => trivial) fun _ _ _ _ => trivial

theorem arrayInit_reads (hs : Fine setting.layout s) :
    arrayInit.Ensures setting (reads setting) inLabels s
      (Ends setting (Taken setting anywhere s)) := by
  unfold arrayInit
  rw [ensures_mark_bind]
  refine hs.soFar.expect rfl fun h => ?_
  refine h.call rfl rfl fun elements t h => ?_
  refine h.expect rfl fun h => ?_
  exact h.finish (fun _ => rfl) (fun _ => rfl) (fun _ => trivial) fun _ _ _ _ => trivial

theorem initialValue_reads (hs : Fine setting.layout s) :
    initialValue.Ensures setting (reads setting) inLabels s
      (Ends setting (Taken setting anywhere s)) := by
  unfold initialValue
  rw [ensures_check_bind]
  split
  · refine call_wrapped hs rfl rfl (fun tree => ?_) rfl (fun _ => rfl) (fun tree => ?_)
      (fun _ => trivial) fun _ _ _ => trivial
    · cases tree
      exact ⟨_, rfl⟩
    · cases tree
      rfl
  · exact call_ends hs rfl

theorem arrayElements_reads (hs : Fine setting.layout s) :
    arrayElements.Ensures setting (reads setting) inLabels s
      (Ends setting (Taken setting anywhere s)) := by
  unfold arrayElements
  rw [ensures_ahead_bind]
  split
  · exact .of_list hs.soFar.nil
  · exact hs.soFar.tree (initialValue_reads hs).soFar fun _ _ h =>
      h.separated rfl (fun _ => rfl) fun _ => rfl

theorem sizes_reads (hs : Fine setting.layout s) :
    sizes.Ensures setting (reads setting) inLabels s (Ends setting (Taken setting anywhere s)) := by
  unfold sizes
  rw [ensures_ahead_bind]
  split
  · rename_i hnext
    refine SoFar.call (hs.soFar.takeNext (Bool.and_eq_true_iff.mp hnext).1 rfl) rfl rfl
      fun first t h => ?_
    refine h.expect rfl fun h => ?_
    exact h.followed rfl rfl
  · exact .of_list hs.soFar.nil

/-- The number of dimensions says nothing about where a type was read. -/
theorem read_dims {ctx : Context} {outer : Tree (.option .type)} {name : String}
    {args : Tree (.list .typeArg)} {diamond : Bool} {annotations : Tree (.list .annot)} {n : Nat}
    {e : Extent} (h : Read setting ctx s (.type outer name args diamond annotations n e) t)
    (m : Nat) : Read setting ctx s (.type outer name args diamond annotations m e) t := by
  have hinside : ctx.inside (.type outer name args diamond annotations m e) =
      ctx.inside (.type outer name args diamond annotations n e) := by
    cases ctx <;> rfl
  cases h with
  | node isNode before way after extent fits sits parts =>
    exact .node isNode before way after extent (fun _ => trivial) trivial (hinside ▸ parts)

theorem newArray_reads {type : Tree .type}
    (h : SoFar setting anywhere origin [⟨_, type⟩] 0 true s) :
    (newArray origin.mark type).Ensures setting (reads setting) inLabels s
      (Ends setting (Taken setting anywhere origin)) := by
  cases type with
  | type outer name args diamond annotations read extent =>
    have h : SoFar setting anywhere origin
        [⟨_, .type outer name args diamond annotations 0 extent⟩] 0 true s := by
      refine ⟨h.fine, h.reaches, h.level, h.began, fun p hp ctx hctx => ?_⟩
      cases List.mem_singleton.mp hp
      exact read_dims (h.parts _ List.mem_cons_self ctx hctx) 0
    unfold newArray
    refine h.tree (listIf_read h.fine fun _ => call_read h.fine rfl rfl) fun sizes t h => ?_
    have hrest : ∀ n u, SoFar setting anywhere origin
        [⟨_, .type outer name args diamond annotations 0 extent⟩, ⟨_, sizes⟩] 0 true u →
        (check .lbrace >>= fun present => optionIf present (call .arrayInit) >>= fun init =>
          if (sizes.isNil && init.toOption.isNone) = true then
            view >>= fun v => raise ⟨.dimensionMissing, v.here⟩
          else since origin.mark >>= fun e => pure (Tree.newArray
            (.type outer name args diamond annotations 0 extent) sizes n init e)).Ensures setting
              (reads setting) inLabels u (Ends setting (Taken setting anywhere origin)) := by
      intro n u h
      rw [ensures_check_bind]
      refine h.tree (optionIf_read h.fine fun _ => call_read h.fine rfl rfl) fun init w h => ?_
      split
      · exact ⟨h.fine, (h.fine.placed.sound_here h.fine.tiled inLabels).told nofun⟩
      · rename_i hsized
        refine h.finish (fun _ => rfl) (fun _ => rfl) (fun _ => trivial) fun _ _ _ _ => ?_
        simpa [Tree.Fits, Bool.and_eq_true, imp_iff_not_or, Option.isSome_iff_ne_none] using hsized
    split
    · exact h.dims fun n u h => hrest n u h
    · exact hrest _ _ h

theorem classBody_reads (owner : String) (ht : Fine setting.layout t) :
    (classBody owner).Ensures setting (reads setting) inLabels t
      (Ends setting fun members u => SoFar setting (ownedBy owner) t [⟨_, members⟩] 0 true u) := by
  unfold classBody
  refine (SoFar.start (A := ownedBy owner) ht).expect rfl fun h => ?_
  refine h.tree (call_read h.fine rfl rfl) fun members u h => ?_
  exact h.require rfl fun u h => h

theorem creation_reads {outer : Tree (.option .expr)} {b : Bool}
    (h : SoFar setting anywhere origin [⟨_, outer⟩] 0 b s) :
    (creation origin.mark outer).Ensures setting (reads setting) inLabels s
      (Ends setting (Taken setting anywhere origin)) := by
  unfold creation
  refine h.expect rfl fun h => ?_
  rw [ensures_check_bind]
  refine h.listDropped (fun _ => call_read h.fine rfl rfl) fun _ t h => ?_
  refine h.call rfl rfl fun type t h => ?_
  rw [ensures_check_bind]
  split
  · exact newArray_reads (h.weaken (by simp) (fun _ hA => hA) fun hb => hb)
  · refine h.tree (arguments_reads h.fine) fun args t h => ?_
    rw [ensures_check_bind]
    have h : SoFar setting (ownedBy "") origin [⟨_, outer⟩, ⟨_, type⟩, ⟨_, args⟩] 0 true t :=
      h.narrow
    refine h.tree (optionIf_read h.fine fun _ => classBody_reads "" h.fine) fun body u h => ?_
    exact h.node rfl rfl (fun _ he => (Option.some.inj he).symm) trivial
      fun ctx _ => ⟨.inr ⟨rfl, by cases ctx <;> rfl⟩, fun _ => trivial⟩

theorem primitiveExpr_reads (hs : Fine setting.layout s) :
    primitiveExpr.Ensures setting (reads setting) inLabels s
      (Ends setting (Taken setting anywhere s)) := by
  unfold primitiveExpr
  refine call_reads hs rfl fun type t htype hruns => ?_
  rw [ensures_view_bind]
  split
  · cases type
    exact htype.wrap rfl rfl rfl rfl trivial fun _ _ _ => trivial
  · exact htype.soFar.missing _ _

theorem primary_reads (hs : Fine setting.layout s) :
    primary.Ensures setting (reads setting) inLabels s
      (Ends setting (Taken setting anywhere s)) := by
  unfold primary
  rw [ensures_view_bind, State.view_ahead]
  dsimp only
  split
  · rename_i hkind
    exact nameOrCall_reads hs hkind rfl
  · rename_i hkind
    exact nameOrCall_reads hs hkind rfl
  · rename_i hkind
    refine SoFar.call (hs.soFar.openKind hkind) rfl rfl fun inner t h => ?_
    refine h.expectClose fun h => ?_
    exact h.finish (fun _ => rfl) (fun _ => rfl) (fun _ => trivial) fun _ _ _ _ => trivial
  · exact creation_reads hs.soFar.none
  · rename_i hkind
    have h := hs.soFar.takeKind hkind rfl
    refine call_reads h.fine rfl fun read t hread _ => ?_
    obtain ⟨selector, cases⟩ := read
    have h := h.narrow.trans hread
    exact h.node rfl rfl (fun _ he => (Option.some.inj he).symm) trivial
      fun ctx _ => ⟨fun _ => by cases ctx <;> rfl, fun _ => trivial⟩
  · rename_i hkind
    split
    · refine call_wrapped hs rfl rfl (fun tree => ?_) rfl (fun _ => rfl) (fun tree => ?_)
        (fun _ => trivial) fun _ _ _ => trivial
      · cases tree
        exact ⟨_, rfl⟩
      · cases tree
        rfl
    · exact nameOrCall_reads hs hkind rfl
  · split
    · exact literal_reads hs.soFar rfl
    · split
      · exact primitiveExpr_reads hs
      · exact hs.soFar.wrong _ nofun
  · exact hs.soFar.wrong _ nofun

theorem memberSelector_reads {target : Tree .expr}
    (h : SoFar setting anywhere origin [⟨_, target⟩] 0 true s) :
    (memberSelector origin.mark target).Ensures setting (reads setting) inLabels s
      (Ends setting (Taken setting anywhere origin)) := by
  unfold memberSelector
  rw [ensures_ahead_bind]
  split
  · rename_i hnext
    exact (h.takeOneOf hnext rfl).here (Tree.select target _) (fun _ => rfl) (fun _ => rfl)
      (fun _ => trivial) fun _ _ _ _ => trivial
  · split
    · rename_i hnext
      refine h.takeText hnext rfl fun h => ?_
      rw [ensures_check_bind]
      split
      · have h := h.some.addNil (c := .typeArg)
        refine h.tree (arguments_reads h.fine) fun args u h => ?_
        exact h.finish (fun _ => rfl) (fun _ => rfl) (fun _ => trivial) fun _ _ _ _ => trivial
      · exact h.finish (fun _ => rfl) (fun _ => rfl) (fun _ => trivial) fun _ _ _ _ => trivial
    · split
      · exact creation_reads h.some
      · -- A selection has the target as it is, a call as an option.
        have h := h.join (.refl _) h.some
        refine h.tree (listIf_read h.fine fun _ => call_read h.fine rfl rfl)
          fun typeArgs t h => ?_
        refine h.identifier fun name t h _ => ?_
        rw [ensures_check_bind]
        split
        · refine h.tree (arguments_reads h.fine) fun args u h => ?_
          have hcall : SoFar setting anywhere origin
              [⟨_, .some target⟩, ⟨_, typeArgs⟩, ⟨_, args⟩] 0 true u := h.only (by simp)
          exact hcall.finish (fun _ => rfl) (fun _ => rfl) (fun _ => trivial) fun _ _ _ _ => trivial
        · have hselect : SoFar setting anywhere origin [⟨_, target⟩] 0 true t := h.only (by simp)
          exact hselect.finish (fun _ => rfl) (fun _ => rfl) (fun _ => trivial)
            fun _ _ _ _ => trivial

theorem referenceSelector_reads {target : Tree .expr}
    (h : SoFar setting anywhere origin [⟨_, target⟩] 0 true s) :
    (referenceSelector origin.mark target).Ensures setting (reads setting) inLabels s
      (Ends setting (Taken setting anywhere origin)) := by
  unfold referenceSelector
  rw [ensures_check_bind]
  refine h.tree (listIf_read h.fine fun _ => call_read h.fine rfl rfl) fun typeArgs t h => ?_
  rw [ensures_check_bind]
  split
  · rename_i hnext
    exact h.takeText hnext rfl fun h =>
      h.finish (fun _ => rfl) (fun _ => rfl) (fun _ => trivial) fun _ _ _ _ => trivial
  · exact h.identifier fun name u h _ =>
      h.finish (fun _ => rfl) (fun _ => rfl) (fun _ => trivial) fun _ _ _ _ => trivial

theorem selectors_reads {target : Tree .expr} (htarget : Taken setting anywhere origin target s) :
    (selectors origin.mark target).Ensures setting (reads setting) inLabels s
      (Ends setting (Taken setting anywhere origin)) := by
  have h := htarget.begun rfl
  unfold selectors
  refine h.accept rfl (fun h => ?_) (h.accept rfl (fun h => ?_) (h.accept rfl (fun h => ?_) ?_))
  · exact ensures_bind_ends (memberSelector_reads h) fun tree u htree =>
      call_ends htree.soFar.fine ⟨rfl, htree⟩
  · refine h.call rfl rfl fun index u h => ?_
    refine h.expect rfl fun h => ?_
    exact call_ends h.fine ⟨rfl, h.here (Tree.index target index) (fun _ => rfl) (fun _ => rfl)
      (fun _ => trivial) fun _ _ _ _ => trivial⟩
  · exact ensures_bind_ends (referenceSelector_reads h) fun tree u htree =>
      call_ends htree.soFar.fine ⟨rfl, htree⟩
  · exact htarget

theorem steps_reads {operand : Tree .expr} (hoperand : Taken setting anywhere origin operand s) :
    (steps origin.mark operand).Ensures setting (reads setting) inLabels s
      (Ends setting (Taken setting anywhere origin)) := by
  unfold steps
  rw [ensures_ahead_bind]
  split
  · exact hoperand
  · rename_i op hop
    have h := (hoperand.begun rfl).takeLookup hop rfl rfl
    exact call_ends h.fine ⟨rfl, h.here (Tree.unary op operand) (fun _ => rfl) (fun _ => rfl)
      (fun _ => trivial) fun _ _ _ _ => trivial⟩

theorem trailing_reads (hs : Fine setting.layout s) :
    trailing.Ensures setting (reads setting) inLabels s
      (Ends setting (Taken setting anywhere s)) := by
  unfold trailing
  rw [ensures_mark_bind]
  refine ensures_bind_ends (primary_reads hs) fun first t hfirst => ?_
  refine call_reads hfirst.soFar.fine ⟨rfl, hfirst⟩ fun selected u hselected _ => ?_
  exact call_ends hselected.soFar.fine ⟨rfl, hselected⟩

theorem cast_reads (hs : Fine setting.layout s) :
    cast.Ensures setting (reads setting) inLabels s (Ends setting (Taken setting anywhere s)) := by
  unfold cast
  rw [ensures_mark_bind]
  refine hs.soFar.expectOpen fun h => ?_
  refine h.call rfl rfl fun type t h => ?_
  refine h.call ⟨rfl, rfl⟩ rfl fun bounds t h => ?_
  refine h.expectClose fun h => ?_
  rw [ensures_startsLambda_bind]
  split
  · exact h.call rfl rfl fun operand u h =>
      h.finish (fun _ => rfl) (fun _ => rfl) (fun _ => trivial) fun _ _ _ _ => trivial
  · exact h.call rfl rfl fun operand u h =>
      h.finish (fun _ => rfl) (fun _ => rfl) (fun _ => trivial) fun _ _ _ _ => trivial

theorem unary_reads (hs : Fine setting.layout s) :
    unary.Ensures setting (reads setting) inLabels s (Ends setting (Taken setting anywhere s)) := by
  unfold unary
  rw [ensures_view_bind, State.view_ahead]
  split
  · rename_i op hop
    have h := hs.soFar.takeLookup hop rfl rfl
    rw [ensures_advance_bind, ensures_ahead_bind]
    split
    · exact ensures_bind_ends (literal_reads h rfl) fun number u hnumber =>
        call_ends hnumber.soFar.fine ⟨rfl, hnumber⟩
    · exact h.call rfl rfl fun operand u h =>
        h.finish (fun _ => rfl) (fun _ => rfl) (fun _ => trivial) fun _ _ _ _ => trivial
  · split
    · exact cast_reads hs
    · exact trailing_reads hs

theorem addDims_reads {type : Tree .type} {depth : Nat} {b : Bool} (n : Nat)
    (h : SoFar setting A s [⟨_, type⟩] depth b t) :
    SoFar setting A s [⟨_, type.addDims n⟩] depth b t := by
  refine ⟨h.fine, h.reaches, h.level, h.began, fun p hp ctx hctx => ?_⟩
  cases List.mem_singleton.mp hp
  have hread := h.parts _ List.mem_cons_self ctx hctx
  cases type
  exact read_dims hread _

theorem lambdaParam_reads (hs : Fine setting.layout s) :
    lambdaParam.Ensures setting (reads setting) inLabels s
      (Ends setting (Taken setting anywhere s)) := by
  unfold lambdaParam
  rw [ensures_mark_bind]
  refine call_reads hs rfl fun read t hread _ => ?_
  obtain ⟨modifiers, annotations⟩ := read
  have h : SoFar setting anywhere s [] 0 false t := hread.1.forget
  rw [ensures_ahead_bind]
  split
  · exact h.identifier fun name u h _ =>
      (h.addNone (c := .type)).finish (fun _ => rfl) (fun _ => rfl) (fun _ => trivial)
        fun _ _ _ _ => trivial
  · refine h.call rfl rfl fun type u h => ?_
    refine h.accept rfl (fun h => ?_) ?_
    · exact SoFar.identifier (addDims_reads 1 h).some fun name u h _ =>
        h.finish (fun _ => rfl) (fun _ => rfl) (fun _ => trivial) fun _ _ _ _ => trivial
    · exact h.some.identifier fun name u h _ =>
        h.finish (fun _ => rfl) (fun _ => rfl) (fun _ => trivial) fun _ _ _ _ => trivial

theorem lambdaParamList_reads (hs : Fine setting.layout s) :
    lambdaParamList.Ensures setting (reads setting) inLabels s
      (Ends setting (Taken setting anywhere s)) :=
  hs.soFar.tree (lambdaParam_reads hs).soFar fun _ _ h =>
    h.separated rfl (fun _ => rfl) fun _ => rfl

theorem lambdaParams_reads (ht : Fine setting.layout t) :
    lambdaParams.Ensures setting (reads setting) inLabels t
      (Ends setting fun params u => SoFar setting anywhere t [⟨_, params⟩] 0 true u) := by
  unfold lambdaParams
  rw [ensures_view_bind, State.view_ahead]
  split
  · rename_i hnext
    obtain ⟨x, rest, hahead, _⟩ := SoFar.ahead_of_next hnext
    refine ht.soFar.takeText hnext rfl fun h => ?_
    rw [ht.placed.here_eq hahead]
    have hparam := (h.addNone (c := .type)).here (B := anywhere)
      (Tree.lambdaParam [] .none ((t.ahead.head?.map Symbol.text).getD "")) (fun _ => rfl)
      (fun _ => rfl) (fun _ => trivial) fun _ _ _ _ => trivial
    exact (hparam.begun rfl).single
  · refine ht.soFar.expectOpen fun h => ?_
    rw [ensures_check_bind]
    refine h.tree (listIf_read h.fine fun _ => call_read h.fine rfl rfl) fun params u h => ?_
    exact h.expectClose fun h => h

theorem lambda_reads (hs : Fine setting.layout s) :
    lambda.Ensures setting (reads setting) inLabels s
      (Ends setting (Taken setting anywhere s)) := by
  unfold lambda
  rw [ensures_mark_bind]
  refine hs.soFar.tree (lambdaParams_reads hs) fun params t h => ?_
  refine h.expect rfl fun h => ?_
  rw [ensures_check_bind]
  split
  · refine h.callInto Tree.blockBody rfl rfl
      (fun body u hu => hu.wrap rfl rfl rfl trivial fun _ _ => trivial) fun body u h => ?_
    exact h.finish (fun _ => rfl) (fun _ => rfl) (fun _ => trivial) fun _ _ _ _ => trivial
  · refine h.callInto Tree.exprBody rfl rfl
      (fun body u hu => hu.wrap rfl rfl rfl trivial fun _ _ => trivial) fun body u h => ?_
    exact h.finish (fun _ => rfl) (fun _ => rfl) (fun _ => trivial) fun _ _ _ _ => trivial

end Grammar

end JavaSyntax
