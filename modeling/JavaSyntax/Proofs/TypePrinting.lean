import JavaSyntax.Proofs.Coverage
import JavaSyntax.Proofs.Leading
import JavaSyntax.Proofs.Phrasing
import JavaSyntax.Proofs.TypeGrammar

/-!
Printing a type and parsing it again. What spelled the type need not be what it is printed as: the
names of segments without arguments are printed as one, and empty arguments behind the last of them.
By induction on what spelled it, the printed text is cut into pieces that spell the type again.
-/

namespace JavaSyntax

open Printer

/-- Whether a type has no annotations. -/
def Tree.isUnannotated : {c : Category} → Tree c → Bool
  | _, .nil | _, .none => true
  | _, .cons head tail => head.isUnannotated && tail.isUnannotated
  | _, .some value => value.isUnannotated
  | _, .type outer _ args _ annotations _ _ =>
    outer.isUnannotated && args.isUnannotated && annotations.isNil
  | _, .typeArg type => type.isUnannotated
  | _, .wildcard annotations _ => annotations.isNil
  | _, .wildcardExtends annotations bound _ => annotations.isNil && bound.isUnannotated
  | _, .wildcardSuper annotations bound _ => annotations.isNil && bound.isUnannotated
  | _, _ => false

/-- Names are not reserved, and reserved words are spelled as such. -/
structure Word.Named (w : Word) : Prop where
  name_text : w.1 = .identifier → IsWordText w.2 ∧ isReserved w.2 = false
  keyword_text : w.1 ∈ Kind.keywords → w.2 = w.1.spelling

namespace TypePart

/-- Whether there are no annotations in a part. -/
def isUnannotated : TypePart → Bool
  | .segments outer _ _ => outer.isUnannotated
  | .args _ trees | .list trees => trees.isUnannotated
  | .arg tree => tree.isUnannotated
  | .bare tree | .type tree => tree.isUnannotated

/-- The characters a part is printed with; arguments without their brackets. -/
def text : TypePart → List Char
  | .segments outer name _ => (optional "" (outer.print 0) "." ++ name).toList
  | .args _ trees | .list trees => (commas (trees.print 0)).toList
  | .arg tree => (tree.print 0 : String).toList
  | .bare tree | .type tree => (tree.print 0 : String).toList

/-- The printed part is cut into pieces that spell it. -/
structure Prints (part : TypePart) (ps : List Word) : Prop where
  spelled : Spells part ps
  plain : ∀ w ∈ ps, w.1 ≠ .lparen
  /-- It starts with a name, a reserved word or a wildcard. -/
  opening : ∃ c cs, part.text = c :: cs ∧ (Unicode.isIdentifierStart c || c == '?') = true
  cut : CutsAs part.text ps

/-- What can be printed of a part: segments without a diamond, and arguments that are given. -/
def IsPrinted : TypePart → Prop
  | .segments outer name _ => ∃ ps, (segments outer name false).Prints ps
  | .args _ trees => trees.isNil = false → ∃ ps, (list trees).Prints ps
  | part => ∃ ps, part.Prints ps

end TypePart

section Texts

open TypePart

variable {outer : Tree (.option .type)} {name next : String} {args : Tree (.list .typeArg)}
  {diamond : Bool} {n : Nat} {extent : Extent} {type : Tree .type} {arg : Tree .typeArg}

theorem text_type : (TypePart.type (.type outer name args diamond .nil n extent)).text =
    (segments outer name false).text ++ ((if diamond then ['<', '>'] else []) ++
      ((angles (args.print 0)).toList ++ (dims n).toList)) := by
  show (optional "" (outer.print 0) "." ++ each " " [] ++ name ++ (if diamond then "<>" else "") ++
    angles (args.print 0) ++ dims n : String).toList = _
  cases diamond <;> simp [each, TypePart.text, String.toList_append]

theorem text_segment : (segments outer (name ++ "." ++ next) false).text =
    (segments outer name false).text ++ '.' :: next.toList := by
  simp [TypePart.text, String.toList_append]

theorem text_nested : (segments (.some type) next false).text =
    (TypePart.type type).text ++ '.' :: next.toList := by
  show ("" ++ type.print 0 ++ "." ++ next : String).toList = (type.print 0 : String).toList ++ _
  simp [String.toList_append]

theorem toList_angles (h : args.isNil = false) :
    (angles (args.print 0)).toList = '<' :: ((list args).text ++ ['>']) := by
  cases args with
  | nil => cases h
  | cons first others =>
    show ("<" ++ commas (first.print 0 :: others.print 0) ++ ">" : String).toList = _
    simp [String.toList_append, TypePart.text]
    rfl

theorem text_list_one : (list (.cons arg .nil)).text = (TypePart.arg arg).text := by
  show (", ".intercalate [arg.print 0]).toList = _
  simp [TypePart.text]

theorem text_list_more {first : Tree .typeArg} : (list (.cons first (.cons arg args))).text =
    (TypePart.arg first).text ++ ',' :: ' ' :: (list (.cons arg args)).text := by
  show (", ".intercalate (first.print 0 :: arg.print 0 :: args.print 0)).toList = _
  rw [String.intercalate_cons_cons, String.toList_append, String.toList_append, List.append_assoc]
  rfl

theorem text_extends : (TypePart.arg (.wildcardExtends .nil type extent)).text =
    '?' :: ' ' :: (Kind.extendsKw.spelling.toList ++ ' ' :: (TypePart.type type).text) := by
  show ("" ++ "? extends " ++ type.print 0 : String).toList = _
  simp [String.toList_append, TypePart.text]
  rfl

theorem text_super : (TypePart.arg (.wildcardSuper .nil type extent)).text =
    '?' :: ' ' :: (Kind.superKw.spelling.toList ++ ' ' :: (TypePart.type type).text) := by
  show ("" ++ "? super " ++ type.print 0 : String).toList = _
  simp [String.toList_append, TypePart.text]
  rfl

end Texts

section Parts

open TypePart

variable {outer : Tree (.option .type)} {name : String} {trees : Tree (.list .typeArg)}
  {diamond : Bool} {n : Nat} {extent : Extent} {ps qs us : List Word} {cs : List Char}

theorem isKeyword_of_isPrimitive {k : Kind} (h : k.isPrimitive = true) : k ∈ Kind.keywords := by
  unfold Kind.isPrimitive at h
  split at h <;> first | decide | cases h

theorem starts_less {c : Char}
    (h : (c == '>' || (Unicode.isIdentifierStart c || c == '?')) = true) :
    Starts (.less, Kind.less.spelling) (c :: cs) := by
  refine starts_operator (by decide) (follows_cons ?_) (by simp) (by simp)
  have hall : (extensions .less).any
      (fun d => d == '>' || (Unicode.isIdentifierStart d || d == '?')) = false := by
    decide
  simp only [Bool.not_eq_eq_eq_not, Bool.not_true, List.contains_eq_mem, decide_eq_false_iff_not]
  intro hin
  exact List.any_eq_false.mp hall c hin h

theorem cutsAs_dims (n : Nat) : ∃ bs, Brackets n bs ∧ CutsAs (dims n).toList bs ∧
    Follows endsWord (dims n).toList := by
  induction n with
  | zero => exact ⟨[], .zero, .nil, follows_nil⟩
  | succ n ih =>
    obtain ⟨bs, hbs, hcut, -⟩ := ih
    have hchars : (dims (n + 1)).toList = '[' :: ']' :: (dims n).toList := by
      simp [dims, List.replicate_succ]
    rw [hchars]
    refine ⟨fixed .lbracket :: fixed .rbracket :: bs, .succ rfl rfl hbs, ?_,
      follows_mark (by decide)⟩
    have hpair (rest : List Char) (vs : List Word) (h : CutsTo rest vs) :
        CutsTo ('[' :: ']' :: rest) (fixed .lbracket :: fixed .rbracket :: vs) :=
      (h.separator (k := .rbracket) (by decide) rfl).separator (k := .lbracket) (by decide) rfl
    exact fun rest vs h hr => hpair _ _ (hcut rest vs h hr)

/-- Arguments are told from a shift by what they start with. -/
theorem TypePart.Prints.cutsAs_angles (h : (list trees).Prints ps) (hgiven : trees.isNil = false) :
    CutsAs (angles (trees.print 0)).toList (fixed .less :: (ps ++ [fixed .greater])) := by
  obtain ⟨c, ds, htext, hc⟩ := h.opening
  intro rest vs hrest hr
  have hlist := h.cut _ _ hrest.close (follows_mark (by decide))
  have hstarts : Starts (.less, Kind.less.spelling) ((list trees).text ++ '>' :: rest) := by
    rw [htext]
    exact starts_less (by simp [hc])
  have hword := hlist.word (k := .less) hstarts (follows_cons (by decide)) rfl
  rw [toList_angles hgiven]
  simp only [List.cons_append, List.append_assoc, List.nil_append]
  exact hword

theorem prints_first (hname : IsWordText name) (hfree : isReserved name = false) :
    (segments .none name false).Prints [(.identifier, name)] := by
  have htext : (segments .none name false).text = name.toList := by
    show ("" ++ name : String).toList = _
    simp
  refine ⟨.first (w := (.identifier, name)) rfl, List.forall_mem_singleton.mpr (by simp), ?_, ?_⟩
  · obtain ⟨c, cs, hchars, hc, -⟩ := hname
    exact ⟨c, cs, htext.trans hchars, by simp [hc]⟩
  · rw [htext]
    exact .name hname hfree

/-- The diamond and the arguments of a type, of which there is at most one. -/
theorem cutsAs_arguments (hargs : trees.isNil = false → ∃ ps, (list trees).Prints ps)
    (hdiamond : diamond = true → trees.isNil = true) :
    ∃ opened gs, Spells (.args opened trees) gs ∧ (∀ w ∈ gs, w.1 ≠ .lparen) ∧
      (if opened then trees.isNil else false) = diamond ∧
      CutsAs ((if diamond then ['<', '>'] else []) ++ (angles (trees.print 0)).toList) gs ∧
      Follows endsWord
        ((if diamond then ['<', '>'] else []) ++ (angles (trees.print 0)).toList) := by
  cases trees with
  | nil =>
    have hnone : (angles ((Tree.nil : Tree (.list .typeArg)).print 0)).toList = [] := by
      show (angles []).toList = []
      simp [angles]
    rw [hnone]
    cases diamond with
    | false => exact ⟨false, [], .closed, by simp, rfl, .nil, follows_nil⟩
    | true =>
      refine ⟨true, [fixed .less, fixed .greater], .empty rfl rfl, by simp [fixed], rfl, ?_,
        follows_mark (by decide)⟩
      intro rest vs hrest _
      simp only [if_true, List.append_nil, List.cons_append, List.nil_append]
      exact hrest.close.word (k := .less) (starts_less rfl) (follows_cons (by decide)) rfl
  | cons first others =>
    obtain ⟨ps, hps⟩ := hargs rfl
    obtain rfl : diamond = false := Bool.eq_false_iff.mpr fun h => by cases hdiamond h
    simp only [Bool.false_eq_true, if_false, List.nil_append]
    refine ⟨true, _, .listed rfl rfl hps.spelled, ?_, rfl, hps.cutsAs_angles rfl, ?_⟩
    · simp only [List.forall_mem_cons, List.forall_mem_append]
      exact ⟨by decide, hps.plain, by decide⟩
    · rw [toList_angles rfl]
      exact follows_mark (by decide)

theorem TypePart.Prints.behindDot {part target : TypePart} (h : part.Prints ps)
    (hname : IsWordText name) (hfree : isReserved name = false)
    (htext : target.text = part.text ++ '.' :: name.toList)
    (hspelled : Spells target (ps ++ [fixed .dot, (.identifier, name)])) :
    target.Prints (ps ++ [fixed .dot, (.identifier, name)]) := by
  refine ⟨hspelled, ?_, ?_, ?_⟩
  · simp only [List.forall_mem_append, List.forall_mem_cons]
    exact ⟨h.plain, by decide, nofun, List.forall_mem_nil _⟩
  · obtain ⟨c, cs, hpart, hc⟩ := h.opening
    exact ⟨c, cs ++ '.' :: name.toList, by rw [htext, hpart]; rfl, hc⟩
  · rw [htext]
    exact h.cut.append (.behindDot hname hfree) (follows_mark (by decide))

theorem prints_classType (h : (segments outer name false).Prints ps)
    (hargs : trees.isNil = false → ∃ ps, (list trees).Prints ps)
    (hdiamond : diamond = true → trees.isNil = true) :
    ∃ qs, (bare (.type outer name trees diamond .nil n extent)).Prints qs := by
  obtain ⟨opened, gs, hgs, hplain, rfl, hcut, hends⟩ := cutsAs_arguments hargs hdiamond
  obtain ⟨bs, hbs, hdims, hdimsEnd⟩ := cutsAs_dims n
  obtain ⟨c, cs, htext, hc⟩ := h.opening
  have hwhole : (bare (.type outer name trees (if opened then trees.isNil else false) .nil n
      extent)).text = (segments outer name false).text ++
        (((if (if opened then trees.isNil else false) then ['<', '>'] else []) ++
          (angles (trees.print 0)).toList) ++ (dims n).toList) :=
    text_type.trans (by rw [List.append_assoc])
  refine ⟨ps ++ (gs ++ bs), .classType h.spelled hgs hbs, ?_, ?_, ?_⟩
  · have hbrackets : ∀ w ∈ bs, w.1 ≠ .lparen := fun w hw => by
      rcases hbs.kinds w hw with hk | hk <;> simp [hk]
    simp only [List.forall_mem_append]
    exact ⟨h.plain, hplain, hbrackets⟩
  · exact ⟨c, _, by rw [hwhole, htext]; rfl, hc⟩
  · rw [hwhole]
    exact h.cut.append (hcut.append hdims hdimsEnd) (hends.append hdimsEnd)

/-- What a name stands in front of a dot with its arguments. -/
theorem prints_nest (h : (segments outer name false).Prints ps) (hlist : (list trees).Prints qs)
    (hgiven : trees.isNil = false) {next : String} (hname : IsWordText next)
    (hfree : isReserved next = false) :
    ∃ us, (segments (.some (.type outer name trees false .nil 0 extent)) next false).Prints us := by
  have hargs : Spells (.args true trees) (fixed .less :: (qs ++ [fixed .greater])) :=
    .listed rfl rfl hlist.spelled
  have htext : (segments (.some (.type outer name trees false .nil 0 extent)) next false).text =
      (segments outer name false).text ++ ((angles (trees.print 0)).toList ++
        '.' :: next.toList) := by
    rw [text_nested, text_type, List.append_assoc]
    simp [dims]
  have hdot : (fixed .dot).1 = .dot := rfl
  refine ⟨_, .nest (w := (.identifier, next)) h.spelled hargs hgiven hdot Markers.nil.annotates rfl,
    ?_, ?_, ?_⟩
  · simp only [List.forall_mem_append, List.forall_mem_cons, List.nil_append]
    exact ⟨h.plain, ⟨by decide, hlist.plain, by decide⟩, by decide, nofun, List.forall_mem_nil _⟩
  · obtain ⟨c, cs, hfirst, hc⟩ := h.opening
    exact ⟨c, _, by rw [htext, hfirst]; rfl, hc⟩
  · rw [htext]
    refine h.cut.append ((hlist.cutsAs_angles hgiven).append (.behindDot hname hfree)
      (follows_mark (by decide))) ?_
    rw [toList_angles hgiven]
    exact follows_mark (by decide)

theorem prints_primitive {k : Kind} (hk : k.isPrimitive = true) :
    ∃ qs, (bare (.type .none k.spelling .nil false .nil n extent)).Prints qs := by
  have hword := isKeyword_of_isPrimitive hk
  obtain ⟨bs, hbs, hdims, hends⟩ := cutsAs_dims n
  have htext : (bare (.type .none k.spelling .nil false .nil n extent)).text =
      k.spelling.toList ++ (dims n).toList := by
    refine text_type.trans ?_
    show ("" ++ k.spelling : String).toList ++ _ = _
    simp [angles]
    rfl
  refine ⟨fixed k :: bs, .primitive (w := fixed k) hk hbs, ?_, ?_, ?_⟩
  · refine List.forall_mem_cons.mpr ⟨?_, fun w hw => ?_⟩
    · rintro heq
      rw [show k = .lparen from heq] at hk
      cases hk
    · rcases hbs.kinds w hw with hkind | hkind <;> simp [hkind]
  · obtain ⟨c, cs, hchars, hc, -⟩ := isWordText_spelling hword
    exact ⟨c, _, by rw [htext, hchars]; rfl, by rw [hc]; rfl⟩
  · rw [htext]
    exact (CutsAs.keyword hword).append hdims hends

/-- A wildcard with a bound behind `extends` or `super`. -/
theorem TypePart.Prints.bounded {bound : Tree .type} {target : TypePart} {k : Kind}
    (h : (TypePart.type bound).Prints ps) (hk : k ∈ Kind.keywords)
    (htext : target.text = '?' :: ' ' :: (k.spelling.toList ++ ' ' :: (TypePart.type bound).text))
    (hspelled : Spells target (fixed .question :: fixed k :: ps)) :
    target.Prints (fixed .question :: fixed k :: ps) := by
  refine ⟨hspelled, ?_, ⟨'?', _, htext, rfl⟩, ?_⟩
  · have hnone : ∀ k ∈ Kind.keywords, k ≠ .lparen := by decide
    simp only [List.forall_mem_cons]
    exact ⟨by decide, hnone k hk, h.plain⟩
  · rw [htext]
    have hblank : Follows endsWord (' ' :: (TypePart.type bound).text) :=
      follows_mark (by decide)
    have hbound := ((CutsAs.keyword hk).append (.blank rfl h.cut) hblank).blank
      (show Lexer.isSkipped ' ' = true from rfl)
    have hquestion : CutsAs ['?'] [fixed .question] := .separator (by decide) rfl
    exact hquestion.append hbound (follows_mark (by decide))

theorem prints_more {first arg : Tree .typeArg} (h : (TypePart.arg first).Prints ps)
    (h' : (list (.cons arg trees)).Prints qs) :
    (list (.cons first (.cons arg trees))).Prints (ps ++ fixed .comma :: qs) := by
  refine ⟨.more h.spelled rfl h'.spelled, ?_, ?_, ?_⟩
  · simp only [List.forall_mem_append, List.forall_mem_cons]
    exact ⟨h.plain, by decide, h'.plain⟩
  · obtain ⟨c, cs, htext, hc⟩ := h.opening
    exact ⟨c, _, by rw [text_list_more, htext]; rfl, hc⟩
  · rw [text_list_more]
    have hcomma : CutsAs [','] [fixed .comma] := .separator (by decide) rfl
    exact h.cut.append (hcomma.append (.blank rfl h'.cut) (follows_mark (by decide)))
      (follows_mark (by decide))

end Parts

/-- What is not opened holds nothing. -/
theorem Spells.isNil_of_closed {opened : Bool} {trees : Tree (.list .typeArg)} {gs : List Word}
    (h : Spells (.args opened trees) gs) (hopened : opened = false) : trees.isNil = true := by
  cases h <;> first | rfl | cases hopened

theorem Spells.isPrinted {part : TypePart} {us : List Word} (h : Spells part us)
    (hus : ∀ w ∈ us, w.Named) (hplain : part.isUnannotated = true) : part.IsPrinted := by
  induction h with
  | @first w hname =>
    obtain ⟨hword, hfree⟩ := (hus w List.mem_cons_self).name_text hname
    exact ⟨_, prints_first hword hfree⟩
  | @fold _ _ _ _ _ _ _ _ _ w _ _ _ _ hname ih =>
    simp only [List.forall_mem_append, List.forall_mem_cons] at hus
    obtain ⟨hword, hfree⟩ := hus.2.2.2.2.1.name_text hname
    obtain ⟨ps, hps⟩ := ih hus.1 hplain
    have hdot : (fixed .dot).1 = .dot := rfl
    have hspelled := Spells.fold (w := (.identifier, w.2)) hps.spelled .closed hdot
      Markers.nil.annotates rfl
    exact ⟨_, hps.behindDot hword hfree text_segment hspelled⟩
  | @nest _ _ _ _ _ _ _ _ _ _ _ w _ _ hgiven _ _ hname ih ih' =>
    simp only [List.forall_mem_append, List.forall_mem_cons] at hus
    obtain ⟨hparts, -⟩ := Bool.and_eq_true_iff.mp hplain
    obtain ⟨houter, hargs⟩ := Bool.and_eq_true_iff.mp hparts
    obtain ⟨hword, hfree⟩ := hus.2.2.2.2.1.name_text hname
    obtain ⟨ps, hps⟩ := ih hus.1 houter
    obtain ⟨qs, hqs⟩ := ih' hus.2.1 hargs hgiven
    exact prints_nest hps hqs hgiven hword hfree
  | closed | empty => exact nofun
  | listed _ _ _ ih =>
    simp only [List.forall_mem_append, List.forall_mem_cons] at hus
    exact fun _ => ih hus.2.1 hplain
  | one _ ih =>
    obtain ⟨ps, hps⟩ := ih hus (Bool.and_eq_true_iff.mp hplain).1
    exact ⟨ps, .one hps.spelled, hps.plain, by rw [text_list_one]; exact hps.opening,
      by rw [text_list_one]; exact hps.cut⟩
  | @more _ args _ _ _ _ _ hothers ih ih' =>
    simp only [List.forall_mem_append, List.forall_mem_cons] at hus
    obtain ⟨hfirst, hrest⟩ := Bool.and_eq_true_iff.mp hplain
    obtain ⟨ps, hps⟩ := ih hus.1 hfirst
    obtain ⟨qs, hqs⟩ := ih' hus.2.2 hrest
    cases hothers with
    | one | more => exact ⟨_, prints_more hps hqs⟩
  | typeArg _ ih =>
    obtain ⟨ps, hps⟩ := ih hus hplain
    exact ⟨ps, .typeArg hps.spelled, hps.plain, hps.opening, hps.cut⟩
  | @wildcard annotations extent =>
    cases annotations with
    | cons => cases hplain
    | nil =>
      have htext : (TypePart.arg (.wildcard .nil extent)).text = ['?'] := by
        show (each " " [] ++ "?" : String).toList = _
        simp [each]
      refine ⟨[fixed .question], .wildcard Markers.nil.annotates rfl, by simp [fixed],
        ⟨'?', [], htext, rfl⟩, ?_⟩
      rw [htext]
      exact .separator (by decide) rfl
  | @wildcardExtends annotations bound extent _ _ _ _ _ _ _ _ ih =>
    simp only [List.forall_mem_append, List.forall_mem_cons] at hus
    obtain ⟨hnil, hbound⟩ := Bool.and_eq_true_iff.mp hplain
    obtain ⟨ps, hps⟩ := ih hus.2.2.2 hbound
    cases annotations with
    | cons => cases hnil
    | nil =>
      have hspelled := @Spells.wildcardExtends .nil bound extent ps [] (fixed .question)
        (fixed .extendsKw) Markers.nil.annotates rfl rfl hps.spelled
      exact ⟨_, hps.bounded (k := .extendsKw) (by decide) text_extends hspelled⟩
  | @wildcardSuper annotations bound extent _ _ _ _ _ _ _ _ ih =>
    simp only [List.forall_mem_append, List.forall_mem_cons] at hus
    obtain ⟨hnil, hbound⟩ := Bool.and_eq_true_iff.mp hplain
    obtain ⟨ps, hps⟩ := ih hus.2.2.2 hbound
    cases annotations with
    | cons => cases hnil
    | nil =>
      have hspelled := @Spells.wildcardSuper .nil bound extent ps [] (fixed .question)
        (fixed .superKw) Markers.nil.annotates rfl rfl hps.spelled
      exact ⟨_, hps.bounded (k := .superKw) (by decide) text_super hspelled⟩
  | @primitive _ _ _ w hprimitive _ =>
    rw [(hus w List.mem_cons_self).keyword_text (isKeyword_of_isPrimitive hprimitive)]
    exact prints_primitive hprimitive
  | @classType _ _ _ opened _ _ _ _ _ _ _ hargs _ ih ih' =>
    simp only [List.forall_mem_append] at hus
    obtain ⟨hparts, -⟩ := Bool.and_eq_true_iff.mp hplain
    obtain ⟨houter, htrees⟩ := Bool.and_eq_true_iff.mp hparts
    obtain ⟨ps, hps⟩ := ih hus.1 houter
    refine prints_classType hps (ih' hus.2.1 htrees) fun h => ?_
    cases opened with
    | true => exact h
    | false => exact hargs.isNil_of_closed rfl
  | @type _ _ _ _ annotations _ _ _ _ _ _ _ ih =>
    obtain ⟨-, hus⟩ := List.forall_mem_append.mp hus
    cases annotations with
    | cons => cases (Bool.and_eq_true_iff.mp hplain).2
    | nil =>
      obtain ⟨ps, hps⟩ := ih hus hplain
      exact ⟨ps, .type Markers.nil.annotates hps.spelled, hps.plain, hps.opening, hps.cut⟩

/-- The lexer gives names and reserved words their texts; a reserved word in front of certain
characters it takes for a name. -/
theorem Session.start_named {settings : Settings} {source : Source}
    (hfree : ∀ t ∈ (lex settings.keepDocs source.text).filterMap Item.token?,
      t.kind = .identifier → isReserved t.text = false) :
    ∀ w ∈ (start settings source).state.pieces, w.Named := by
  intro w hw
  rcases mem_pieces hw with hw | hk | hk
  · have hword := hw
    rw [start_words, words_of_tokens] at hword
    obtain ⟨t, ht, rfl⟩ := List.mem_map.mp hword
    refine ⟨fun hk => ⟨(start_proper _ hw).name_text (by rw [hk]; rfl), hfree t ht hk⟩,
      fun hk => ?_⟩
    obtain ⟨item, hitem, htoken⟩ := List.mem_filterMap.mp ht
    cases item with
    | flawed => cases htoken
    | token other =>
      cases htoken
      obtain ⟨c, cs, n, hpiece, htext⟩ := Lexer.piece_of_mem hitem
      exact htext.trans (piece_keyword hpiece hk)
  all_goals
    refine ⟨fun h => ?_, fun h => ?_⟩
    · rw [hk] at h
      cases h
    · rw [hk] at h
      exact absurd h (by decide)

/-- A text whose words spell a type is taken for one. -/
theorem Fragment.typeUse_of_spelled {settings : Settings} {text : String} {words : List Word}
    {type : Tree .type} (hlexes : LexesTo settings.keepDocs text words)
    (hspelled : Spells (.type type) (pieces words)) (hplain : ∀ w ∈ pieces words, w.1 ≠ .lparen) :
    ∃ parsed read, typeUse settings text = .ok parsed ∧ parsed.diagnostics = [] ∧
      parsed.tree = .typeExpr read ∧ read.erase = type.erase := by
  obtain ⟨read, htree, hread, hlog⟩ := @Session.typeUse_of_spelled settings
    (.ofText Source.unnamed text) words type hlexes hspelled hplain
  have hleading : Leading.ofText text = none := by
    refine @Session.typeUse_opens settings (.ofText Source.unnamed text) fun d hd => ?_
    rw [hlog] at hd
    cases hd
  have hparsed := (parsed_of_leading hleading settings).2
  rw [parse_eq] at hparsed
  refine ⟨_, read, hparsed, ?_, ?_, hread⟩
  · dsimp only
    exact hlog
  · dsimp only
    exact htree

/-- A type without annotations that was read without an error is printed as a text that is taken for
a type and read as the same type, without a report. A reserved word that the lexer took for a name
must not be among its names. -/
theorem Fragment.typeUse_reads_back (settings chosen : Settings) (source : Source)
    {type : Tree .type}
    (hclean : Diagnostic.Clean (Session.start settings source).typeUse.2.diagnostics)
    (htype : (Session.start settings source).typeUse.1 = .typeExpr type)
    (hfree : ∀ t ∈ (lex settings.keepDocs source.text).filterMap Item.token?,
      t.kind = .identifier → isReserved t.text = false) (hplain : type.isUnannotated = true) :
    ∃ parsed read, typeUse chosen (type.print 0) = .ok parsed ∧ parsed.diagnostics = [] ∧
      parsed.tree = .typeExpr read ∧ read.erase = type.erase := by
  obtain ⟨other, hother, hspelled⟩ := Session.typeUse_spelled hclean
  obtain rfl : other = type := by
    rw [htype] at hother
    cases hother
    rfl
  obtain ⟨ps, hps⟩ : ∃ ps, (TypePart.type other).Prints ps :=
    hspelled.isPrinted (Session.start_named hfree) hplain
  obtain ⟨words, hcuts, rfl⟩ := hps.cut.cuts
  exact typeUse_of_spelled hcuts.lexesTo hps.spelled hps.plain

end JavaSyntax
