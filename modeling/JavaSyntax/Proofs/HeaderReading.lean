import JavaSyntax.Proofs.HeaderPrinting
import JavaSyntax.Proofs.Succeeding

/-!
Headers are read back. The words that are reserved only in modules may be names as well, so each
rule has to tell them apart by their place: behind `requires` a word is a modifier unless the name
ends with it, and in front of a file `open` and `module` start a module where a name follows.
-/

namespace JavaSyntax

open Grammar Rule

namespace State

variable {s : State} {w : Word} {rest : List Word} {word : String}

theorem nextWord_eq (h : s.words = w :: rest) :
    Lookahead.nextWord word s.ahead = (w.1 == .identifier && w.2 == word) := by
  obtain ⟨a, more, hahead, rfl, -⟩ := ahead_of_words h
  rw [hahead]
  rfl

end State

section Names

variable {setting : Setting} {inLabels : Bool} {s : State} {ws rest : List Word} {name : String}

theorem Named.reads (h : Named name ws) (hs : s.words = ws ++ rest) (hrest : EndsName rest) :
    qualifiedName.Ensures setting (evaluates setting) inLabels s
      (Succeeds fun value t => value = name ∧ s.Past t rest) := by
  obtain ⟨names, hdotted, rfl⟩ := h.dotted
  obtain ⟨t, hpast, hcomes⟩ := qualifiedName_reads setting inLabels hdotted hs hrest
  exact hcomes.succeeds ⟨rfl, hpast⟩

theorem endsName_cons {w : Word} (hw : w.1 ≠ .dot) : EndsName (w :: rest) :=
  endsName_of_heads (heads_cons (bne_iff_ne.mpr hw))

theorem Commas.reads {names : List String} (h : Commas names ws)
    (hs : s.words = ws ++ fixed .semicolon :: rest) :
    Grammar.names.Ensures setting (evaluates setting) inLabels s
      (Succeeds fun value t => value = names ∧ s.Past t (fixed .semicolon :: rest)) := by
  induction h generalizing s with
  | one hnamed =>
    unfold Grammar.names
    refine succeeds_bind (hnamed.reads hs (endsName_cons (by decide))) ?_
    rintro _ t ⟨rfl, hpast⟩
    refine ensures_accept_no ?_ ⟨rfl, hpast⟩
    rw [hpast.words]
    exact heads_cons rfl
  | more hnamed _ ih =>
    rw [List.append_assoc] at hs
    unfold Grammar.names
    refine succeeds_bind (hnamed.reads hs (endsName_cons (by decide))) ?_
    rintro _ t ⟨rfl, hpast⟩
    have hone := State.past_one hpast.words
    refine ensures_accept_yes hpast.words rfl ?_
    refine succeeds_bind (@succeeds_call setting inLabels _ _ _ .names (ih hone.words)) ?_
    rintro _ u ⟨rfl, hpast'⟩
    exact ⟨rfl, hpast.trans (hone.trans hpast')⟩

theorem SpellsTargets.reads {names : List String} (h : SpellsTargets names ws)
    (hs : s.words = ws ++ fixed .semicolon :: rest) :
    targets.Ensures setting (evaluates setting) inLabels s
      (Succeeds fun value t => value = names ∧ s.Past t (fixed .semicolon :: rest)) := by
  unfold targets
  rw [ensures_ahead_bind]
  cases h with
  | none =>
    rw [if_neg (by simp [State.nextWord_eq hs, fixed])]
    exact ⟨rfl, State.past_self hs⟩
  | some hlisted =>
    have hone := State.past_one hs
    rw [if_pos (by simp [State.nextWord_eq hs, restricted]), ensures_advance_bind]
    exact succeeds_mono (@succeeds_call setting inLabels _ _ _ .names (hlisted.reads hone.words))
      fun value t hr => ⟨hr.1, hone.trans hr.2⟩

end Names

/-! Directives. -/

namespace Lookahead

/-- A word in front of a dot or a semicolon is no modifier of `requires` but a name. -/
theorem requireWords_name {a b : Symbol} {more : List Symbol} (ha : a.kind = .identifier)
    (hb : b.kind = .semicolon ∨ b.kind = .dot) :
    requireWords (a :: b :: more) = (false, false, 0) := by
  have hends : nextOneOf [.semicolon, .dot] (b :: more) = true := by
    rcases hb with hb | hb <;> simp [nextOneOf, hb]
  rw [requireWords, if_neg (by simp [hends]), if_neg (by simp [ha])]

theorem requireWords_static {a : Symbol} {more : List Symbol} (ha : a.kind = .staticKw) :
    requireWords (a :: more) =
      ((requireWords more).1, true, (requireWords more).2.2 + 1) := by
  rw [requireWords, if_neg (by simp [Symbol.isWord, ha]), if_pos ha]

theorem requireWords_transitive {a : Symbol} {more : List Symbol}
    (ha : a.isWord "transitive" = true) (hmore : nextOneOf [.semicolon, .dot] more = false) :
    requireWords (a :: more) =
      (true, (requireWords more).2.1, (requireWords more).2.2 + 1) := by
  rw [requireWords, if_pos (by simp [ha, hmore])]

end Lookahead

/-- Behind the first word of a name goes on the name, or it ends. -/
theorem Dotted.second {names : List String} {ws rest : List Word} (h : Dotted names ws) {w : Word}
    (hw : w.1 = .semicolon) :
    ∃ first next more, ws ++ w :: rest = first :: next :: more ∧ first.1 = .identifier ∧
      (next.1 = .semicolon ∨ next.1 = .dot) := by
  cases h with
  | one hname => exact ⟨_, w, _, rfl, hname, .inl hw⟩
  | more hname hdot => exact ⟨_, _, _, rfl, hname, .inr hdot⟩

/-- The modifiers of `requires` are those in front of the name, whatever the name is. -/
theorem Named.requireWords {name : String} {ws rest : List Word} (h : Named name ws)
    {isTransitive isStatic : Bool} {modifiers : List Word}
    (hmodifiers : modifiers = (if isTransitive then [restricted "transitive"] else []) ++
      (if isStatic then [fixed .staticKw] else []))
    {ts : List Symbol} (hts : ts.map Symbol.word = modifiers ++ (ws ++ fixed .semicolon :: rest)) :
    Lookahead.requireWords ts = (isTransitive, isStatic, modifiers.length) := by
  obtain ⟨names, hdotted, -⟩ := h.dotted
  obtain ⟨first, next, more, hwords, hfirst, hnext⟩ :=
    @Dotted.second names ws rest hdotted (fixed .semicolon) rfl
  have hname {us : List Symbol} (hus : us.map Symbol.word = first :: next :: more) :
      Lookahead.requireWords us = (false, false, 0) := by
    obtain ⟨a, _, rfl, rfl, hbehind⟩ := List.map_eq_cons_iff.mp hus
    obtain ⟨b, _, rfl, rfl, -⟩ := List.map_eq_cons_iff.mp hbehind
    exact Lookahead.requireWords_name hfirst hnext
  have hstatic {us : List Symbol} (hus : us.map Symbol.word =
      (if isStatic then [fixed .staticKw] else []) ++ first :: next :: more) :
      Lookahead.requireWords us = (false, isStatic, if isStatic then 1 else 0) ∧
        Lookahead.nextOneOf [.semicolon, .dot] us = false := by
    cases isStatic with
    | false =>
      obtain ⟨a, _, rfl, rfl, -⟩ := List.map_eq_cons_iff.mp hus
      refine ⟨hname hus, ?_⟩
      rw [Lookahead.nextOneOf, show a.kind = .identifier from hfirst]
      rfl
    | true =>
      obtain ⟨a, us, rfl, ha, hbehind⟩ := List.map_eq_cons_iff.mp hus
      have hkind : a.kind = .staticKw := congrArg Prod.fst ha
      rw [Lookahead.requireWords_static hkind, hname hbehind, Lookahead.nextOneOf, hkind]
      exact ⟨rfl, rfl⟩
  subst hmodifiers
  rw [hwords, List.append_assoc] at hts
  cases isTransitive with
  | false =>
    rw [(hstatic hts).1]
    cases isStatic <;> rfl
  | true =>
    obtain ⟨a, us, rfl, ha, hbehind⟩ := List.map_eq_cons_iff.mp hts
    have hword : a.isWord "transitive" = true := by
      simp [Symbol.isWord, show a.kind = .identifier from congrArg Prod.fst ha,
        show a.text = "transitive" from congrArg Prod.snd ha]
    obtain ⟨hmore, hnone⟩ := hstatic hbehind
    rw [Lookahead.requireWords_transitive hword hnone, hmore]
    cases isStatic <;> rfl

section Directives

variable {setting : Setting} {inLabels : Bool} {s : State} {us vs ws rest : List Word}

/-- A clause that is a name and its end. -/
theorem Named.reads_ended {α : Type} {f : String → Extent → α} {start : Mark} {name : String}
    (h : Named name ws) (hs : s.words = ws ++ fixed .semicolon :: rest) :
    (do
      let name ← qualifiedName
      require .semicolon
      return f name (← since start)).Ensures setting (evaluates setting) inLabels s
      (Succeeds fun value t => (∃ extent, value = f name extent) ∧ s.Past t rest) := by
  refine succeeds_bind (h.reads hs (endsName_cons (by decide))) ?_
  rintro _ t ⟨rfl, hpast⟩
  refine ensures_require_yes hpast.words rfl ?_
  rw [ensures_since_bind]
  exact ⟨⟨_, rfl⟩, hpast.trans (State.past_one hpast.words)⟩

/-- A clause that is a package, the modules that it is open to, and its end. -/
theorem Named.reads_targets {f : String → List String → Extent → Directive} {start : Mark}
    {package : String} {names : List String} (h : Named package us)
    (hnames : SpellsTargets names vs)
    (hs : s.words = us ++ (vs ++ fixed .semicolon :: rest)) :
    (do
      let package ← qualifiedName
      let targets ← targets
      require .semicolon
      return f package targets (← since start)).Ensures setting (evaluates setting) inLabels s
      (Succeeds fun value t => (∃ extent, value = f package names extent) ∧ s.Past t rest) := by
  have hends : EndsName (vs ++ fixed .semicolon :: rest) := by
    cases hnames <;> exact endsName_cons (by decide)
  refine succeeds_bind (h.reads hs hends) ?_
  rintro _ t ⟨rfl, hpast⟩
  refine succeeds_bind (hnames.reads hpast.words) ?_
  rintro _ u ⟨rfl, hpast'⟩
  refine ensures_require_yes hpast'.words rfl ?_
  rw [ensures_since_bind]
  exact ⟨⟨_, rfl⟩, hpast.trans (hpast'.trans (State.past_one hpast'.words))⟩

theorem SpellsDirective.reads {d : Directive} (h : SpellsDirective d ws)
    (hs : s.words = ws ++ rest) :
    directive.Ensures setting (evaluates setting) inLabels s
      (Succeeds fun value t => value.erase = d.erase ∧ s.Past t rest) := by
  unfold directive
  rw [ensures_view_bind]
  simp only [State.view_ahead]
  cases h with
  | @requires isTransitive isStatic name _ ws hnamed =>
    have hfirst : s.words = restricted "requires" ::
        (((if isTransitive then [restricted "transitive"] else []) ++
          (if isStatic then [fixed .staticKw] else [])) ++ (ws ++ fixed .semicolon :: rest)) := by
      rw [hs]
      simp only [List.append_assoc, List.cons_append, List.nil_append]
    have hone := State.past_one hfirst
    have hmodifiers := State.past_advance _ hone.words
    rw [if_pos (by simp [State.nextWord_eq hfirst, restricted]), ensures_advance_bind,
      ensures_ahead_bind, hnamed.requireWords rfl hone.words]
    show (Grammar.advance _ >>= _).Ensures _ _ _ _ _
    rw [ensures_advance_bind]
    refine succeeds_mono
      (hnamed.reads_ended (f := Directive.requires isTransitive isStatic) hmodifiers.words) ?_
    rintro _ t ⟨⟨extent, rfl⟩, hpast⟩
    exact ⟨rfl, hone.trans (hmodifiers.trans hpast)⟩
  | exports hnamed hlisted =>
    simp only [List.append_assoc, List.cons_append, List.nil_append] at hs
    have hone := State.past_one hs
    simp only [State.nextWord_eq hs]
    rw [if_neg (by decide), if_pos (by decide), ensures_advance_bind]
    refine succeeds_mono (hnamed.reads_targets (f := Directive.exports) hlisted hone.words) ?_
    rintro _ t ⟨⟨extent, rfl⟩, hpast⟩
    exact ⟨rfl, hone.trans hpast⟩
  | opens hnamed hlisted =>
    simp only [List.append_assoc, List.cons_append, List.nil_append] at hs
    have hone := State.past_one hs
    simp only [State.nextWord_eq hs]
    rw [if_neg (by decide), if_neg (by decide), if_pos (by decide), ensures_advance_bind]
    refine succeeds_mono (hnamed.reads_targets (f := Directive.opens) hlisted hone.words) ?_
    rintro _ t ⟨⟨extent, rfl⟩, hpast⟩
    exact ⟨rfl, hone.trans hpast⟩
  | uses hnamed =>
    simp only [List.append_assoc, List.cons_append, List.nil_append] at hs
    have hone := State.past_one hs
    simp only [State.nextWord_eq hs]
    rw [if_neg (by decide), if_neg (by decide), if_neg (by decide), if_pos (by decide),
      ensures_advance_bind]
    refine succeeds_mono (hnamed.reads_ended (f := Directive.uses) hone.words) ?_
    rintro _ t ⟨⟨extent, rfl⟩, hpast⟩
    exact ⟨rfl, hone.trans hpast⟩
  | provides hnamed hlisted =>
    simp only [List.append_assoc, List.cons_append, List.nil_append] at hs
    have hone := State.past_one hs
    simp only [State.nextWord_eq hs]
    rw [if_neg (by decide), if_neg (by decide), if_neg (by decide), if_neg (by decide),
      if_pos (by decide), ensures_advance_bind]
    refine succeeds_bind (hnamed.reads hone.words (endsName_cons (by decide))) ?_
    rintro _ t ⟨rfl, hservice⟩
    have hwith := State.past_one hservice.words
    rw [ensures_view_bind]
    simp only [State.view_ahead, State.nextWord_eq hservice.words]
    rw [if_pos (by decide)]
    show (Grammar.advance 1 >>= _).Ensures _ _ _ _ _
    rw [ensures_advance_bind]
    refine succeeds_bind
      (@succeeds_call setting inLabels _ _ _ .names (hlisted.reads hwith.words)) ?_
    rintro _ u ⟨rfl, hpast⟩
    refine ensures_require_yes hpast.words rfl ?_
    rw [ensures_since_bind]
    exact ⟨rfl, hone.trans (hservice.trans (hwith.trans (hpast.trans
      (State.past_one hpast.words))))⟩

theorem SpellsDirective.starts {d : Directive} (h : SpellsDirective d ws) :
    ∃ word more, ws = restricted word :: more := by
  cases h with
  | requires | exports | opens | uses | provides => exact ⟨_, _, rfl⟩

/-- Directives up to a closing brace. -/
theorem directives_read {ds : List Directive} (h : Listing SpellsDirective ds ws)
    (hs : s.words = ws ++ fixed .rbrace :: rest) :
    directives.Ensures setting (evaluates setting) inLabels s (Succeeds fun values t =>
      values.map Directive.erase = ds.map Directive.erase ∧
        s.Past t (fixed .rbrace :: rest)) := by
  induction h generalizing s with
  | nil =>
    unfold directives
    rw [ensures_ahead_bind, if_pos (by simp [State.next_eq_true (k := .rbrace) hs rfl])]
    exact ⟨rfl, State.past_self hs⟩
  | @cons d ds us vs first _ ih =>
    rw [List.append_assoc] at hs
    have hgoes : (s.ahead.isEmpty || Lookahead.next [.rbrace] s.ahead) = false := by
      obtain ⟨word, more, rfl⟩ := first.starts
      obtain ⟨a, others, hahead, ha, -⟩ := State.ahead_of_words hs
      simp [hahead, Lookahead.next, show a.kind = .identifier from congrArg Prod.fst ha]
    unfold directives
    rw [ensures_ahead_bind, if_neg (by simp [hgoes])]
    refine succeeds_bind (first.reads hs) ?_
    rintro value t ⟨hvalue, hpast⟩
    refine succeeds_bind (@succeeds_call setting inLabels _ _ _ .directives (ih hpast.words)) ?_
    rintro values u ⟨hvalues, hpast'⟩
    refine ⟨?_, hpast.trans hpast'⟩
    rw [List.map_cons, List.map_cons, hvalue, hvalues]

end Directives

/-! Items. -/

section Items

variable {setting : Setting} {inLabels : Bool} {s : State} {us vs ws rest : List Word}

theorem Named.heads {name : String} {k : Kind} (h : Named name ws) (hk : k ≠ .identifier) :
    Heads (· != k) (ws ++ rest) := by
  obtain ⟨names, hdotted, -⟩ := h.dotted
  obtain ⟨w, more, rfl, hw⟩ := hdotted.opens
  exact heads_cons (bne_iff_ne.mpr (hw ▸ hk.symm))

/-- Without modifiers a clause starts at its first word. -/
theorem ensures_clauseStart_none {β : Type} {f : Mark → Rule β} {start : Mark}
    {doc : Option Mark} {Q : Except SyntaxError β → State → Prop}
    (hf : (f (s.view inLabels).mark).Ensures setting (evaluates setting) inLabels s Q) :
    (clauseStart ⟨[], .nil, start, doc⟩ >>= f).Ensures setting (evaluates setting) inLabels s
      Q := by
  show (mark >>= f).Ensures _ _ _ _ _
  rw [ensures_mark_bind]
  exact hf

/-- A word that is there or not is taken if it is. -/
theorem ensures_accept_optional {β : Type} {f : Bool → Rule β} {k : Kind} {present : Bool}
    {Q : Except SyntaxError β → State → Prop}
    (hs : s.words = (if present then [fixed k] else []) ++ rest) (hrest : Heads (· != k) rest)
    (hf : ∀ t, s.Past t rest →
      (f present).Ensures setting (evaluates setting) inLabels t Q) :
    (accept k >>= f).Ensures setting (evaluates setting) inLabels s Q := by
  cases present with
  | false => exact ensures_accept_no (hs ▸ hrest) (hf s (State.past_self hs))
  | true => exact ensures_accept_yes hs rfl (hf _ (State.past_one hs))

theorem SpellsPackage.reads {p : PackageDecl} (h : SpellsPackage p ws) {start : Mark}
    {doc : Option Mark} (hs : s.words = ws ++ rest) :
    (packageDecl ⟨[], .nil, start, doc⟩).Ensures setting (evaluates setting) inLabels s
      (Succeeds fun value t => value.erase = p.erase ∧ s.Past t rest) := by
  cases h with
  | named hnamed =>
    simp only [List.append_assoc, List.cons_append, List.nil_append] at hs
    have hone := State.past_one hs
    unfold packageDecl
    refine ensures_clauseStart_none (ensures_expect_yes hs rfl ?_)
    refine succeeds_mono (hnamed.reads_ended (f := fun name extent =>
      (⟨.nil, name, extent⟩ : PackageDecl)) hone.words) ?_
    rintro _ t ⟨⟨extent, rfl⟩, hpast⟩
    exact ⟨rfl, hone.trans hpast⟩

theorem SpellsImport.reads {i : ImportDecl} (h : SpellsImport i ws)
    (hs : s.words = ws ++ rest) :
    importDecl.Ensures setting (evaluates setting) inLabels s
      (Succeeds fun value t => value.erase = i.erase ∧ s.Past t rest) := by
  unfold importDecl
  rw [ensures_mark_bind]
  cases h with
  | @named name isStatic _ ws hnamed =>
    simp only [List.append_assoc, List.cons_append, List.nil_append] at hs
    have hone := State.past_one hs
    refine ensures_expect_yes hs rfl ?_
    refine ensures_accept_optional hone.words (hnamed.heads (by decide)) fun t hstatic => ?_
    refine succeeds_bind (hnamed.reads hstatic.words (endsName_cons (by decide))) ?_
    rintro _ u ⟨rfl, hname⟩
    refine ensures_accept_no (hname.words ▸ heads_cons rfl) ?_
    refine ensures_require_yes hname.words rfl ?_
    rw [ensures_since_bind]
    exact ⟨rfl, hone.trans (hstatic.trans (hname.trans (State.past_one hname.words)))⟩
  | @wildcard name isStatic _ ws hnamed =>
    simp only [List.append_assoc, List.cons_append, List.nil_append] at hs
    have hone := State.past_one hs
    have hends : EndsName (fixed .dot :: fixed .star :: fixed .semicolon :: rest) := by
      rintro dot w more ⟨⟩ -
      decide
    refine ensures_expect_yes hs rfl ?_
    refine ensures_accept_optional hone.words (hnamed.heads (by decide)) fun t hstatic => ?_
    refine succeeds_bind (hnamed.reads hstatic.words hends) ?_
    rintro _ u ⟨rfl, hname⟩
    have hdot := State.past_one hname.words
    have hstar := State.past_one hdot.words
    refine ensures_accept_yes hname.words rfl ?_
    rw [if_pos rfl, ensures_check_bind, State.next_eq_true (k := .star) hdot.words rfl]
    show (Grammar.advance 1 >>= _).Ensures _ _ _ _ _
    rw [ensures_advance_bind]
    refine ensures_require_yes hstar.words rfl ?_
    rw [ensures_since_bind]
    exact ⟨rfl, hone.trans (hstatic.trans (hname.trans (hdot.trans (hstar.trans
      (State.past_one hstar.words)))))⟩

theorem SpellsModule.reads {m : ModuleDecl} (h : SpellsModule m ws) {start : Mark}
    {doc : Option Mark} (hs : s.words = ws ++ rest) :
    (moduleDecl ⟨[], .nil, start, doc⟩).Ensures setting (evaluates setting) inLabels s
      (Succeeds fun value t => value.erase = m.erase ∧ s.Past t rest) := by
  cases h with
  | @named name isOpen directives _ us vs hnamed hlisted =>
    have hwords : s.words =
        ((if isOpen then [restricted "open"] else []) ++ [restricted "module"]) ++
          (us ++ (fixed .lbrace :: (vs ++ fixed .rbrace :: rest))) := by
      rw [hs]
      simp only [List.append_assoc, List.cons_append, List.nil_append]
    have hopen : Lookahead.nextWord "open" s.ahead = isOpen := by
      cases isOpen with
      | false => exact State.nextWord_eq hwords
      | true => exact State.nextWord_eq hwords
    have hmodule : s.Past (s.advance (if isOpen then 2 else 1))
        (us ++ (fixed .lbrace :: (vs ++ fixed .rbrace :: rest))) := by
      cases isOpen with
      | false => exact State.past_advance _ hwords
      | true => exact State.past_advance _ hwords
    unfold moduleDecl
    refine ensures_clauseStart_none ?_
    rw [ensures_ahead_bind, hopen, ensures_advance_bind]
    refine succeeds_bind (hnamed.reads hmodule.words (endsName_cons (by decide))) ?_
    rintro _ t ⟨rfl, hname⟩
    have hbrace := State.past_one hname.words
    refine ensures_expect_yes hname.words rfl ?_
    refine succeeds_bind
      (@succeeds_call setting inLabels _ _ _ .directives (directives_read hlisted hbrace.words)) ?_
    rintro values u ⟨hvalues, hpast⟩
    refine ensures_require_yes hpast.words rfl ?_
    rw [ensures_since_bind]
    refine ⟨?_, hmodule.trans (hname.trans (hbrace.trans (hpast.trans
      (State.past_one hpast.words))))⟩
    show (⟨_, isOpen, _, values.map Directive.erase, _⟩ : ModuleDecl) = _
    rw [hvalues]
    rfl

theorem SpellsPackage.starts {p : PackageDecl} (h : SpellsPackage p ws) :
    ∃ more, ws = fixed .packageKw :: more := by
  cases h with
  | named => exact ⟨_, rfl⟩

theorem SpellsImport.starts {i : ImportDecl} (h : SpellsImport i ws) :
    ∃ more, ws = fixed .importKw :: more := by
  cases h with
  | named | wildcard => exact ⟨_, rfl⟩

theorem SpellsModule.starts {m : ModuleDecl} (h : SpellsModule m ws) :
    ∃ word more, word ∈ ["open", "module"] ∧ ws = restricted word :: more := by
  cases h with
  | @named _ isOpen =>
    cases isOpen with
    | false => exact ⟨"module", _, by decide, rfl⟩
    | true => exact ⟨"open", _, by decide, rfl⟩

theorem item_package {p : PackageDecl} (h : SpellsPackage p ws) (hs : s.words = ws ++ rest) :
    item.Ensures setting (evaluates setting) inLabels s (Succeeds fun value t =>
      (∃ decl : PackageDecl, value = .package decl ∧ decl.erase = p.erase) ∧ s.Past t rest) := by
  obtain ⟨more, rfl⟩ := h.starts
  have hwords : s.words = fixed .packageKw :: (more ++ rest) := hs
  have hother {k : Kind} (hk : k ≠ .packageKw) : Lookahead.next [k] s.ahead = false :=
    State.next_eq_false (hwords ▸ heads_cons (bne_iff_ne.mpr hk.symm))
  unfold item
  rw [ensures_view_bind, State.view_ahead, if_neg (by simp [hother]), if_neg (by simp [hother])]
  refine ensures_modifiers_other hwords (by decide) rfl (by decide) ?_
  rw [ensures_view_bind, State.view_ahead,
    if_pos (by simp [State.next_eq_true (k := .packageKw) hwords rfl])]
  exact succeeds_bind (h.reads hs) fun decl t ⟨hdecl, hpast⟩ => ⟨⟨decl, rfl, hdecl⟩, hpast⟩

theorem item_import {i : ImportDecl} (h : SpellsImport i ws) (hs : s.words = ws ++ rest) :
    item.Ensures setting (evaluates setting) inLabels s (Succeeds fun value t =>
      (∃ decl : ImportDecl, value = .import decl ∧ decl.erase = i.erase) ∧ s.Past t rest) := by
  obtain ⟨more, rfl⟩ := h.starts
  have hwords : s.words = fixed .importKw :: (more ++ rest) := hs
  have hsemicolon : Lookahead.next [.semicolon] s.ahead = false :=
    State.next_eq_false (hwords ▸ heads_cons rfl)
  unfold item
  rw [ensures_view_bind, State.view_ahead, if_neg (by simp [hsemicolon]),
    if_pos (State.next_eq_true (k := .importKw) hwords rfl)]
  exact succeeds_bind (h.reads hs) fun decl t ⟨hdecl, hpast⟩ => ⟨⟨decl, rfl, hdecl⟩, hpast⟩

/-- A module is told by a name behind its first words. -/
theorem isModule_of_words {isOpen : Bool} {w : Word} (hw : w.1 = .identifier)
    (hs : s.words =
      (if isOpen then [restricted "open"] else []) ++ restricted "module" :: w :: rest) :
    Lookahead.isModule s.ahead = true := by
  have hmodule {ts : List Symbol} (hts : ts.map Symbol.word = restricted "module" :: w :: rest) :
      Lookahead.nextWord "open" ts = false ∧ Lookahead.nextWord "module" ts = true ∧
        Lookahead.next [.identifier, .identifier] ts = true := by
    obtain ⟨a, _, rfl, ha, hmore⟩ := List.map_eq_cons_iff.mp hts
    obtain ⟨b, _, rfl, rfl, -⟩ := List.map_eq_cons_iff.mp hmore
    have hkind : a.kind = .identifier := congrArg Prod.fst ha
    have htext : a.text = "module" := congrArg Prod.snd ha
    simp [Lookahead.nextWord, Lookahead.next, Symbol.isWord, hkind, htext,
      show b.kind = .identifier from hw]
  unfold Lookahead.isModule
  cases isOpen with
  | false =>
    obtain ⟨hopen, hword, hname⟩ := hmodule hs
    simp [hopen, hword, hname]
  | true =>
    obtain ⟨a, more, hahead, ha, hmore⟩ := State.ahead_of_words hs
    obtain ⟨-, hword, hname⟩ := hmodule hmore
    have hopen : Lookahead.nextWord "open" s.ahead = true := by
      rw [State.nextWord_eq hs]
      decide
    rw [hopen, if_pos rfl, hahead]
    exact Bool.and_eq_true_iff.mpr ⟨hword, hname⟩

theorem item_module {m : ModuleDecl} (h : SpellsModule m ws) (hs : s.words = ws ++ rest) :
    item.Ensures setting (evaluates setting) inLabels s (Succeeds fun value t =>
      (∃ decl : ModuleDecl, value = .module decl ∧ decl.erase = m.erase) ∧ s.Past t rest) := by
  obtain ⟨word, more, hword, hopens⟩ := h.starts
  have hwords : s.words = restricted word :: (more ++ rest) := by rw [hs, hopens]; rfl
  have hplain : ∀ word ∈ ["open", "module"], startsModifier (restricted word) = false := by decide
  have hother {k : Kind} (hk : k ≠ .identifier) : Lookahead.next [k] s.ahead = false :=
    State.next_eq_false (hwords ▸ heads_cons (bne_iff_ne.mpr hk.symm))
  have hmodule : Lookahead.isModule s.ahead = true := by
    cases h with
    | named hnamed =>
      obtain ⟨names, hdotted, -⟩ := hnamed.dotted
      obtain ⟨w, others, rfl, hw⟩ := hdotted.opens
      simp only [List.append_assoc, List.cons_append, List.nil_append] at hs
      exact isModule_of_words hw hs
  unfold item
  rw [ensures_view_bind, State.view_ahead, if_neg (by simp [hother]), if_neg (by simp [hother])]
  refine ensures_modifiers_other hwords (show Kind.identifier ≠ .atSign by decide) rfl
    (hplain word hword) ?_
  rw [ensures_view_bind, State.view_ahead, if_neg (by simp [hother]), if_pos (by simp [hmodule])]
  exact succeeds_bind (h.reads hs) fun decl t ⟨hdecl, hpast⟩ => ⟨⟨decl, rfl, hdecl⟩, hpast⟩

variable {unit : CompilationUnit}

/-- What the items read so far and those to come make of the file. -/
theorem items_module {module : Option ModuleDecl} (h : Listing SpellsModule module.toList ws)
    (hunit : unit.module = none ∧ unit.forms = []) (hs : s.words = ws)
    (hrunning : s.budget.halted = false) :
    (items unit).Ensures setting (evaluates setting) inLabels s (Succeeds fun value t =>
      value.erase = { unit.erase with module := module.map ModuleDecl.erase } ∧ s.Past t []) := by
  obtain ⟨package, imports, _, _⟩ := unit
  obtain ⟨rfl, rfl⟩ := hunit
  cases module with
  | none =>
    cases h with
    | nil => exact items_end hs ⟨rfl, State.past_self hs⟩
  | some m =>
    cases h with
    | cons first more =>
      cases more with
      | nil =>
        have hwords : s.words ≠ [] := by
          obtain ⟨word, more, -, rfl⟩ := first.starts
          simp [hs]
        refine items_next hwords hrunning (item_module first hs) ?_
        rintro _ t ⟨⟨decl, rfl, hdecl⟩, hpast⟩
        refine succeeds_call (items_end hpast.words ⟨?_, hpast⟩)
        show (⟨_, _, some decl.erase, _⟩ : CompilationUnit) = _
        rw [hdecl]
        rfl

theorem items_imports {imports : List ImportDecl} {module : Option ModuleDecl}
    (h : Listing SpellsImport imports us) (hmodule : Listing SpellsModule module.toList vs)
    (hunit : unit.module = none ∧ unit.forms = []) (hs : s.words = us ++ vs)
    (hrunning : s.budget.halted = false) :
    (items unit).Ensures setting (evaluates setting) inLabels s (Succeeds fun value t =>
      value.erase = { unit.erase with
        imports := unit.erase.imports ++ imports.map ImportDecl.erase
        module := module.map ModuleDecl.erase } ∧ s.Past t []) := by
  induction h generalizing s unit with
  | nil =>
    rw [List.map_nil, List.append_nil]
    exact items_module hmodule hunit hs hrunning
  | @cons i imports _ _ first _ ih =>
    rw [List.append_assoc] at hs
    have hwords : s.words ≠ [] := by
      obtain ⟨more, rfl⟩ := first.starts
      simp [hs]
    refine items_next hwords hrunning (item_import first hs) ?_
    rintro _ t ⟨⟨decl, rfl, hdecl⟩, hpast⟩
    have hadd : addItem unit (.import decl) =
        pure { unit with imports := unit.imports ++ [decl] } := by
      obtain ⟨hnone, hnil⟩ := hunit
      simp [addItem, hnone, hnil]
    rw [hadd]
    refine succeeds_call (succeeds_mono (ih hunit hpast.words (hpast.budget ▸ hrunning)) ?_)
    rintro value u ⟨hvalue, hpast'⟩
    refine ⟨hvalue.trans ?_, hpast.trans hpast'⟩
    simp [CompilationUnit.erase, hdecl]

theorem SpellsHeader.reads {header : CompilationUnit} (h : SpellsHeader header ws)
    (hs : s.words = ws) (hrunning : s.budget.halted = false) :
    (items .empty).Ensures setting (evaluates setting) inLabels s (Succeeds fun value t =>
      value.erase = header.erase ∧ s.Past t []) := by
  cases h with
  | @clauses package imports module us vs ws hpackage himports hmodule =>
    cases package with
    | none =>
      cases hpackage with
      | nil => exact items_imports himports hmodule ⟨rfl, rfl⟩ hs hrunning
    | some p =>
      cases hpackage with
      | cons first more =>
        cases more with
        | nil =>
          rw [List.append_nil] at hs
          have hwords : s.words ≠ [] := by
            obtain ⟨more, rfl⟩ := first.starts
            simp [hs]
          refine items_next hwords hrunning (item_package first hs) ?_
          rintro _ t ⟨⟨decl, rfl, hdecl⟩, hpast⟩
          refine succeeds_call (succeeds_mono (items_imports himports hmodule ⟨rfl, rfl⟩ hpast.words
            (hpast.budget ▸ hrunning)) ?_)
          rintro value u ⟨hvalue, hpast'⟩
          refine ⟨hvalue.trans ?_, hpast.trans hpast'⟩
          simp [CompilationUnit.erase, CompilationUnit.empty, hdecl]

end Items

namespace Session

/-- A source whose words spell a header is read as it. -/
theorem unit_of_header {settings : Settings} {source : Source} {header : CompilationUnit}
    {ws : List Word} (h : SpellsHeader header ws)
    (hlexes : LexesTo settings.keepDocs source.text ws) :
    (start settings source).unit.2.diagnostics = [] ∧
      (start settings source).unit.1.erase = header.erase := by
  obtain ⟨hwords, hlog, hfresh⟩ := start_of_lexesTo hlexes
  obtain ⟨hunit, hend⟩ := @enter_of_succeeds _ (start settings source) (.items .empty) .empty _ rfl
    (h.reads hwords hfresh.1)
  exact ⟨hend.log.trans hlog, hunit⟩

/-- A header is printed and parsed again without a diagnostic, and comes back as it was but for the
extents of its parts. Its names may be words that are reserved in modules. -/
theorem unit_reads_back (settings : Settings) (file : String) (unit : CompilationUnit)
    (h : unit.IsHeader) :
    let session := start settings (.ofText file unit.print)
    session.unit.2.diagnostics = [] ∧ session.unit.1.erase = unit.erase := by
  obtain ⟨ws, hspells, hcuts⟩ := h.spells
  exact @unit_of_header settings (.ofText file unit.print) unit ws hspells hcuts.lexesTo

/-- An open module that is called by words of its own and names others so. -/
theorem unit_reads_back_words :
    let unit : CompilationUnit := {
      package := some ⟨.nil, "open.module", Tree.nowhere⟩
      imports := [⟨"requires.to", true, true, Tree.nowhere⟩, ⟨"with", false, false, Tree.nowhere⟩]
      module := some ⟨.nil, true, "open.transitive", [
        .requires true true "transitive" Tree.nowhere,
        .requires false false "transitive.with" Tree.nowhere,
        .exports "to" ["to", "with"] Tree.nowhere,
        .uses "with" Tree.nowhere,
        .provides "with" ["with", "to"] Tree.nowhere], Tree.nowhere⟩
      forms := [] }
    unit.IsHeader ∧
      let session := start .standard (.ofText "module-info.java" unit.print)
      session.unit.2.diagnostics = [] ∧ session.unit.1.erase = unit.erase := by
  intro unit
  have hto : IsDottedName "to" := ⟨["to"], by decide⟩
  have hwith : IsDottedName "with" := ⟨["with"], by decide⟩
  have hunit : unit.IsHeader := {
    package := by
      rintro _ ⟨⟩
      exact ⟨rfl, ["open", "module"], by decide⟩
    imports := by
      refine List.forall_mem_cons.mpr ⟨?_, List.forall_mem_singleton.mpr hwith⟩
      exact ⟨["requires", "to"], by decide⟩
    module := by
      rintro _ ⟨⟩
      exact ⟨rfl, ["open", "transitive"], by decide⟩
    directives := by
      rintro _ ⟨⟩
      simp only [List.forall_mem_cons]
      refine ⟨⟨["transitive"], ?_⟩, ⟨["transitive", "with"], ?_⟩, ⟨hto, ?_⟩, hwith,
        ⟨hwith, List.cons_ne_nil _ _, ?_⟩, List.forall_mem_nil _⟩
      · decide
      · decide
      · exact List.forall_mem_cons.mpr ⟨hto, List.forall_mem_singleton.mpr hwith⟩
      · exact List.forall_mem_cons.mpr ⟨hwith, List.forall_mem_singleton.mpr hto⟩
    forms := rfl }
  have hback := unit_reads_back .standard "module-info.java" unit hunit
  exact ⟨hunit, hback⟩

end Session

end JavaSyntax
