import JavaSyntax.Proofs.Following
import JavaSyntax.Proofs.Places

/-!
Which declarations are warned about. `Tree.headings` lists the declarations of a tree whose
documentation the parser looks into, in the order of their names, and `Setting.Warns` ties such a
list to the diagnostics it gives rise to. A rule gathers headings as it goes along, as
`Rule.Gathers` tells step by step, and its result keeps them in their order. So whatever the rule,
the log of a run that goes well grows by the warnings about the declarations that were read.
-/

namespace JavaSyntax

open Grammar

/-- A declaration whose documentation is looked into: the token that it came with and what the
declaration is called. -/
structure Heading where
  doc : Option Mark
  name : String

/-- The heading of a declaration, unless an annotation calls it deprecated already. -/
def heading (annotations : Tree (.list .annot)) (doc : Option Mark) (name : String) :
    List Heading :=
  if annotations.toList.any Tree.isDeprecated then [] else [⟨doc, name⟩]

namespace Tree

/-- The annotations in front of a type. -/
def annotations : Tree .type → Tree (.list .annot)
  | .type _ _ _ _ annotations _ _ => annotations

/-- The first name of a variable declaration. -/
def firstName : Tree (.list .declarator) → String
  | .cons (.declarator name _ _ _) _ => name
  | .nil => ""

/-- The headings in a tree, in the order of the names. A field goes by its first name; a compact
constructor has no heading, nor has a local variable. -/
def headings : {c : Category} → Tree c → List Heading
  | _, .nil => []
  | _, .cons head tail => head.headings ++ tail.headings
  | _, .none => []
  | _, .some value => value.headings
  | _, .type outer _ args _ annotations _ _ =>
    annotations.headings ++ outer.headings ++ args.headings
  | _, .typeArg type => type.headings
  | _, .wildcard annotations _ => annotations.headings
  | _, .wildcardExtends annotations bound _ => annotations.headings ++ bound.headings
  | _, .wildcardSuper annotations bound _ => annotations.headings ++ bound.headings
  | _, .annot _ elements _ => elements.headings
  | _, .element _ value => value.headings
  | _, .typeParam annotations _ bounds _ => annotations.headings ++ bounds.headings
  | _, .param _ annotations type _ _ _ => annotations.headings ++ type.headings
  | _, .declarator _ _ init _ => init.headings
  | _, .varDecl _ annotations type names _ =>
    annotations.headings ++ type.headings ++ names.headings
  | _, .arrayInit elements _ => elements.headings
  | _, .literal _ _ => []
  | _, .ident _ _ => []
  | _, .binary left _ right _ => left.headings ++ right.headings
  | _, .unary _ operand _ => operand.headings
  | _, .assign target _ value _ => target.headings ++ value.headings
  | _, .call target typeArgs _ arguments _ =>
    target.headings ++ typeArgs.headings ++ arguments.headings
  | _, .select target _ _ => target.headings
  | _, .index array index _ => array.headings ++ index.headings
  | _, .cast type bounds operand _ => type.headings ++ bounds.headings ++ operand.headings
  | _, .instanceOf operand type _ _ => operand.headings ++ type.headings
  | _, .conditional condition yes no _ => condition.headings ++ yes.headings ++ no.headings
  | _, .newObject outer type arguments body _ =>
    outer.headings ++ type.headings ++ arguments.headings ++ body.headings
  | _, .newArray type sizes _ init _ => type.headings ++ sizes.headings ++ init.headings
  | _, .paren inner _ => inner.headings
  | _, .arrayValue init => init.headings
  | _, .lambda params body _ => params.headings ++ body.headings
  | _, .methodRef target typeArgs _ _ => target.headings ++ typeArgs.headings
  | _, .switchExpr selector cases _ => selector.headings ++ cases.headings
  | _, .annotationValue annot => annot.headings
  | _, .typeExpr type => type.headings
  | _, .erroneousExpr _ => []
  | _, .lambdaParam _ type _ _ => type.headings
  | _, .exprBody value => value.headings
  | _, .blockBody block => block.headings
  | _, .block statements _ => statements.headings
  | _, .switchCase labels _ statements _ => labels.headings ++ statements.headings
  | _, .standalone expr _ => expr.headings
  | _, .forVariables decl => decl.headings
  | _, .forExprs exprs => exprs.headings
  | _, .resourceVariable _ type _ init _ => type.headings ++ init.headings
  | _, .resourceExpr expr _ => expr.headings
  | _, .catchClause param alternatives block _ =>
    param.headings ++ alternatives.headings ++ block.headings
  | _, .exprStmt expr => expr.headings
  | _, .localVariables decl => decl.headings
  | _, .localType decl => decl.headings
  | _, .ifStmt condition yes no _ => condition.headings ++ yes.headings ++ no.headings
  | _, .whileStmt condition body _ => condition.headings ++ body.headings
  | _, .doStmt body condition _ => body.headings ++ condition.headings
  | _, .forStmt init condition update body _ =>
    init.headings ++ condition.headings ++ update.headings ++ body.headings
  | _, .forEachStmt param iterable body _ =>
    param.headings ++ iterable.headings ++ body.headings
  | _, .switchStmt selector cases _ => selector.headings ++ cases.headings
  | _, .returnStmt value _ => value.headings
  | _, .breakStmt _ _ => []
  | _, .continueStmt _ _ => []
  | _, .tryStmt resources body catches final _ =>
    resources.headings ++ body.headings ++ catches.headings ++ final.headings
  | _, .throwStmt value _ => value.headings
  | _, .assertStmt condition message _ => condition.headings ++ message.headings
  | _, .synchronizedStmt lock body _ => lock.headings ++ body.headings
  | _, .labeledStmt _ body _ => body.headings
  | _, .yieldStmt value _ => value.headings
  | _, .blockStmt block => block.headings
  | _, .emptyStmt _ => []
  | _, .erroneousStmt _ => []
  | _, .enumConstant annotations _ arguments body _ =>
    annotations.headings ++ arguments.headings ++ body.headings
  | _, .classForm params parent interfaces permits =>
    params.headings ++ parent.headings ++ interfaces.headings ++ permits.headings
  | _, .interfaceForm params parents permits =>
    params.headings ++ parents.headings ++ permits.headings
  | _, .enumForm interfaces constants => interfaces.headings ++ constants.headings
  | _, .recordForm params components interfaces =>
    params.headings ++ components.headings ++ interfaces.headings
  | _, .annotationForm => []
  | _, .typeDecl front annotations name form members _ =>
    annotations.headings ++ heading annotations front.doc name ++ form.headings ++
      members.headings
  | _, .field (.varDecl front annotations type names _) =>
    annotations.headings ++ type.headings ++ heading annotations front.doc names.firstName ++
      names.headings
  | _, .method front annotations typeParams result name params throws body default _ =>
    annotations.headings ++ typeParams.headings ++ result.headings ++
      heading annotations front.doc name ++ params.headings ++ throws.headings ++
      default.headings ++ body.headings
  | _, .constructor front annotations typeParams name params throws body compact _ =>
    annotations.headings ++ typeParams.headings ++
      (if compact then [] else heading annotations front.doc name) ++ params.headings ++
      throws.headings ++ body.headings
  | _, .initBlock _ body _ => body.headings
  | _, .memberType decl => decl.headings
  | _, .erroneousMember _ => []

@[simp] theorem headings_append {c : Category} (front rest : Tree (.list c)) :
    (front.append rest).headings = front.headings ++ rest.headings := by
  cases front with
  | nil => rfl
  | cons head tail =>
    calc
      (Tree.cons head (tail.append rest)).headings
        = head.headings ++ (tail.append rest).headings := rfl
      _ = head.headings ++ (tail.headings ++ rest.headings) := by rw [headings_append tail rest]
      _ = head.headings ++ tail.headings ++ rest.headings := (List.append_assoc ..).symm

@[simp] theorem headings_addDims (n : Nat) (type : Tree .type) :
    (type.addDims n).headings = type.headings := by
  cases type
  rfl

end Tree

/-- What tells the headings in it. -/
class Headed (α : Type) where
  headings : α → List Heading

namespace Headed

instance {c : Category} : Headed (Tree c) := ⟨Tree.headings⟩

instance {α β : Type} [Headed α] [Headed β] : Headed (α × β) :=
  ⟨fun value => headings value.1 ++ headings value.2⟩

instance : Headed (List Modifier) := ⟨fun _ => []⟩

instance : Headed (List String) := ⟨fun _ => []⟩

instance : Headed (List Directive) := ⟨fun _ => []⟩

instance : Headed Modifiers := ⟨fun mods => headings mods.annotations⟩

instance : Headed PackageDecl := ⟨fun decl => headings decl.annotations⟩

instance : Headed ModuleDecl := ⟨fun decl => headings decl.annotations⟩

instance : Headed TopLevel where
  headings
    | .type decl => headings decl
    | .empty _ | .erroneous _ => []

instance : Headed UnitItem where
  headings
    | .package decl => headings decl
    | .import _ => []
    | .module decl => headings decl
    | .form form => headings form

instance : Headed CompilationUnit where
  headings unit :=
    (unit.package.map headings).getD [] ++ (unit.module.map headings).getD [] ++
      unit.forms.flatMap headings

end Headed

open Headed (headings)

/-! The warnings that belong to a list of headings. -/

/-- The place is that of a token which is this name. -/
def Layout.Names (layout : Layout) (place : Extent) (name : String) : Prop :=
  ∃ i token, layout.tokens[i]? = some token ∧ token.kind = .identifier ∧ token.text = name ∧
    place = ⟨.before i 0, .after i⟩

/-- A name that comes next stands at its token. -/
theorem Placed.names {layout : Layout} {s : State} (h : Placed layout s) {x : Symbol}
    {rest : List Symbol} (hahead : s.ahead = x :: rest) (hkind : x.kind = .identifier)
    (inLabels : Bool) : layout.Names (s.view inLabels).here x.text := by
  obtain ⟨token, htoken, hafter, htext⟩ := h.head x (by rw [hahead]; rfl)
  have htaken : s.taken = 0 := h.taken_of_startsWhole (by
    simp [Lookahead.startsWhole, hahead, hkind, isRemainder])
  rw [htaken, hkind] at hafter
  refine ⟨s.index, token, htoken, Option.some.inj hafter, htext htaken, ?_⟩
  simp only [View.here, State.view, hahead, List.isEmpty_cons, htaken, Bool.false_eq_true,
    if_false]

namespace Setting

/-- Whether a declaration with the documentation of this token is warned about. -/
def warnsAt (setting : Setting) (doc : Option Mark) : Bool :=
  setting.deprecation && State.saysDeprecated setting.layout doc

def warning (setting : Setting) (place : Extent) : Diagnostic :=
  ⟨.warning, .missingDeprecated, "deprecated item is not annotated with @Deprecated",
    setting.layout.span place, setting.layout.source.name⟩

/-- The diagnostics are the warnings about these headings: one for each whose documentation calls
it deprecated, in their order, each at the name. -/
def Warns (setting : Setting) (hs : List Heading) (ds : List Diagnostic) : Prop :=
  List.Forall₂ (fun h d => ∃ place, setting.layout.Names place h.name ∧ d = setting.warning place)
    (hs.filter fun h => setting.warnsAt h.doc) ds

namespace Warns

variable {setting : Setting} {hs ks : List Heading} {ds es : List Diagnostic}

theorem nil : setting.Warns [] [] :=
  List.Forall₂.nil

theorem append (h : setting.Warns hs ds) (h' : setting.Warns ks es) :
    setting.Warns (hs ++ ks) (ds ++ es) := by
  unfold Warns
  rw [List.filter_append]
  exact List.rel_append h h'

/-- What recording one declaration adds to the log. -/
theorem single {h : Heading} {place : Extent} (named : setting.layout.Names place h.name) :
    setting.Warns [h] (if setting.warnsAt h.doc then [setting.warning place] else []) := by
  unfold Warns
  rw [List.filter_singleton]
  cases setting.warnsAt h.doc with
  | true => exact List.Forall₂.cons ⟨place, named, rfl⟩ .nil
  | false => exact List.Forall₂.nil

end Warns

end Setting

/-! What nonterminals gather. -/

namespace Nonterminal

/-- How the result of a nonterminal tells its headings. -/
@[reducible]
def headed : {β : Type} → Nonterminal β → Headed β
  | _, .annot | _, .annotations _ | _, .namedElements | _, .elementValue | _, .elementValues
  | _, .type | _, .typeSegments _ _ _ _ | _, .typeArgs | _, .typeArgList | _, .typesAfter _
  | _, .typeParamList | _, .expr | _, .conditional | _, .binary _ | _, .binaryRest _ _ _
  | _, .unary | _, .selectors _ _ | _, .steps _ _ | _, .lambda | _, .exprList | _, .sizes
  | _, .arrayInit | _, .arrayElements | _, .lambdaParamList | _, .labels | _, .switchRest _
  | _, .switchCases _ | _, .switchCase _ | _, .stmt | _, .block | _, .statements _
  | _, .declarators _ _ | _, .standalones | _, .resources | _, .catches | _, .modifierRun
  | _, .typeDecl _ | _, .members _ | _, .member _ | _, .paramList | _, .enumConstants | _, .names
  | _, .directives | _, .item | _, .items _ | _, .wholeExpr | _, .wholeType => inferInstance

/-- The headings in what the nonterminal was called with, which its result goes on from. -/
def given : {β : Type} → Nonterminal β → List Heading
  | _, .typeSegments _ outer _ _ => headings outer
  | _, .binaryRest _ _ left => headings left
  | _, .selectors _ target => headings target
  | _, .steps _ operand => headings operand
  | _, .typeDecl mods => headings mods
  | _, .items unit => headings unit
  | _, _ => []

/-- What else is known of a result: the names of a variable declaration open with the one that was
read already, and a type gets its annotations later. -/
def Known : {β : Type} → Nonterminal β → β → Prop
  | _, .declarators name _ => fun names => names.firstName = name
  | _, .typeSegments _ _ _ _ => fun type => type.annotations = .nil
  | _, _ => fun _ => True

end Nonterminal

/-- The rule ends as wanted, with these headings gathered so far, if nothing goes wrong on the way.
Each result of a call adds its headings to what it was called with, and each check of a declaration
adds one. What was gathered may be dropped again. -/
def Rule.Gathers (layout : Layout) {α : Type} :
    Rule α → State → List Heading → (α → State → List Heading → Prop) → Prop
  | .done value, s, hs, Q => ∃ ks, ks.Sublist hs ∧ Q value s ks
  | .fail _, _, _, _ => True
  | .look rest, s, hs, Q =>
    ∀ inLabels, Placed layout s → (rest (s.view inLabels)).Gathers layout s hs Q
  | .advance n rest, s, hs, Q => rest.Gathers layout (s.advance n) hs Q
  | .splitAngle rest, s, hs, Q => rest.Gathers layout s.splitAngle hs Q
  | .report _ _, _, _, _ => True
  | .deprecation doc place rest, _, hs, Q =>
    ∃ name, layout.Names place name ∧ ∀ t, rest.Gathers layout t (hs ++ [⟨doc, name⟩]) Q
  | .call nonterminal _ rest, _, hs, Q =>
    (∃ front, (front ++ nonterminal.given).Sublist hs ∧ ∀ value t, nonterminal.Known value →
      (rest (.ok value)).Gathers layout t (front ++ nonterminal.headed.headings value) Q) ∧
      ∀ error, (rest (.error error)).IsFault

/-- How a run of a nonterminal ends in which nothing went wrong: of what was read on the way, the
result keeps some. -/
structure Gathered (setting : Setting) {β : Type} (nonterminal : Nonterminal β) (s : State)
    (value : β) (t : State) : Prop where
  known : nonterminal.Known value
  warns : ∃ read ds, (nonterminal.headed.headings value).Sublist (nonterminal.given ++ read) ∧
    setting.Warns read ds ∧ t.log = s.log ++ ds

section Runs

variable {setting : Setting} {inLabels : Bool}

/-- A check of a declaration logs a warning if there is one to log. -/
theorem State.deprecation_log {s : State} (hs : s.IsFresh) (doc : Option Mark) (place : Extent) :
    (s.deprecation setting doc place).log =
      s.log ++ if setting.warnsAt doc then [setting.warning place] else [] := by
  unfold State.deprecation Setting.warnsAt
  rw [hs.1, Bool.not_false, Bool.and_true]
  split
  · rfl
  · exact (List.append_nil _).symm

theorem exec_gathers {fuel : Nat}
    (hcalls : ∀ {β : Type} {nonterminal : Nonterminal β} {flag : Bool} {s t : State} {value : β},
      Placed setting.layout s → run setting fuel nonterminal flag s = some (.ok value, t) →
        t.IsFresh → Gathered setting nonterminal s value t)
    {α : Type} {rule : Rule α} {s t : State} {value : α} {hs : List Heading}
    {Q : α → State → List Heading → Prop} (hrule : rule.Gathers setting.layout s hs Q)
    (hplaced : Placed setting.layout s)
    (h : exec setting (run setting fuel) inLabels rule s = some (.ok value, t)) (ht : t.IsFresh) :
    ∃ read ds ks, ks.Sublist (hs ++ read) ∧ Q value t ks ∧ setting.Warns read ds ∧
      t.log = s.log ++ ds := by
  induction rule generalizing s hs with
  | done value =>
    cases h
    obtain ⟨ks, hks, hQ⟩ := hrule
    exact ⟨[], [], ks, (List.append_nil hs).symm ▸ hks, hQ, .nil, (List.append_nil _).symm⟩
  | fail error => cases h
  | look rest ih => exact ih _ (hrule inLabels hplaced) hplaced h
  | advance n rest ih =>
    obtain ⟨read, ds, ks, hks, hQ, hwarns, hlog⟩ := ih hrule (hplaced.advance n) h
    exact ⟨read, ds, ks, hks, hQ, hwarns, by rwa [State.advance_log] at hlog⟩
  | splitAngle rest ih =>
    obtain ⟨read, ds, ks, hks, hQ, hwarns, hlog⟩ := ih hrule hplaced.splitAngle h
    exact ⟨read, ds, ks, hks, hQ, hwarns, by rwa [State.splitAngle_log] at hlog⟩
  | report error rest ih =>
    have hfault : (Rule.report error rest).IsFault := trivial
    exact absurd ht (hfault.not_isFresh h)
  | deprecation doc place rest ih =>
    obtain ⟨name, hnamed, hrest⟩ := hrule
    have hfresh : s.IsFresh := exec_isFresh h ht
    obtain ⟨read, ds, ks, hks, hQ, hwarns, hlog⟩ :=
      ih (hrest _) (hplaced.deprecation doc place) h
    refine ⟨⟨doc, name⟩ :: read, _, ks, ?_, hQ, (Setting.Warns.single hnamed).append hwarns, ?_⟩
    · rwa [List.append_assoc] at hks
    · rw [hlog, State.deprecation_log hfresh, List.append_assoc]
  | call nonterminal asLabels rest ih =>
    obtain ⟨⟨front, hfront, hok⟩, herror⟩ := hrule
    simp only [exec] at h
    cases hcall : run setting fuel nonterminal (inLabels || asLabels) s with
    | none =>
      rw [hcall] at h
      cases h
    | some out =>
      obtain ⟨r, u⟩ := out
      rw [hcall] at h
      have hrest : exec setting (run setting fuel) inLabels (rest r) u = some (.ok value, t) := h
      have hu : u.IsFresh := exec_isFresh hrest ht
      have hplaced' : Placed setting.layout u :=
        run_keeps (Placed.kept setting setting.layout) fuel _ _ _ _ _ hcall hplaced
      cases r with
      | error error => exact absurd ht ((herror error).not_isFresh h)
      | ok result =>
        obtain ⟨hknown, read, ds, hread, hwarns, hlog⟩ := hcalls hplaced hcall hu
        obtain ⟨read', ds', ks, hks, hQ, hwarns', hlog'⟩ := ih _ (hok result u hknown) hplaced' h
        refine ⟨read ++ read', ds ++ ds', ks, ?_, hQ, hwarns.append hwarns', ?_⟩
        · calc
            ks.Sublist (front ++ nonterminal.headed.headings result ++ read') := hks
            List.Sublist _ (front ++ (nonterminal.given ++ read) ++ read') :=
              (hread.append_left front).append_right read'
            _ = front ++ nonterminal.given ++ (read ++ read') := by simp only [List.append_assoc]
            List.Sublist _ (hs ++ (read ++ read')) := hfront.append_right _
        · rw [hlog', hlog, List.append_assoc]

/-- What all runs gather, each rule on its own being enough. -/
theorem run_gathers
    (hrules : ∀ {β : Type} (nonterminal : Nonterminal β) (s : State),
      (rule nonterminal).Gathers setting.layout s nonterminal.given fun value _ hs =>
        nonterminal.Known value ∧ nonterminal.headed.headings value = hs)
    {fuel : Nat} {β : Type} {nonterminal : Nonterminal β} {flag : Bool} {s t : State} {value : β}
    (hplaced : Placed setting.layout s)
    (h : run setting fuel nonterminal flag s = some (.ok value, t)) (ht : t.IsFresh) :
    Gathered setting nonterminal s value t := by
  induction fuel generalizing β flag s t with
  | zero => cases h
  | succ fuel ih =>
    obtain ⟨read, ds, ks, hks, ⟨hknown, rfl⟩, hwarns, hlog⟩ :=
      exec_gathers ih (hrules nonterminal s) hplaced h ht
    exact ⟨hknown, read, ds, hks, hwarns, hlog⟩

end Runs

namespace Rule

/-- A rule that gathers just the headings of its result. -/
def Announces (layout : Layout) {α : Type} [Headed α] (rule : Rule α) : Prop :=
  ∀ s, rule.Gathers layout s [] fun value _ hs => headings value = hs

/-- A rule that gathers nothing. -/
def IsQuiet (layout : Layout) {α : Type} (rule : Rule α) : Prop :=
  ∀ s hs Q, (∀ value t, Q value t hs) → rule.Gathers layout s hs Q

end Rule

namespace Rule.Gathers

variable {layout : Layout} {α β : Type} {s : State} {hs : List Heading}
  {Q : β → State → List Heading → Prop}

theorem done {value : β} (h : Q value s hs) :
    (pure value : Rule β).Gathers layout s hs Q :=
  ⟨hs, .refl hs, h⟩

/-- What was gathered may be dropped. -/
theorem drop {rule : Rule β} {ks : List Heading} (hks : ks.Sublist hs)
    (h : rule.Gathers layout s ks Q) : rule.Gathers layout s hs Q := by
  induction rule generalizing s hs ks with
  | done value =>
    obtain ⟨ls, hls, hQ⟩ := h
    exact ⟨ls, hls.trans hks, hQ⟩
  | fail | report => trivial
  | look rest ih => exact fun inLabels hplaced => ih _ hks (h inLabels hplaced)
  | advance n rest ih => exact ih hks h
  | splitAngle rest ih => exact ih hks h
  | deprecation doc place rest ih =>
    obtain ⟨name, hnamed, hrest⟩ := h
    exact ⟨name, hnamed, fun t => ih (hks.append_right _) (hrest t)⟩
  | call nonterminal asLabels rest ih =>
    obtain ⟨⟨front, hfront, hrest⟩, herror⟩ := h
    exact ⟨⟨front, hfront.trans hks, hrest⟩, herror⟩

/-- What was gathered before a rule stays in front. -/
theorem mono {rule : Rule α} {P R : α → State → List Heading → Prop} (before : List Heading)
    (h : rule.Gathers layout s hs P)
    (hPR : ∀ value t more, P value t more → R value t (before ++ more)) :
    rule.Gathers layout s (before ++ hs) R := by
  induction rule generalizing s hs with
  | done value =>
    obtain ⟨ks, hks, hP⟩ := h
    exact ⟨before ++ ks, hks.append_left before, hPR _ _ _ hP⟩
  | fail | report => trivial
  | look rest ih => exact fun inLabels hplaced => ih _ (h inLabels hplaced)
  | advance n rest ih => exact ih h
  | splitAngle rest ih => exact ih h
  | deprecation doc place rest ih =>
    obtain ⟨name, hnamed, hrest⟩ := h
    refine ⟨name, hnamed, fun t => ?_⟩
    rw [List.append_assoc]
    exact ih (hrest t)
  | call nonterminal asLabels rest ih =>
    obtain ⟨⟨front, hfront, hrest⟩, herror⟩ := h
    refine ⟨⟨before ++ front, ?_, fun value t hknown => ?_⟩, herror⟩
    · rw [List.append_assoc]
      exact hfront.append_left before
    · rw [List.append_assoc]
      exact ih _ (hrest value t hknown)

theorem bind {rule : Rule α} {f : α → Rule β}
    (h : rule.Gathers layout s hs fun value t more => (f value).Gathers layout t more Q) :
    (rule >>= f).Gathers layout s hs Q := by
  induction rule generalizing s hs with
  | done value =>
    obtain ⟨ks, hks, hrest⟩ := h
    exact drop hks hrest
  | fail | report => trivial
  | look rest ih => exact fun inLabels hplaced => ih _ (h inLabels hplaced)
  | advance n rest ih => exact ih h
  | splitAngle rest ih => exact ih h
  | deprecation doc place rest ih =>
    obtain ⟨name, hnamed, hrest⟩ := h
    exact ⟨name, hnamed, fun t => ih (hrest t)⟩
  | call nonterminal asLabels rest ih =>
    obtain ⟨⟨front, hfront, hrest⟩, herror⟩ := h
    refine ⟨⟨front, hfront, fun value t hknown => ih _ (hrest value t hknown)⟩, fun error => ?_⟩
    exact (herror error).bind f

theorem weaken {rule : Rule α} {P R : α → State → List Heading → Prop}
    (h : rule.Gathers layout s hs P) (hPR : ∀ value t more, P value t more → R value t more) :
    rule.Gathers layout s hs R :=
  mono [] h hPR

/-- What was gathered up to here is in front of what a part adds. -/
theorem part_bind [Headed α] {rule : Rule α} {f : α → Rule β} (h : rule.Announces layout)
    (hf : ∀ value t, (f value).Gathers layout t (hs ++ headings value) Q) :
    (rule >>= f).Gathers layout s hs Q := by
  have hrule : rule.Gathers layout s (hs ++ []) fun value t more =>
      (f value).Gathers layout t more Q := by
    refine mono hs (h s) ?_
    rintro value t more rfl
    exact hf value t
  rw [List.append_nil] at hrule
  exact bind hrule

/-- What was gathered up to here went into the result. -/
theorem whole_bind [Headed α] {rule : Rule α} {f : α → Rule β}
    (h : rule.Gathers layout s hs fun value _ more => headings value = more)
    (hf : ∀ value t, (f value).Gathers layout t (headings value) Q) :
    (rule >>= f).Gathers layout s hs Q := by
  refine bind (weaken h ?_)
  rintro value t more rfl
  exact hf value t

theorem quiet_bind {rule : Rule α} {f : α → Rule β} (h : rule.IsQuiet layout)
    (hf : ∀ value t, (f value).Gathers layout t hs Q) : (rule >>= f).Gathers layout s hs Q :=
  bind (h s hs _ hf)

theorem ite {p : Prop} [Decidable p] {yes no : Rule β} (hyes : yes.Gathers layout s hs Q)
    (hno : no.Gathers layout s hs Q) : (if p then yes else no).Gathers layout s hs Q := by
  split
  · exact hyes
  · exact hno

/-- Two ways that go on alike. -/
theorem joined {p : Prop} [Decidable p] {yes no : Rule α} {f : α → Rule β}
    (h : ((if p then yes else no) >>= f).Gathers layout s hs Q) :
    (if p then yes >>= f else no >>= f).Gathers layout s hs Q := by
  split
  · rwa [if_pos ‹_›] at h
  · rwa [if_neg ‹_›] at h

/-- A step that may be left out. -/
theorem optional {p : Prop} [Decidable p] {step : Rule Unit} {f : Unit → Rule β}
    (h : step.IsQuiet layout) (hf : ∀ t, (f ()).Gathers layout t hs Q) :
    (if p then step >>= f else f ()).Gathers layout s hs Q := by
  split
  · exact bind (h s hs _ fun _ => hf)
  · exact hf s

theorem ite_of {p : Prop} [Decidable p] {yes no : Rule β} (hyes : p → yes.Gathers layout s hs Q)
    (hno : ¬p → no.Gathers layout s hs Q) : (if p then yes else no).Gathers layout s hs Q := by
  split
  · exact hyes ‹_›
  · exact hno ‹_›

/-- A call that adds to what was gathered. -/
theorem known_bind [Headed α] {nonterminal : Nonterminal α} {f : α → Rule β}
    (hgiven : nonterminal.given = []) (hresult : nonterminal.headed = ‹Headed α›)
    (hf : ∀ value t, nonterminal.Known value →
      (f value).Gathers layout t (hs ++ headings value) Q) :
    (Grammar.call nonterminal >>= f).Gathers layout s hs Q := by
  refine ⟨⟨hs, ?_, fun value t hknown => ?_⟩, fun _ => trivial⟩
  · rw [hgiven, List.append_nil]
  · rw [hresult]
    exact hf value t hknown

/-- A call that goes on from all that was gathered. -/
theorem call_known {nonterminal : Nonterminal β} [Headed β] (hgiven : nonterminal.given = hs)
    (hresult : nonterminal.headed = ‹Headed β›) :
    (Grammar.call nonterminal).Gathers layout s hs fun value _ more =>
      nonterminal.Known value ∧ headings value = more := by
  refine ⟨⟨[], hgiven ▸ .refl _, fun value t hknown => .done ⟨hknown, ?_⟩⟩, fun _ => trivial⟩
  rw [hresult]
  rfl

theorem call {nonterminal : Nonterminal β} [Headed β] (hgiven : nonterminal.given = hs)
    (hresult : nonterminal.headed = ‹Headed β›) :
    (Grammar.call nonterminal).Gathers layout s hs fun value _ more => headings value = more := by
  refine ⟨⟨[], hgiven ▸ .refl _, fun value t _ => .done ?_⟩, fun _ => trivial⟩
  rw [hresult]
  rfl

theorem since_bind {start : Mark} {f : Extent → Rule β}
    (hf : ∀ e t, (f e).Gathers layout t hs Q) : (since start >>= f).Gathers layout s hs Q :=
  fun _ _ => hf _ s

/-- A tree gets its extent at last. -/
theorem close [Headed β] {start : Mark} {tree : Extent → β} (h : ∀ e, headings (tree e) = hs) :
    (since start >>= fun e => pure (tree e)).Gathers layout s hs fun value _ ks =>
      headings value = ks :=
  since_bind fun e _ => .done (h e)

theorem view_bind {f : View → Rule β}
    (hf : ∀ inLabels, Placed layout s → (f (s.view inLabels)).Gathers layout s hs Q) :
    (view >>= f).Gathers layout s hs Q := hf

theorem ahead_bind {f : List Symbol → Rule β} (hf : (f s.ahead).Gathers layout s hs Q) :
    (ahead >>= f).Gathers layout s hs Q := fun _ _ => hf

/-- The next token is a name and is taken. -/
theorem takeName_bind {f : String → Rule β} {inLabels : Bool} (hplaced : Placed layout s)
    (hnext : Lookahead.next [.identifier] s.ahead = true)
    (hf : ∀ name t, layout.Names (s.view inLabels).here name → (f name).Gathers layout t hs Q) :
    (takeText >>= f).Gathers layout s hs Q := by
  obtain ⟨x, rest, hahead, hkind⟩ := SoFar.ahead_of_next hnext
  have htext : (s.ahead.head?.map Symbol.text).getD "" = x.text := by
    rw [hahead]
    rfl
  exact fun _ _ => hf _ _ (htext ▸ hplaced.names hahead hkind inLabels)

theorem name_bind {f : String → Rule β} {inLabels : Bool} (hplaced : Placed layout s)
    (hf : ∀ name t, layout.Names (s.view inLabels).here name → (f name).Gathers layout t hs Q) :
    (identifier >>= f).Gathers layout s hs Q := by
  unfold identifier
  rw [Rule.bind_assoc]
  apply view_bind
  intro _ _
  cases hnext : Lookahead.next [.identifier] (s.view _).ahead with
  | true => exact takeName_bind hplaced hnext hf
  | false => trivial

/-- The check of a declaration adds its heading. -/
theorem checkDeprecation_bind {f : Unit → Rule β} {mods : Modifiers} {place : Extent}
    {name : String} (hnamed : layout.Names place name)
    (hf : ∀ t, (f ()).Gathers layout t (hs ++ heading mods.annotations mods.doc name) Q) :
    (checkDeprecation mods place >>= f).Gathers layout s hs Q := by
  unfold checkDeprecation
  unfold heading at hf
  split
  · rename_i h
    have hrest := hf s
    rw [if_pos h, List.append_nil] at hrest
    exact hrest
  · rename_i h
    refine ⟨name, hnamed, fun t => ?_⟩
    have hrest := hf t
    rw [if_neg h] at hrest
    exact hrest

/-- What a part adds may be dropped at once. -/
theorem dropped_bind [Headed α] {rule : Rule α} {f : α → Rule β} (h : rule.Announces layout)
    (hf : ∀ value t, (f value).Gathers layout t hs Q) : (rule >>= f).Gathers layout s hs Q :=
  part_bind h fun value t => drop (List.sublist_append_left hs _) (hf value t)

theorem attempt_bind {nonterminal : Nonterminal α} [Headed α] {f : Except SyntaxError α → Rule β}
    (hgiven : nonterminal.given = []) (hresult : nonterminal.headed = ‹Headed α›)
    (hok : ∀ value t, (f (.ok value)).Gathers layout t (hs ++ headings value) Q)
    (herror : ∀ error, (f (.error error)).IsFault) :
    (attempt nonterminal >>= f).Gathers layout s hs Q := by
  refine ⟨⟨hs, ?_, fun value t _ => ?_⟩, herror⟩
  · rw [hgiven, List.append_nil]
  · rw [hresult]
    exact hok value t

end Rule.Gathers

namespace Rule

variable {layout : Layout} {α β : Type}

/-! Rules that gather nothing. -/

namespace IsQuiet

theorem pure (value : α) : (Pure.pure value : Rule α).IsQuiet layout :=
  fun s _ _ h => .done (h value s)

theorem raise {error : SyntaxError} : (Grammar.raise error : Rule α).IsQuiet layout :=
  fun _ _ _ _ => trivial

theorem report {error : SyntaxError} : (Grammar.report error).IsQuiet layout :=
  fun _ _ _ _ => trivial

theorem bind {rule : Rule α} {f : α → Rule β} (h : rule.IsQuiet layout)
    (hf : ∀ value, (f value).IsQuiet layout) : (rule >>= f).IsQuiet layout :=
  fun _ hs Q hQ => Gathers.quiet_bind h fun value t => hf value t hs Q hQ

theorem map {rule : Rule α} (h : rule.IsQuiet layout) (f : α → β) : (f <$> rule).IsQuiet layout :=
  bind h fun value => pure (f value)

theorem ite {p : Prop} [Decidable p] {yes no : Rule α} (hyes : yes.IsQuiet layout)
    (hno : no.IsQuiet layout) : (if p then yes else no).IsQuiet layout :=
  fun s hs Q hQ => Gathers.ite (hyes s hs Q hQ) (hno s hs Q hQ)

theorem look {f : View → α} : (view >>= fun v => Pure.pure (f v)).IsQuiet layout :=
  fun s _ _ h _ _ => .done (h _ s)

theorem advance (n : Nat) : (Grammar.advance n).IsQuiet layout :=
  fun s _ _ h => @Gathers.done layout _ (s.advance n) _ _ _ (h _ _)

theorem splitAngle : Grammar.splitAngle.IsQuiet layout :=
  fun s _ _ h => @Gathers.done layout _ s.splitAngle _ _ _ (h _ _)

theorem view : Grammar.view.IsQuiet layout :=
  fun s _ _ h _ _ => .done (h _ s)

theorem ahead : Grammar.ahead.IsQuiet layout := look

theorem mark : Grammar.mark.IsQuiet layout := look

theorem since (start : Mark) : (Grammar.since start).IsQuiet layout := look

theorem check (kind : Kind) : (Grammar.check kind).IsQuiet layout :=
  bind ahead fun _ => pure _

theorem startsLambda : Grammar.startsLambda.IsQuiet layout := look

theorem accept (kind : Kind) : (Grammar.accept kind).IsQuiet layout := by
  refine bind (check kind) fun found => ?_
  cases found with
  | true => exact bind (advance 1) fun _ => pure true
  | false => exact pure false

theorem expect (kind : Kind) : (Grammar.expect kind).IsQuiet layout :=
  bind view fun _ => ite (advance 1) raise

theorem require (kind : Kind) : (Grammar.require kind).IsQuiet layout :=
  bind view fun _ => ite (advance 1) report

theorem takeText : Grammar.takeText.IsQuiet layout :=
  bind ahead fun _ => bind (advance 1) fun _ => pure _

theorem identifier : Grammar.identifier.IsQuiet layout :=
  bind view fun _ => ite takeText raise

theorem qualifiedName : Grammar.qualifiedName.IsQuiet layout :=
  bind identifier fun _ => bind ahead fun _ => bind (advance _) fun _ => pure _

theorem dims : Grammar.dims.IsQuiet layout :=
  bind ahead fun _ => bind (advance _) fun _ => pure _

theorem absorbRest : Grammar.absorbRest.IsQuiet layout :=
  bind view fun _ => bind (advance _) fun _ => since _

theorem closeAngle : Grammar.closeAngle.IsQuiet layout :=
  bind view fun _ => ite (advance 1) (ite splitAngle raise)

end IsQuiet

/-! Parts of a tree. -/

namespace Announces

variable [Headed α] {c : Category}

/-- A call from which all headings come. -/
theorem call {nonterminal : Nonterminal α} (hgiven : nonterminal.given = [])
    (hresult : nonterminal.headed = ‹Headed α›) : (Grammar.call nonterminal).Announces layout :=
  fun _ => Gathers.call hgiven hresult

theorem callLabels {nonterminal : Nonterminal α} (hgiven : nonterminal.given = [])
    (hresult : nonterminal.headed = ‹Headed α›) :
    (Grammar.callLabels nonterminal).Announces layout := by
  refine fun s => ⟨⟨[], ?_, fun value t _ => .done ?_⟩, fun _ => trivial⟩
  · rw [hgiven]
    exact .refl []
  · rw [hresult]
    rfl

theorem ite {p : Prop} [Decidable p] {yes no : Rule α} (hyes : yes.Announces layout)
    (hno : no.Announces layout) : (if p then yes else no).Announces layout :=
  fun s => Gathers.ite (hyes s) (hno s)

theorem done {value : α} (h : headings value = []) : (Pure.pure value : Rule α).Announces layout :=
  fun _ => .done h

/-- A node with one part has the headings of the part. -/
theorem map [Headed β] {rule : Rule α} {f : α → β} (h : rule.Announces layout)
    (hf : ∀ value, headings (f value) = headings value) : (f <$> rule).Announces layout :=
  fun _ => Gathers.part_bind h fun value _ => .done (hf value)

theorem listIf {present : Bool} {rule : Rule (Tree (.list c))} (h : rule.Announces layout) :
    (Grammar.listIf present rule).Announces layout :=
  ite h (done rfl)

theorem optionIf {present : Bool} {rule : Rule (Tree c)} (h : rule.Announces layout) :
    (Grammar.optionIf present rule).Announces layout :=
  ite (map h fun _ => rfl) (done rfl)

/-- A list with separators between its elements. -/
theorem separated {rule : Rule (Tree c)} {nonterminal : Nonterminal (Tree (.list c))}
    (separator : Kind) (h : rule.Announces layout) (hgiven : nonterminal.given = [])
    (hresult : nonterminal.headed = (inferInstance : Headed (Tree (.list c)))) :
    (rule >>= fun first => accept separator >>= fun found =>
      Grammar.listIf found (Grammar.call nonterminal) >>= fun rest =>
        Pure.pure (Tree.cons first rest)).Announces layout := by
  intro s
  apply Gathers.part_bind h
  intro first _
  apply Gathers.quiet_bind (.accept _)
  intro found _
  apply Gathers.part_bind (listIf (call hgiven hresult))
  intro rest _
  exact .done rfl

end Announces

end Rule

end JavaSyntax
