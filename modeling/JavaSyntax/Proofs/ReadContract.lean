import JavaSyntax.Proofs.Reads

/-!
What each nonterminal reads, as a contract, and what the building blocks of rules add to what was
read so far. Some nonterminals go on with what their caller began; for these `Nonterminal.Begun`
says how far the caller has come.
-/

namespace JavaSyntax

/-- The extent of a directive. -/
def Directive.extent : Directive → Extent
  | .requires _ _ _ e => e
  | .exports _ _ e => e
  | .opens _ _ e => e
  | .uses _ e => e
  | .provides _ _ e => e

namespace UnitItem

def extent : UnitItem → Extent
  | .package decl => decl.extent
  | .import decl => decl.extent
  | .module decl => decl.extent
  | .form top => top.extent

/-- The trees right below an item. -/
def parts : UnitItem → List Part
  | .package decl => [⟨_, decl.annotations⟩]
  | .import _ => []
  | .module decl => [⟨_, decl.annotations⟩]
  | .form (.type decl) => [⟨_, decl⟩]
  | .form _ => []

def directives : UnitItem → List Directive
  | .module decl => decl.directives
  | _ => []

/-- Whether an item is no error marker. -/
def isProper : UnitItem → Bool
  | .form (.erroneous _) => false
  | _ => true

end UnitItem

/-- What stood in front of a declaration began at a state, and its documentation was taken there. -/
structure Modifiers.BeganAt (mods : Modifiers) (s : State) : Prop where
  start : mods.start = s.mark
  doc : mods.doc = s.doc

/-- The contexts of the members of a class of this name; without a name it is anonymous. -/
def ownedBy (owner : String) : Context → Prop := fun ctx =>
  ctx = .body (some owner) ∨ owner = "" ∧ ctx = .body none

/-- The contexts of the groups of a switch. -/
def inSwitch (isExpr : Bool) : Context → Prop := fun ctx => isExpr = true → ctx = .cases

/-- A stretch of at least one token that was taken between two states. -/
def Stretch (setting : Setting) (s : State) (e : Extent) (t : State) : Prop :=
  ∃ first last, Reaches setting s first ∧ Reaches setting first last ∧ Reaches setting last t ∧
    e = first.upTo last ∧ first.index < last.index

theorem Stretch.between {setting : Setting} {s s' t t' : State} {e : Extent}
    (h : Stretch setting s e t) (hs : Reaches setting s' s) (ht : Reaches setting t t') :
    Stretch setting s' e t' := by
  obtain ⟨first, last, hfirst, hway, hlast, he⟩ := h
  exact ⟨first, last, hs.trans hfirst, hway, hlast.trans ht, he⟩

/-- An item at the top of a file was read from `s` up to `t`, all of it. -/
structure ItemTaken (setting : Setting) (s : State) (item : UnitItem) (t : State) : Prop where
  soFar : SoFar setting anywhere s item.parts 0 true t
  extent : item.extent = s.upTo t
  directives : ∀ d ∈ item.directives, Stretch setting s d.extent t
  isProper : item.isProper = true

namespace Nonterminal

/-- How far a caller has come that began at `origin` and calls a nonterminal at `s`. Most are called
where what they read begins. -/
def Begun (setting : Setting) (origin s : State) : {β : Type} → Nonterminal β → Prop
  | _, .typeSegments start outer _ _ =>
    start = origin.mark ∧ SoFar setting anywhere origin [⟨_, outer⟩] 0 true s
  | _, .typesAfter separator => origin = s ∧ isParen separator = false
  | _, .binaryRest _ start left =>
    start = origin.mark ∧ Taken setting anywhere origin left s
  | _, .selectors start target =>
    start = origin.mark ∧ Taken setting anywhere origin target s
  | _, .steps start operand =>
    start = origin.mark ∧ Taken setting anywhere origin operand s
  | _, .declarators _ start => start = origin.mark ∧ SoFar setting anywhere origin [] 0 true s
  | _, .typeDecl mods => mods.BeganAt origin ∧ origin.taken = 0 ∧
    SoFar setting anywhere origin [⟨_, mods.annotations⟩] 0 false s
  | _, _ => origin = s

/-- What a nonterminal has read when it succeeds. -/
def Reading (setting : Setting) (s : State) : {β : Type} → Nonterminal β → β → State → Prop
  | _, .annot => Taken setting anywhere s
  | _, .annotations _ => Taken setting anywhere s
  | _, .namedElements => Taken setting anywhere s
  | _, .elementValue => Taken setting anywhere s
  | _, .elementValues => Taken setting anywhere s
  | _, .type => Taken setting anywhere s
  | _, .typeSegments _ _ _ _ => fun tree t => ∃ outer name args diamond e,
    tree = .type outer name args diamond .nil 0 e ∧
      SoFar setting anywhere s [⟨_, outer⟩, ⟨_, args⟩] 0 true t
  | _, .typeArgs => Taken setting anywhere s
  | _, .typeArgList => Taken setting anywhere s
  | _, .typesAfter _ => Taken setting anywhere s
  | _, .typeParamList => Taken setting anywhere s
  | _, .expr => Taken setting anywhere s
  | _, .conditional => Taken setting anywhere s
  | _, .binary _ => Taken setting anywhere s
  | _, .binaryRest _ _ _ => Taken setting anywhere s
  | _, .unary => Taken setting anywhere s
  | _, .selectors _ _ => Taken setting anywhere s
  | _, .steps _ _ => Taken setting anywhere s
  | _, .lambda => Taken setting anywhere s
  | _, .exprList => Taken setting anywhere s
  | _, .sizes => Taken setting anywhere s
  | _, .arrayInit => Taken setting anywhere s
  | _, .arrayElements => Taken setting anywhere s
  | _, .lambdaParamList => Taken setting anywhere s
  | _, .labels => Taken setting anywhere s
  | _, .switchRest isExpr => fun read t =>
    SoFar setting (inSwitch isExpr) s [⟨_, read.1⟩, ⟨_, read.2⟩] 0 false t
  | _, .switchCases isExpr => Taken setting (inSwitch isExpr) s
  | _, .switchCase isExpr => Taken setting (inSwitch isExpr) s
  | _, .stmt => Taken setting anywhere s
  | _, .block => Taken setting anywhere s
  | _, .statements _ => Taken setting anywhere s
  | _, .declarators _ _ => Taken setting anywhere s
  | _, .standalones => Taken setting anywhere s
  | _, .resources => Taken setting anywhere s
  | _, .catches => Taken setting anywhere s
  | _, .modifierRun => fun read t =>
    SoFar setting anywhere s [⟨_, read.2⟩] 0 false t ∧ (read.1 = [] → read.2.isNil = true → t = s)
  | _, .typeDecl _ => Taken setting anywhere s
  | _, .members owner => Taken setting (ownedBy owner) s
  | _, .member owner => Taken setting (ownedBy owner) s
  | _, .paramList => Taken setting anywhere s
  | _, .enumConstants => Taken setting anywhere s
  | _, .names => fun _ => SoFar setting anywhere s [] 0 false
  | _, .directives => fun read t =>
    SoFar setting anywhere s [] 0 false t ∧ ∀ d ∈ read, Stretch setting s d.extent t
  | _, .item => ItemTaken setting s
  | _, .items _ => fun _ => Fine setting.layout
  | _, .wholeExpr => fun _ => Fine setting.layout
  | _, .wholeType => fun _ => Fine setting.layout

end Nonterminal

/-- A success is as wanted; a fault lies in the text, and so do all that were reported. -/
def Ends (setting : Setting) {α : Type} (P : α → State → Prop) :
    Except SyntaxError α → State → Prop
  | .ok value, t => P value t
  | .error error, t => Fine setting.layout t ∧ setting.layout.Told error

/-- What every nonterminal reads. -/
def readings (setting : Setting) : Contract where
  pre nonterminal _ s := Fine setting.layout s ∧ ∃ origin, nonterminal.Begun setting origin s
  post nonterminal _ s r t := ∀ origin, nonterminal.Begun setting origin s →
    Ends setting (nonterminal.Reading setting origin) r t

/-- What every nonterminal reads, and what is known of all of them. -/
def reads (setting : Setting) : Contract :=
  (readings setting).knowing (Runs setting)

theorem Rule.Ensures.ends {setting : Setting} {C : Contract} {inLabels : Bool} {α : Type}
    {rule : Rule α} {s : State} {P Q : α → State → Prop}
    (h : rule.Ensures setting C inLabels s (Ends setting P))
    (hPQ : ∀ value t, P value t → Q value t) :
    rule.Ensures setting C inLabels s (Ends setting Q) :=
  h.mono fun r t hr => by
    cases r with
    | error error => exact hr
    | ok value => exact hPQ value t hr

theorem Rule.ensures_bind_ends {setting : Setting} {C : Contract} {inLabels : Bool} {α β : Type}
    {rule : Rule α} {f : α → Rule β} {s : State} {P : α → State → Prop} {Q : β → State → Prop}
    (h : rule.Ensures setting C inLabels s (Ends setting P))
    (hf : ∀ value t, P value t → (f value).Ensures setting C inLabels t (Ends setting Q)) :
    (rule >>= f).Ensures setting C inLabels s (Ends setting Q) := by
  rw [ensures_bind]
  refine h.mono fun r t hr => ?_
  cases r with
  | error error => exact hr
  | ok value => exact hf value t hr

theorem Rule.Ensures.soFar {setting : Setting} {C : Contract} {inLabels : Bool}
    {A : Context → Prop} {c : Category} {rule : Rule (Tree c)} {s t : State}
    (h : rule.Ensures setting C inLabels t (Ends setting (Taken setting A s))) :
    rule.Ensures setting C inLabels t
      (Ends setting fun value u => SoFar setting A s [⟨c, value⟩] 0 false u) :=
  h.ends fun _ _ hu => hu.soFar

namespace Grammar

open Rule

variable {setting : Setting} {inLabels : Bool} {A B : Context → Prop} {s t origin : State}
  {c : Category} {α β : Type} {P : β → State → Prop}

theorem call_runs {nonterminal : Nonterminal β} (ht : Fine setting.layout t)
    (hbegun : nonterminal.Begun setting origin t) :
    (call nonterminal).Ensures setting (reads setting) inLabels t (Ends setting fun value u =>
      nonterminal.Reading setting origin value u ∧ Runs setting nonterminal t (.ok value) u) := by
  rw [ensures_call]
  refine ⟨⟨ht, origin, hbegun⟩, fun r u hu => ?_⟩
  have hends := hu.1 origin hbegun
  cases r with
  | error error => exact hends
  | ok value => exact ⟨hends, hu.2⟩

/-- A call at the end of a rule. -/
theorem call_ends {nonterminal : Nonterminal β} (ht : Fine setting.layout t)
    (hbegun : nonterminal.Begun setting origin t) :
    (call nonterminal).Ensures setting (reads setting) inLabels t
      (Ends setting (nonterminal.Reading setting origin)) :=
  (call_runs ht hbegun).ends fun _ _ hu => hu.1

theorem call_reads {nonterminal : Nonterminal α} {f : α → Rule β} (ht : Fine setting.layout t)
    (hbegun : nonterminal.Begun setting origin t)
    (hf : ∀ value u, nonterminal.Reading setting origin value u →
      Runs setting nonterminal t (.ok value) u →
      (f value).Ensures setting (reads setting) inLabels u (Ends setting P)) :
    (call nonterminal >>= f).Ensures setting (reads setting) inLabels t (Ends setting P) :=
  ensures_bind_ends (call_runs ht hbegun) fun value u hu => hf value u hu.1 hu.2

theorem runs_index {nonterminal : Nonterminal β} {value : β}
    (h : Runs setting nonterminal s (.ok value) t) (hb : (!nonterminal.mayBeEmpty) = true) :
    s.index < t.index := by
  have hlt := h.advanced.left_lt (by simpa using hb) rfl
  have hmoved := h.advanced.moved
  omega

/-- A call of a nonterminal that reads one tree where it is called. -/
theorem call_taken {nonterminal : Nonterminal (Tree c)} (ht : Fine setting.layout t)
    (hbegun : nonterminal.Begun setting t t)
    (hreading : nonterminal.Reading setting t = Taken setting A t) :
    (call nonterminal).Ensures setting (reads setting) inLabels t (Ends setting fun value u =>
      SoFar setting A t [⟨c, value⟩] 0 (!nonterminal.mayBeEmpty) u ∧
        Runs setting nonterminal t (.ok value) u) := by
  refine (call_runs ht hbegun).ends fun value u hu => ⟨?_, hu.2⟩
  have htaken : Taken setting A t value u := hreading ▸ hu.1
  exact ⟨htaken.soFar.fine, htaken.soFar.reaches, htaken.soFar.level, runs_index hu.2,
    htaken.soFar.parts⟩

/-- A call whose tree is put into another that takes its extent. -/
theorem call_wrapped {nonterminal : Nonterminal (Tree c)} {d : Category} {wrap : Tree c → Tree d}
    (ht : Fine setting.layout t) (hbegun : nonterminal.Begun setting origin t)
    (hreading : nonterminal.Reading setting origin = Taken setting anywhere origin)
    (hsome : ∀ tree : Tree c, ∃ e, tree.extent? = some e) (hnode : d.isNode = true)
    (hparts : ∀ tree, (wrap tree).parts = [⟨c, tree⟩])
    (hextent : ∀ tree, (wrap tree).extent? = tree.extent?)
    (hsits : ∀ tree, (wrap tree).Sits origin)
    (hfits : ∀ tree ctx, B ctx → (wrap tree).Fits ctx) :
    (call nonterminal >>= fun tree => pure (wrap tree)).Ensures setting (reads setting) inLabels t
      (Ends setting (Taken setting B origin)) := by
  refine call_reads ht hbegun fun tree u hread hruns => ?_
  have htaken : Taken setting anywhere origin tree u := hreading ▸ hread
  obtain ⟨e, he⟩ := hsome tree
  exact htaken.wrap he hnode (hparts tree) (hextent tree) (hsits tree)
    fun ctx hctx _ => hfits tree ctx hctx

theorem call_read {nonterminal : Nonterminal (Tree c)} (ht : Fine setting.layout t)
    (hbegun : nonterminal.Begun setting t t)
    (hreading : nonterminal.Reading setting t = Taken setting A t) :
    (call nonterminal).Ensures setting (reads setting) inLabels t (Ends setting fun value u =>
      SoFar setting A t [⟨c, value⟩] 0 (!nonterminal.mayBeEmpty) u) :=
  (call_taken ht hbegun hreading).ends fun _ _ hu => hu.1

/-- A list that may be absent. -/
theorem listIf_read {rule : Rule (Tree (.list c))} {present b : Bool}
    (ht : Fine setting.layout t)
    (hrule : present = true → rule.Ensures setting (reads setting) inLabels t
      (Ends setting fun value u => SoFar setting A t [⟨_, value⟩] 0 b u)) :
    (listIf present rule).Ensures setting (reads setting) inLabels t
      (Ends setting fun value u => SoFar setting A t [⟨_, value⟩] 0 false u) := by
  cases present with
  | false => exact (SoFar.start (A := A) ht).nil
  | true => exact (hrule rfl).ends fun _ _ hu => hu.idle

/-- A part that may be absent. -/
theorem optionIf_read {rule : Rule (Tree c)} {present b : Bool} (ht : Fine setting.layout t)
    (hrule : present = true → rule.Ensures setting (reads setting) inLabels t
      (Ends setting fun value u => SoFar setting A t [⟨_, value⟩] 0 b u)) :
    (optionIf present rule).Ensures setting (reads setting) inLabels t
      (Ends setting fun value u => SoFar setting A t [⟨_, value⟩] 0 false u) := by
  cases present with
  | false => exact (SoFar.start (A := A) ht).none
  | true =>
    show (rule >>= fun value => pure (Tree.some value)).Ensures _ _ _ _ _
    exact ensures_bind_ends (hrule rfl) fun _ _ hu => hu.idle.some

end Grammar

namespace SoFar

open Rule Grammar

variable {setting : Setting} {inLabels : Bool} {A B : Context → Prop} {s t : State}
  {parts : List Part} {depth : Nat} {b b' : Bool} {c : Category} {α β : Type}
  {P : β → State → Prop} {k : Kind}

/-- A rule is followed from where the rules before it have come to. -/
theorem bind {rule : Rule α} {f : α → Rule β} {M : α → List Part} {R : α → State → Prop}
    (h : SoFar setting A s parts depth b t)
    (hrule : rule.Ensures setting (reads setting) inLabels t
      (Ends setting fun value u => SoFar setting A t (M value) 0 b' u ∧ R value u))
    (hf : ∀ value u, SoFar setting A s (parts ++ M value) depth (b || b') u → R value u →
      (f value).Ensures setting (reads setting) inLabels u (Ends setting P)) :
    (rule >>= f).Ensures setting (reads setting) inLabels t (Ends setting P) :=
  ensures_bind_ends hrule fun value u hu => hf value u (h.trans hu.1) hu.2

theorem run {rule : Rule α} {f : α → Rule β} {M : α → List Part}
    (h : SoFar setting A s parts depth b t)
    (hrule : rule.Ensures setting (reads setting) inLabels t
      (Ends setting fun value u => SoFar setting A t (M value) 0 b' u))
    (hf : ∀ value u, SoFar setting A s (parts ++ M value) depth (b || b') u →
      (f value).Ensures setting (reads setting) inLabels u (Ends setting P)) :
    (rule >>= f).Ensures setting (reads setting) inLabels t (Ends setting P) :=
  h.bind (R := fun _ _ => True) (hrule.ends fun _ _ hu => ⟨hu, trivial⟩)
    fun value u hu _ => hf value u hu

/-- A rule that reads one tree. -/
theorem tree {rule : Rule (Tree c)} {f : Tree c → Rule β}
    (h : SoFar setting A s parts depth b t)
    (hrule : rule.Ensures setting (reads setting) inLabels t
      (Ends setting fun value u => SoFar setting A t [⟨c, value⟩] 0 b' u))
    (hf : ∀ value u, SoFar setting A s (parts ++ [⟨c, value⟩]) depth (b || b') u →
      (f value).Ensures setting (reads setting) inLabels u (Ends setting P)) :
    (rule >>= f).Ensures setting (reads setting) inLabels t (Ends setting P) :=
  h.run (M := fun value => [⟨c, value⟩]) hrule hf

/-- A rule that only takes symbols. -/
theorem skip {rule : Rule α} {f : α → Rule β} (h : SoFar setting A s parts depth b t)
    (hrule : rule.Ensures setting (reads setting) inLabels t
      (Ends setting fun _ u => SoFar setting A t [] 0 b' u))
    (hf : ∀ value u, SoFar setting A s parts depth (b || b') u →
      (f value).Ensures setting (reads setting) inLabels u (Ends setting P)) :
    (rule >>= f).Ensures setting (reads setting) inLabels t (Ends setting P) :=
  h.run (M := fun _ => []) hrule fun value u hu => hf value u (List.append_nil parts ▸ hu)

/-- A call whose run is still needed. -/
theorem callKnowing {nonterminal : Nonterminal (Tree c)} {f : Tree c → Rule β}
    (h : SoFar setting A s parts depth b t) (hbegun : nonterminal.Begun setting t t)
    (hreading : nonterminal.Reading setting t = Taken setting anywhere t)
    (hf : ∀ value u,
      SoFar setting A s (parts ++ [⟨c, value⟩]) depth (b || !nonterminal.mayBeEmpty) u →
      Runs setting nonterminal t (.ok value) u →
      (f value).Ensures setting (reads setting) inLabels u (Ends setting P)) :
    (call nonterminal >>= f).Ensures setting (reads setting) inLabels t (Ends setting P) :=
  h.bind (M := fun value => [⟨c, value⟩])
    ((call_taken h.fine hbegun hreading).ends fun _ _ hu => ⟨hu.1.narrow, hu.2⟩) hf

theorem call {nonterminal : Nonterminal (Tree c)} {f : Tree c → Rule β}
    (h : SoFar setting A s parts depth b t) (hbegun : nonterminal.Begun setting t t)
    (hreading : nonterminal.Reading setting t = Taken setting anywhere t)
    (hf : ∀ value u,
      SoFar setting A s (parts ++ [⟨c, value⟩]) depth (b || !nonterminal.mayBeEmpty) u →
      (f value).Ensures setting (reads setting) inLabels u (Ends setting P)) :
    (call nonterminal >>= f).Ensures setting (reads setting) inLabels t (Ends setting P) :=
  h.callKnowing hbegun hreading fun value u hu _ => hf value u hu

/-- A tree that is read and put into another. -/
theorem callInto {nonterminal : Nonterminal (Tree c)} {f : Tree c → Rule β} {d : Category}
    (h : SoFar setting A s parts depth b t) (into : Tree c → Tree d)
    (hbegun : nonterminal.Begun setting t t)
    (hreading : nonterminal.Reading setting t = Taken setting anywhere t)
    (hinto : ∀ value u, SoFar setting anywhere t [⟨c, value⟩] 0 (!nonterminal.mayBeEmpty) u →
      SoFar setting A t [⟨d, into value⟩] 0 (!nonterminal.mayBeEmpty) u)
    (hf : ∀ value u, SoFar setting A s (parts ++ [⟨d, into value⟩]) depth
        (b || !nonterminal.mayBeEmpty) u →
      (f value).Ensures setting (reads setting) inLabels u (Ends setting P)) :
    (Grammar.call nonterminal >>= f).Ensures setting (reads setting) inLabels t
      (Ends setting P) :=
  h.run (M := fun value => [⟨d, into value⟩])
    ((call_read h.fine hbegun hreading).ends hinto) hf

/-- A tree that is read and dropped. -/
theorem callDropped {nonterminal : Nonterminal (Tree c)} {f : Tree c → Rule β}
    (h : SoFar setting A s parts depth b t) (hbegun : nonterminal.Begun setting t t)
    (hreading : nonterminal.Reading setting t = Taken setting anywhere t)
    (hf : ∀ value u, SoFar setting A s parts depth (b || !nonterminal.mayBeEmpty) u →
      (f value).Ensures setting (reads setting) inLabels u (Ends setting P)) :
    (Grammar.call nonterminal >>= f).Ensures setting (reads setting) inLabels t
      (Ends setting P) :=
  h.skip ((call_read h.fine hbegun hreading).ends fun _ _ hu => hu.forget) hf

theorem listDropped {rule : Rule (Tree (.list c))} {f : Tree (.list c) → Rule β} {present : Bool}
    (h : SoFar setting A s parts depth b t)
    (hrule : present = true → rule.Ensures setting (reads setting) inLabels t
      (Ends setting fun value u => SoFar setting A t [⟨_, value⟩] 0 b' u))
    (hf : ∀ value u, SoFar setting A s parts depth (b || false) u →
      (f value).Ensures setting (reads setting) inLabels u (Ends setting P)) :
    (listIf present rule >>= f).Ensures setting (reads setting) inLabels t (Ends setting P) :=
  h.skip ((listIf_read h.fine hrule).ends fun _ _ hu => hu.forget) hf

theorem ahead_of_next (hnext : Lookahead.next [k] t.ahead = true) :
    ∃ x rest, t.ahead = x :: rest ∧ x.kind = k := by
  cases hahead : t.ahead with
  | nil =>
    rw [hahead] at hnext
    cases hnext
  | cons x rest =>
    rw [hahead] at hnext
    exact ⟨x, rest, rfl, by simpa [Lookahead.next] using hnext⟩

theorem takeNext (h : SoFar setting A s parts depth b t)
    (hnext : Lookahead.next [k] t.ahead = true) (hk : isParen k = false) :
    SoFar setting A s parts depth true (t.advance 1) := by
  obtain ⟨x, rest, hahead, rfl⟩ := ahead_of_next hnext
  exact h.take hahead hk

theorem takeKind (h : SoFar setting A s parts depth b t)
    (hkind : t.ahead.head?.map Symbol.kind = Option.some k) (hk : isParen k = false) :
    SoFar setting A s parts depth true (t.advance 1) := by
  cases hahead : t.ahead with
  | nil => simp [hahead] at hkind
  | cons x rest =>
    rw [hahead] at hkind
    cases hkind
    exact h.take hahead hk

theorem openKind (h : SoFar setting A s parts depth b t)
    (hkind : t.ahead.head?.map Symbol.kind = Option.some .lparen) :
    SoFar setting A s parts (depth + 1) true (t.advance 1) := by
  cases hahead : t.ahead with
  | nil => simp [hahead] at hkind
  | cons x rest =>
    rw [hahead] at hkind
    exact h.openParen hahead (Option.some.inj hkind)

theorem takeOneOf {ks : List Kind} (h : SoFar setting A s parts depth b t)
    (hnext : Lookahead.nextOneOf ks t.ahead = true) (hks : ks.any isParen = false) :
    SoFar setting A s parts depth true (t.advance 1) := by
  cases hahead : t.ahead with
  | nil => simp [hahead, Lookahead.nextOneOf] at hnext
  | cons x rest =>
    have hmem : x.kind ∈ ks := by simpa [hahead, Lookahead.nextOneOf] using hnext
    refine h.take hahead ?_
    simpa using List.any_eq_false.mp hks _ hmem

/-- A table that knows no parentheses gives none. -/
theorem isParen_of_table {γ : Type} {table : Kind → Option γ} {found : γ} {k : Kind}
    (h : table k = Option.some found) (hopen : table .lparen = Option.none)
    (hclose : table .rparen = Option.none) : isParen k = false := by
  cases k <;> first | rfl | simp [hopen, hclose] at h

theorem takeLookup {γ : Type} {table : Kind → Option γ} {found : γ}
    (h : SoFar setting A s parts depth b t) (hfound : lookup table t.ahead = Option.some found)
    (hopen : table .lparen = Option.none) (hclose : table .rparen = Option.none) :
    SoFar setting A s parts depth true (t.advance 1) := by
  cases hahead : t.ahead with
  | nil => simp [hahead, lookup] at hfound
  | cons x rest =>
    have hx : table x.kind = Option.some found := by simpa [hahead, lookup] using hfound
    exact h.take hahead (isParen_of_table hx hopen hclose)

theorem missing (h : SoFar setting A s parts depth b t) (wanted : Wanted) (P : β → State → Prop) :
    Ends setting P (.error ((t.view inLabels).missing wanted)) t :=
  ⟨h.fine, h.fine.placed.told_missing h.fine.tiled inLabels wanted⟩

theorem wrong (h : SoFar setting A s parts depth b t) {fault : Fault} (P : β → State → Prop)
    (hplain : ∀ e, fault ≠ .literal e) :
    Ends setting P (.error ((t.view inLabels).wrong fault)) t :=
  ⟨h.fine, h.fine.placed.told_wrong h.fine.tiled inLabels hplain⟩

theorem expect {f : Unit → Rule β} (h : SoFar setting A s parts depth b t) (hk : isParen k = false)
    (hf : SoFar setting A s parts depth true (t.advance 1) →
      (f ()).Ensures setting (reads setting) inLabels (t.advance 1) (Ends setting P)) :
    (expect k >>= f).Ensures setting (reads setting) inLabels t (Ends setting P) := by
  rw [ensures_expect_bind]
  split
  · rename_i hnext
    exact hf (h.takeNext hnext hk)
  · exact h.missing _ _

theorem expectOpen {f : Unit → Rule β} (h : SoFar setting A s parts depth b t)
    (hf : SoFar setting A s parts (depth + 1) true (t.advance 1) →
      (f ()).Ensures setting (reads setting) inLabels (t.advance 1) (Ends setting P)) :
    (Grammar.expect .lparen >>= f).Ensures setting (reads setting) inLabels t
      (Ends setting P) := by
  rw [ensures_expect_bind]
  split
  · rename_i hnext
    obtain ⟨x, rest, hahead, hkind⟩ := ahead_of_next hnext
    exact hf (h.openParen hahead hkind)
  · exact h.missing _ _

theorem expectClose {f : Unit → Rule β} (h : SoFar setting A s parts (depth + 1) b t)
    (hf : SoFar setting A s parts depth true (t.advance 1) →
      (f ()).Ensures setting (reads setting) inLabels (t.advance 1) (Ends setting P)) :
    (Grammar.expect .rparen >>= f).Ensures setting (reads setting) inLabels t
      (Ends setting P) := by
  rw [ensures_expect_bind]
  split
  · rename_i hnext
    obtain ⟨x, rest, hahead, hkind⟩ := ahead_of_next hnext
    exact hf (h.closeParen hahead hkind)
  · exact h.missing _ _

theorem requireFrom {f : Unit → Rule β} (h : SoFar setting A s parts depth b t)
    (hk : isParen k = false)
    (hf : ∀ u, SoFar setting A s parts depth b u → Reaches setting t u →
      (f ()).Ensures setting (reads setting) inLabels u (Ends setting P)) :
    (Grammar.require k >>= f).Ensures setting (reads setting) inLabels t (Ends setting P) := by
  unfold Grammar.require
  rw [ensures_bind, ensures_view_bind]
  split
  · rename_i hnext
    exact hf _ ((h.takeNext hnext hk).weaken (fun _ hp => hp) (fun _ hA => hA) fun _ => rfl)
      (.step (.advance 1))
  · exact hf _ (h.report (h.fine.placed.told_missing h.fine.tiled ..) depth) (.step (.record ..))

theorem require {f : Unit → Rule β} (h : SoFar setting A s parts depth b t)
    (hk : isParen k = false)
    (hf : ∀ u, SoFar setting A s parts depth b u →
      (f ()).Ensures setting (reads setting) inLabels u (Ends setting P)) :
    (Grammar.require k >>= f).Ensures setting (reads setting) inLabels t (Ends setting P) :=
  h.requireFrom hk fun u hu _ => hf u hu

theorem reporting {f : Unit → Rule β} {error : SyntaxError}
    (h : SoFar setting A s parts depth b t) (htold : setting.layout.Told error)
    (hf : ∀ u, u.index = t.index → SoFar setting A s parts depth b u → ¬u.IsFresh →
      (f ()).Ensures setting (reads setting) inLabels u (Ends setting P)) :
    (Grammar.report error >>= f).Ensures setting (reads setting) inLabels t (Ends setting P) :=
  hf _ (State.index_report ..) (h.report htold depth) (t.not_isFresh_report _ _)

theorem accept {f : Bool → Rule β} (h : SoFar setting A s parts depth b t) (hk : isParen k = false)
    (hyes : SoFar setting A s parts depth true (t.advance 1) →
      (f true).Ensures setting (reads setting) inLabels (t.advance 1) (Ends setting P))
    (hno : (f false).Ensures setting (reads setting) inLabels t (Ends setting P)) :
    (accept k >>= f).Ensures setting (reads setting) inLabels t (Ends setting P) := by
  rw [ensures_accept_bind]
  split
  · rename_i hnext
    exact hyes (h.takeNext hnext hk)
  · exact hno

theorem acceptDropped {f : Bool → Rule β} (h : SoFar setting A s parts depth b t)
    (hk : isParen k = false)
    (hf : ∀ found u, SoFar setting A s parts depth b u →
      (f found).Ensures setting (reads setting) inLabels u (Ends setting P)) :
    (Grammar.accept k >>= f).Ensures setting (reads setting) inLabels t (Ends setting P) :=
  h.accept hk
    (fun h' => hf _ _ (h'.weaken (fun _ hp => hp) (fun _ hA => hA) fun _ => rfl)) (hf _ _ h)

/-- A part that stands behind a symbol, and is nothing without it. -/
theorem acceptPart {d : Category} {nothing : Tree d} {f : Tree d → Rule β}
    (part : Bool → Rule (Tree d)) (h : SoFar setting A s parts depth b t) (hk : isParen k = false)
    (hpart : ∀ u, Fine setting.layout u → (part true).Ensures setting (reads setting) inLabels u
      (Ends setting fun value w => SoFar setting A u [⟨_, value⟩] 0 false w))
    (habsent : part false = pure nothing)
    (hnothing : SoFar setting A s (parts ++ [⟨_, nothing⟩]) depth b t)
    (hf : ∀ value u, SoFar setting A s (parts ++ [⟨_, value⟩]) depth b u →
      (f value).Ensures setting (reads setting) inLabels u (Ends setting P)) :
    (Grammar.accept k >>= fun found => part found >>= f).Ensures setting (reads setting)
      inLabels t (Ends setting P) := by
  refine h.accept hk (fun h' => ?_) ?_
  · have hweak : SoFar setting A s parts depth b (t.advance 1) :=
      h'.weaken (fun _ hp => hp) (fun _ hA => hA) fun _ => rfl
    refine hweak.tree (hpart _ h'.fine) fun value u hu => ?_
    rw [Bool.or_false] at hu
    exact hf value u hu
  · rw [habsent]
    exact hf nothing t hnothing

theorem acceptList {rule : Rule (Tree (.list c))} {f : Tree (.list c) → Rule β}
    (h : SoFar setting A s parts depth b t) (hk : isParen k = false)
    (hrule : ∀ u, Fine setting.layout u → rule.Ensures setting (reads setting) inLabels u
      (Ends setting fun value w => SoFar setting A u [⟨_, value⟩] 0 b' w))
    (hf : ∀ value u, SoFar setting A s (parts ++ [⟨_, value⟩]) depth b u →
      (f value).Ensures setting (reads setting) inLabels u (Ends setting P)) :
    (Grammar.accept k >>= fun found => listIf found rule >>= f).Ensures setting (reads setting)
      inLabels t (Ends setting P) :=
  h.acceptPart (listIf · rule) hk (fun u hu => listIf_read hu fun _ => hrule u hu) rfl
    h.addNil hf

theorem acceptOption {rule : Rule (Tree c)} {f : Tree (.option c) → Rule β}
    (h : SoFar setting A s parts depth b t) (hk : isParen k = false)
    (hrule : ∀ u, Fine setting.layout u → rule.Ensures setting (reads setting) inLabels u
      (Ends setting fun value w => SoFar setting A u [⟨_, value⟩] 0 b' w))
    (hf : ∀ value u, SoFar setting A s (parts ++ [⟨_, value⟩]) depth b u →
      (f value).Ensures setting (reads setting) inLabels u (Ends setting P)) :
    (Grammar.accept k >>= fun found => optionIf found rule >>= f).Ensures setting (reads setting)
      inLabels t (Ends setting P) :=
  h.acceptPart (optionIf · rule) hk (fun u hu => optionIf_read hu fun _ => hrule u hu) rfl
    h.addNone hf

theorem takeText {f : String → Rule β} (h : SoFar setting A s parts depth b t)
    (hnext : Lookahead.next [k] t.ahead = true) (hk : isParen k = false)
    (hf : SoFar setting A s parts depth true (t.advance 1) →
      (f ((t.ahead.head?.map Symbol.text).getD "")).Ensures setting (reads setting) inLabels
        (t.advance 1) (Ends setting P)) :
    (takeText >>= f).Ensures setting (reads setting) inLabels t (Ends setting P) :=
  hf (h.takeNext hnext hk)

theorem identifier {f : String → Rule β} (h : SoFar setting A s parts depth b t)
    (hf : ∀ name u, SoFar setting A s parts depth true u → IsWordText name →
      (f name).Ensures setting (reads setting) inLabels u (Ends setting P)) :
    (identifier >>= f).Ensures setting (reads setting) inLabels t (Ends setting P) := by
  unfold Grammar.identifier
  rw [ensures_bind, ensures_view_bind, State.view_ahead]
  split
  · rename_i hnext
    exact hf _ _ (h.takeNext hnext rfl) (h.fine.isWordText hnext)
  · exact h.missing .identifier P

theorem plain_dottedTail (ts : List Symbol) :
    ∀ x ∈ ts.take (2 * (Lookahead.dottedTail ts).length), isParen x.kind = false := by
  fun_induction Lookahead.dottedTail ts with
  | case1 x y rest hxy ih =>
    rw [List.length_cons, Nat.mul_add]
    intro z hz
    rcases List.mem_cons.mp hz with rfl | hz
    · rw [hxy.1]
      rfl
    · rcases List.mem_cons.mp hz with rfl | hz
      · rw [hxy.2]
        rfl
      · exact ih z hz
  | case2 => simp
  | case3 => simp

theorem plain_dims (ts : List Symbol) :
    ∀ x ∈ ts.take (2 * Lookahead.dims ts), isParen x.kind = false := by
  fun_induction Lookahead.dims ts with
  | case1 x y rest hxy ih =>
    rw [Nat.mul_add]
    intro z hz
    rcases List.mem_cons.mp hz with rfl | hz
    · rw [hxy.1]
      rfl
    · rcases List.mem_cons.mp hz with rfl | hz
      · rw [hxy.2]
        rfl
      · exact ih z hz
  | case2 => simp
  | case3 => simp

theorem qualifiedName {f : String → Rule β} (h : SoFar setting A s parts depth b t)
    (hf : ∀ name u, SoFar setting A s parts depth true u →
      (f name).Ensures setting (reads setting) inLabels u (Ends setting P)) :
    (qualifiedName >>= f).Ensures setting (reads setting) inLabels t (Ends setting P) := by
  unfold Grammar.qualifiedName
  refine ensures_bind_ends (P := fun _ u => SoFar setting A s parts depth true u) ?_ hf
  exact h.identifier fun name u hu _ => hu.advance (plain_dottedTail u.ahead)

theorem dims {f : Nat → Rule β} (h : SoFar setting A s parts depth b t)
    (hf : ∀ n u, SoFar setting A s parts depth b u →
      (f n).Ensures setting (reads setting) inLabels u (Ends setting P)) :
    (dims >>= f).Ensures setting (reads setting) inLabels t (Ends setting P) :=
  hf _ _ (h.advance (plain_dims t.ahead))

/-- An element of a list, and the others behind a separator. -/
theorem separated {nonterminal : Nonterminal (Tree (.list c))} {first : Tree c}
    (h : SoFar setting A s [⟨c, first⟩] 0 b t) (hk : isParen k = false)
    (hbegun : ∀ u, nonterminal.Begun setting u u)
    (hreading : ∀ u, nonterminal.Reading setting u = Taken setting A u) :
    (Grammar.accept k >>= fun found => listIf found (Grammar.call nonterminal) >>= fun rest =>
      pure (Tree.cons first rest)).Ensures setting (reads setting) inLabels t
        (Ends setting (Taken setting A s)) :=
  (start h.fine).acceptList hk (fun u hu => call_read hu (hbegun u) (hreading u))
    fun _ _ hrest => .of_list (h.cons hrest)

/-- An element of a list, and the others by a call. -/
theorem followed {nonterminal : Nonterminal (Tree (.list c))} {first : Tree c}
    (h : SoFar setting A s [⟨c, first⟩] 0 b t) (hbegun : nonterminal.Begun setting t t)
    (hreading : nonterminal.Reading setting t = Taken setting A t) :
    (Grammar.call nonterminal >>= fun rest => pure (Tree.cons first rest)).Ensures setting
      (reads setting) inLabels t (Ends setting (Taken setting A s)) := by
  refine call_reads h.fine hbegun fun rest u hread _ => ?_
  have hrest : Taken setting A t rest u := hreading ▸ hread
  exact .of_list (h.cons hrest.soFar)

/-- The node of what was read so far. -/
theorem here (h : SoFar setting anywhere s parts 0 true t) (tree : Extent → Tree c)
    (hparts : ∀ e, (tree e).parts = parts) (hextent : ∀ e, (tree e).extent? = Option.some e)
    (hsits : ∀ e, (tree e).Sits s) (hfits : ∀ e ctx, B ctx → t.IsFresh → (tree e).Fits ctx) :
    Taken setting B s (tree (s.upTo t)) t :=
  h.node (Tree.isNode_of_extent (hextent (s.upTo t))) (hparts _)
    (fun _ he => Option.some.inj (he.symm.trans (hextent _))) (hsits _)
    fun ctx hctx => ⟨trivial, hfits _ ctx hctx⟩

/-- The node that a rule gives at its end. -/
theorem finish {tree : Extent → Tree c} (h : SoFar setting anywhere s parts 0 true t)
    (hparts : ∀ e, (tree e).parts = parts) (hextent : ∀ e, (tree e).extent? = Option.some e)
    (hsits : ∀ e, (tree e).Sits s) (hfits : ∀ e ctx, B ctx → t.IsFresh → (tree e).Fits ctx) :
    (since s.mark >>= fun e => pure (tree e)).Ensures setting (reads setting) inLabels t
      (Ends setting (Taken setting B s)) :=
  h.here tree hparts hextent hsits hfits

end SoFar

end JavaSyntax
