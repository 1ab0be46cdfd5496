import JavaSyntax.Fragment.Basic
import JavaSyntax.Proofs.Spans

/-!
No token is dropped at the top of a file. The rounds take all tokens, each round begins where the
one before ended, and the item it lists has exactly the tokens of the round. So every token lies in
one item; only one that angle brackets are taken off may be torn between two. What a text is
accepted for, be it one declaration or a whole expression, then has all its tokens.
-/

namespace JavaSyntax

open Diagnostic (Clean)

/-- Whether a token lies inside a span. -/
def Span.holds (span : Span) (token : Token) : Bool :=
  decide (span.start.offset ≤ token.start ∧ token.stop ≤ span.stop.offset)

/-- The span runs from the start of the first token to the end of the last. -/
def Layout.SpansTokens (layout : Layout) (span : Span) : Prop :=
  ∃ first last, layout.tokens[0]? = some first ∧ layout.tokens.back? = some last ∧
    span = layout.source.spanOf first.start last.stop

section Stretches

variable {setting : Setting} {layout : Layout} {s t : State} {i : Nat} {token : Token}

/-- A token in front of which a state is, and that no angle bracket can be taken off, is whole. -/
theorem Placed.taken_eq_zero (h : Placed layout s) (htoken : layout.tokens[s.index]? = some token)
    (hplain : State.afterAngle token.kind = none) : s.taken = 0 := by
  have hsize := (Array.getElem?_eq_some_iff.mp htoken).1
  have hcount := h.count
  cases hahead : s.ahead with
  | nil =>
    simp only [State.left, hahead, List.length_nil] at hcount
    omega
  | cons x rest =>
    obtain ⟨found, hfound, hkind, _⟩ := h.head x (by simp [hahead])
    cases Option.some.inj (htoken.symm.trans hfound)
    cases htaken : s.taken with
    | zero => rfl
    | succ n =>
      rw [htaken] at hkind
      have hsome := isSome_afterAngle_of_afterAngles hkind
      rw [hplain] at hsome
      cases hsome

theorem Placed.mark_le_start (h : Placed layout s) (ht : layout.Tiled)
    (htoken : layout.tokens[i]? = some token) (hplain : State.afterAngle token.kind = none)
    (hle : s.index ≤ i) : layout.offset s.mark ≤ token.start := by
  have hsize := (Array.getElem?_eq_some_iff.mp htoken).1
  rcases h.offset_mark ht with ⟨hnil, _⟩ | ⟨next, hnext, hmark, _, hstop⟩
  · have hcount := h.count
    simp only [State.left, hnil, List.length_nil] at hcount
    omega
  · rcases Nat.lt_or_eq_of_le hle with hlt | rfl
    · exact Nat.le_trans hstop (ht.stop_le_start hnext htoken hlt)
    · cases Option.some.inj (htoken.symm.trans hnext)
      rw [hmark, h.taken_eq_zero htoken hplain]
      exact Nat.le_refl _

theorem Placed.stop_le_mark (h : Placed layout s) (ht : layout.Tiled)
    (htoken : layout.tokens[i]? = some token) (hlt : i < s.index) :
    token.stop ≤ layout.offset s.mark := by
  obtain ⟨last, hlast, hoffset⟩ := h.last_token (by omega)
  have hstop := ht.stop_le_stop htoken hlast (by omega)
  have hmark := h.after_le_mark ht h (by omega) (Nat.le_refl _)
  omega

/-- What is taken between two states holds exactly the tokens between them. -/
theorem holds_upTo (hs : Placed layout s) (ht : layout.Tiled) (hr : Reaches setting s t)
    (hlt : s.index < t.index) (htoken : layout.tokens[i]? = some token)
    (hplain : State.afterAngle token.kind = none) :
    (layout.span (s.upTo t)).holds token = true ↔ s.index ≤ i ∧ i < t.index := by
  have hsound := State.sound_upTo hs hr ht
  have hplaced := hs.reaches hr
  have hne := ht.start_lt_stop htoken
  obtain ⟨last, hlast, hoffset⟩ := hplaced.last_token (by omega)
  unfold Span.holds
  rw [decide_eq_true_iff, hsound.start_eq, hsound.stop_eq, State.upTo_eq hs hplaced hlt, hoffset]
  dsimp only
  constructor
  · rintro ⟨hstart, hstop⟩
    constructor
    · by_contra hbefore
      have hmark := hs.stop_le_mark ht htoken (by omega)
      omega
    · by_contra hbehind
      have hle := ht.stop_le_start hlast htoken (by omega)
      omega
  · rintro ⟨hfirst, hbefore⟩
    exact ⟨hs.mark_le_start ht htoken hplain hfirst, ht.stop_le_stop htoken hlast (by omega)⟩

/-- What is taken from the first token up to the end spans all tokens. -/
theorem spansTokens_upTo (hs : Placed layout s) (hr : Reaches setting s t) (hindex : s.index = 0)
    (htaken : s.taken = 0) (hlt : s.index < t.index) (hend : t.ahead = []) :
    layout.SpansTokens (layout.span (s.upTo t)) := by
  have hplaced := hs.reaches hr
  have hcount : t.index + t.left = layout.tokens.size := hplaced.count
  simp only [State.left, hend, List.length_nil] at hcount
  obtain ⟨last, hlast, hoffset⟩ := hplaced.last_token (by omega)
  obtain ⟨first, hfirst⟩ : ∃ first, layout.tokens[s.index]? = some first :=
    ⟨_, Array.getElem?_eq_getElem (by omega)⟩
  have hmark : layout.offset s.mark = first.start := by
    have hne : s.ahead ≠ [] := fun hnil => by
      have hcount' := hs.count
      simp only [State.left, hnil, List.length_nil] at hcount'
      omega
    simp [State.mark, State.view, View.mark, hne, Layout.offset, hfirst, htaken]
  refine ⟨first, last, hindex ▸ hfirst, ?_, ?_⟩
  · rw [Array.back?, ← hcount]
    exact hlast
  · rw [State.upTo_eq hs hplaced hlt, Layout.span, hmark, hoffset]

/-- Each token from here on lies in exactly one of the items listed, and none before does. -/
theorem Listed.countP_holds {items : List UnitItem} (h : Listed setting s items t)
    (hs : Placed layout s) (ht : layout.Tiled) (htoken : layout.tokens[i]? = some token)
    (hplain : State.afterAngle token.kind = none) :
    items.countP (fun item => (layout.span item.extent).holds token) =
      if s.index ≤ i then 1 else 0 := by
  have hsize := (Array.getElem?_eq_some_iff.mp htoken).1
  induction h with
  | @nil s atEnd =>
    have hcount := hs.count
    simp only [State.left, atEnd, List.length_nil] at hcount
    rw [if_neg (by omega)]
    rfl
  | @cons s m t item items first rest ih =>
    have hholds := holds_upTo hs ht first.reaches first.began htoken hplain
    have hbegan := first.began
    rw [List.countP_cons, ih (hs.reaches first.reaches), first.extent]
    simp only [hholds]
    split <;> split <;> split <;> omega

end Stretches

theorem WholeRead.spansTokens {setting : Setting} {layout : Layout} {s t : State}
    {tree : Tree .expr} (h : WholeRead setting s tree t) (hs : Placed layout s)
    (hindex : s.index = 0) (htaken : s.taken = 0) (hfresh : t.IsFresh) :
    layout.SpansTokens (layout.span tree.exprExtent) := by
  cases h with
  | taken taken way atEnd =>
    rw [taken.extent _ rfl]
    exact spansTokens_upTo hs taken.soFar.reaches hindex htaken ((taken.begun rfl).began rfl)
      (atEnd hfresh)
  | failed before way marker stale => exact absurd hfresh stale

/-- The only item of a file has all tokens. -/
theorem Listed.spansTokens {setting : Setting} {layout : Layout} {s t : State} {item : UnitItem}
    (h : Listed setting s [item] t) (hs : Placed layout s) (hindex : s.index = 0)
    (htaken : s.taken = 0) : layout.SpansTokens (layout.span item.extent) := by
  cases h with
  | cons first rest =>
    cases rest with
    | nil atEnd =>
      rw [first.extent]
      exact spansTokens_upTo hs first.reaches hindex htaken first.began atEnd

/-- A file that has the shape of a declaration has nothing else in it. -/
theorem Shape.items_of_declaration {unit : CompilationUnit} {decl : Tree .typeDecl}
    (h : Shape.declaration unit = .ok decl) : unit.items = [.form (.type decl)] := by
  obtain ⟨package, imports, module, forms⟩ := unit
  unfold Shape.declaration at h
  dsimp only at h
  split at h
  · cases h
  · rename_i himports
    split at h
    · cases h
    · rename_i hmodule
      split at h
      · cases h
      · rename_i hpackage
        split at h
        · cases h
        · split at h
          · cases h
            have hnone : imports = [] := by simpa using himports
            have hnone' : module = none := by simpa using hmodule
            have hnone'' : package = none := by simpa using hpackage
            rw [hnone, hnone', hnone'']
            rfl
          · cases h
          · cases h

namespace Session

theorem start_taken (settings : Settings) (source : Source) :
    (start settings source).state.taken = 0 := by
  have hflaws : ∀ (flawed : List FlawedText) (s : State),
      (reportFlaws source flawed s).taken = s.taken := by
    intro flawed
    induction flawed with
    | nil => exact fun _ => rfl
    | cons t rest ih => exact fun s => (ih _).trans (State.taken_record ..)
  exact hflaws _ _

end Session

namespace Fragment

/-- An operation on a text runs one entry point of a new session. -/
theorem parse_eq {α : Type} (settings : Settings) (source : Source)
    (entry : Session → α × Session) : parse settings source entry =
      ⟨(entry (.start settings source)).1, (Session.start settings source).layout,
        (entry (.start settings source)).2.diagnostics⟩ :=
  rfl

theorem declaration_ok {settings : Settings} {text : String} {parsed : Parsed (Tree .typeDecl)}
    (h : declaration settings text = .ok parsed) :
    (unit settings text).tree.items = [.form (.type parsed.tree)] ∧
      parsed.layout = (unit settings text).layout ∧
      parsed.diagnostics = (unit settings text).diagnostics := by
  unfold declaration at h
  dsimp only at h
  cases hshape : Shape.declaration (unit settings text).tree with
  | error violation =>
    rw [hshape] at h
    cases h
  | ok decl =>
    rw [hshape] at h
    cases h
    exact ⟨Shape.items_of_declaration hshape, rfl, rfl⟩

end Fragment

open Session in
/-- Whatever a text and its settings are: the items of the file stand one behind the other, and each
token lies in exactly one of them, unless angle brackets can be taken off it. The rounds of the
parse say how each item came to be listed; a clause in the wrong place became an error marker there.
A whole expression or type without errors has all tokens, and so has a declaration for which a text
is accepted, with the diagnostics of the file. -/
theorem items_cover_tokens (settings : Settings) (source : Source) :
    let session := start settings source
    let layout := session.layout
    let items := session.unit.1.items
    (items.map fun item => layout.span item.extent).Pairwise Span.Precedes ∧
    (∀ token ∈ layout.tokens.toList, State.afterAngle token.kind = none →
      items.countP (fun item => (layout.span item.extent).holds token) = 1) ∧
    Rounds session.setting session.state [] items session.unit.2.state ∧
    (Clean session.expression.2.diagnostics →
      layout.SpansTokens (layout.span session.expression.1.exprExtent)) ∧
    (Clean session.typeUse.2.diagnostics →
      layout.SpansTokens (layout.span session.typeUse.1.exprExtent)) ∧
    ∀ text parsed, Fragment.declaration settings text = .ok parsed →
      parsed.layout.SpansTokens (parsed.layout.span parsed.tree.declExtent) ∧
        parsed.diagnostics = (Fragment.unit settings text).diagnostics := by
  intro session layout items
  have hs : Fine session.layout session.state := start_fine settings source
  have hindex := (start_position settings source).1
  have htaken := start_taken settings source
  have hlisted := unit_listed hs
  refine ⟨hlisted.precede hs.placed hs.tiled, fun token hmem hplain => ?_, session.unit_rounds,
    fun hclean => ?_, fun hclean => ?_, fun text parsed hparsed => ?_⟩
  · obtain ⟨i, hi⟩ := List.getElem?_of_mem hmem
    rw [Array.getElem?_toList] at hi
    rw [hlisted.countP_holds hs.placed hs.tiled hi hplain, if_pos]
    exact hindex ▸ Nat.zero_le i
  · exact (expression_whole hs).spansTokens hs.placed hindex htaken
      (isFresh_of_clean (after_expression _) hclean)
  · exact (typeUse_whole hs).spansTokens hs.placed hindex htaken
      (isFresh_of_clean (after_typeUse _) hclean)
  · obtain ⟨hitems, hlayout, hdiagnostics⟩ := Fragment.declaration_ok hparsed
    refine ⟨?_, hdiagnostics⟩
    have hs := start_fine settings (.ofText Source.unnamed text)
    have hall := unit_listed hs
    rw [Fragment.unit, Fragment.unitOf, Fragment.parse_eq] at hitems hlayout
    rw [hitems] at hall
    rw [hlayout]
    exact hall.spansTokens hs.placed (start_position settings _).1 (start_taken settings _)

open Session in
/-- Behind an import a package is in the wrong place; its tokens are in the marker for it. -/
theorem items_cover_misplaced_package :
    let session := start .standard (.ofText "A.java" "import a; package b;")
    let whole := start .standard (.ofText "A.java" "a.b")
    let layout := session.layout
    let items := session.unit.1.items
    items.map UnitItem.isProper = [true, false] ∧
    (∀ token ∈ layout.tokens.toList,
      items.countP (fun item => (layout.span item.extent).holds token) = 1) ∧
    whole.layout.SpansTokens (whole.layout.span whole.expression.1.exprExtent) ∧
    whole.layout.SpansTokens (whole.layout.span whole.typeUse.1.exprExtent) ∧
    ∃ parsed, Fragment.declaration .standard "class A { }" = .ok parsed ∧
      parsed.layout.SpansTokens (parsed.layout.span parsed.tree.declExtent) := by
  intro session whole layout items
  have hplain : ∀ token ∈ layout.tokens.toList, State.afterAngle token.kind = none := by
    decide
  obtain ⟨_, hcount, _, _, _, hdeclaration⟩ :=
    items_cover_tokens .standard (.ofText "A.java" "import a; package b;")
  obtain ⟨_, _, _, hexpression, htype, _⟩ := items_cover_tokens .standard (.ofText "A.java" "a.b")
  refine ⟨by decide, fun token hmem => hcount token hmem (hplain token hmem), ?_, ?_,
    ?_⟩
  · exact hexpression (by unfold Clean; decide)
  · exact htype (by unfold Clean; decide)
  · have hok : (Fragment.declaration .standard "class A { }").isOk = true := by decide
    cases hparsed : Fragment.declaration .standard "class A { }" with
    | error failure =>
      rw [hparsed] at hok
      cases hok
    | ok parsed => exact ⟨parsed, rfl, (hdeclaration _ parsed hparsed).1⟩

end JavaSyntax
