import JavaSyntax.Proofs.Completeness
import JavaSyntax.Proofs.Printing
import JavaSyntax.Proofs.Soundness
import JavaSyntax.Proofs.Truncation

/-!
Printing an expression and parsing it again. A parse without errors has taken all the words of its
source, and they spell the tree; so the printed text is read as the same tree exactly if it is cut
into words that spell it too. `Tree.isApart` is enough for that.
-/

namespace JavaSyntax

open Grammar Rule

open Diagnostic (Clean)

section Rules

variable {setting : Setting} {C : Contract} {inLabels : Bool} {s t : State} {tree : Tree .expr}

theorem absorbRest_log {α : Type} {f : Extent → Rule α} {Q : Except SyntaxError α → State → Prop}
    (h : ∀ extent t, t.log = s.log → (f extent).Ensures setting C inLabels t Q) :
    (absorbRest >>= f).Ensures setting C inLabels s Q := by
  unfold absorbRest
  rw [ensures_bind, ensures_view_bind, ensures_advance_bind]
  exact h _ _ (State.advance_log ..)

/-- At the end of the input nothing happens; before it something is reported. -/
theorem finish_ends : (finish >>= fun _ => pure tree).Ensures setting C inLabels s fun r t =>
    r = .ok tree ∧ (s.ahead = [] → t = s) ∧ (s.ahead ≠ [] → s.IsFresh → ¬Clean t.log) := by
  unfold finish
  rw [ensures_bind, ensures_view_bind, State.view_ahead]
  split
  · rename_i h
    have hne : s.ahead ≠ [] := by simpa using h
    split
    · rw [ensures_report_bind]
      refine absorbRest_log fun extent t hlog => ⟨rfl, fun he => absurd he hne, fun _ hs => ?_⟩
      rw [hlog]
      exact State.not_clean_record hs _ _ _ _
    · rename_i hhalted
      refine absorbRest_log fun extent t hlog => ⟨rfl, fun he => absurd he hne, fun _ hs => ?_⟩
      exact absurd (show (!s.budget.halted) = true by rw [hs.1]; rfl) hhalted
  · rename_i h
    have he : s.ahead = [] := by simpa using h
    exact ⟨rfl, fun _ => rfl, fun hne => absurd he hne⟩

/-- A plain expression that was read without an error is spelled by all the words. -/
theorem whole_spells (hs : s.IsFresh) (hproper : Proper s.words) :
    (whole .expr id).Ensures setting spells inLabels s fun r t =>
      ∀ tree, r = .ok tree → tree.isPlain = true → Clean t.log → Spelled 1 tree s.words := by
  unfold whole
  rw [ensures_attempt_bind]
  refine ⟨trivial, fun r t hread => ?_⟩
  cases r with
  | error error =>
    change Ensures _ _ _ (report error >>= fun _ => absorbRest >>= fun extent =>
      finish >>= fun _ => pure (Tree.erroneousExpr extent)) _ _
    rw [ensures_report_bind]
    refine absorbRest_log fun extent u _ => finish_ends.mono fun r v hr => ?_
    rintro tree rfl hplain
    cases hr.1
    cases hplain
  | ok value =>
    change Ensures _ _ _ (finish >>= fun _ => pure value) _ _
    refine finish_ends.mono fun r u hu => ?_
    rintro tree rfl hplain hclean
    obtain ⟨hvalue, hend, hleft⟩ := hu
    cases hvalue
    obtain ⟨ws, hover, hspelled⟩ := hread hplain hproper
    have hfresh : t.IsFresh := by
      unfold State.IsFresh
      rwa [hover.budget]
    have hahead : t.ahead = [] := Classical.byContradiction fun hne => hleft hne hfresh hclean
    have hwords : s.words = ws := by
      rw [hover.words, State.words, hahead, List.map_nil, List.append_nil]
    rwa [hwords]

/-- Words that spell an expression are read as it, without a report. -/
theorem whole_evaluates {ws : List Word} (hspelled : Spelled 1 tree ws) (hwords : s.words = ws) :
    ∃ read t, read.erase = tree.erase ∧ t.log = s.log ∧
      (whole .expr id).Ensures setting (evaluates setting) inLabels s
        fun r u => r = .ok read ∧ u = t := by
  obtain ⟨read, t, hread, hpast, hexpr⟩ := hspelled.evaluates setting inLabels hwords
  have hcall : (Grammar.call .expr).Ensures setting (evaluates setting) inLabels s
      fun r u => r = .ok read ∧ u = t := ensures_rule.mpr hexpr
  obtain ⟨hpre, hpost⟩ := ensures_call.mp hcall
  refine ⟨read, t, hread, hpast.log, ?_⟩
  unfold whole
  rw [ensures_attempt_bind]
  refine ⟨hpre, fun r u hu => ?_⟩
  obtain ⟨rfl, rfl⟩ := hpost r u hu
  change Ensures _ _ _ (finish >>= fun _ => pure read) _ _
  refine finish_ends.mono fun r v hv => ⟨hv.1, hv.2.1 ?_⟩
  exact List.map_eq_nil_iff.mp hpast.words

end Rules

/-- The lexer finds these words in the text and no flaws. -/
def LexesTo (keepDocs : Bool) (text : String) (words : List Word) : Prop :=
  (lex keepDocs text).map Item.word? = words.map some

theorem Cuts.lexesTo {keepDocs : Bool} {text : String} {words : List Word}
    (h : Cuts text.toList words) : LexesTo keepDocs text words :=
  h keepDocs _ 0 none (Nat.le_refl _)

section Items

variable {items : List Item} {words : List Word}

theorem flawless_iff : items.filterMap Item.flawed? = [] ↔
    items.map Item.word? = (items.filterMap Item.word?).map some := by
  induction items with
  | nil => simp
  | cons item items ih =>
    cases item with
    | token t => simpa [Item.flawed?, Item.word?] using ih
    | flawed t =>
      refine ⟨fun h => by simp [Item.flawed?] at h, fun h => ?_⟩
      have hmem : none ∈ (List.filterMap Item.word? (.flawed t :: items)).map some := by
        rw [← h]
        simp [Item.word?]
      simp at hmem

theorem words_of_map (h : items.map Item.word? = words.map some) :
    items.filterMap Item.word? = words := by
  have hwords := congrArg (List.filterMap id) h
  simpa [List.filterMap_map] using hwords

end Items

theorem words_symbolsFrom (last : Option Nat) (tokens : List Token) :
    (Layout.symbolsFrom last tokens).map Symbol.word = tokens.map fun t => (t.kind, t.text) := by
  induction tokens generalizing last with
  | nil => rfl
  | cons t rest ih => exact congrArg _ (ih _)

namespace Session

variable {settings : Settings} {source : Source}

theorem start_words : (start settings source).state.words =
    (lex settings.keepDocs source.text).filterMap Item.word? := by
  unfold State.words
  rw [(start_position settings source).2]
  refine (words_symbolsFrom none _).trans ?_
  show ((lex settings.keepDocs source.text).filterMap Item.token?).toArray.toList.map _ = _
  rw [List.toList_toArray, List.map_filterMap]
  congr 1
  funext item
  cases item <;> rfl

/-- A parse that has found no error yet had no flaw in its source. -/
theorem lexesTo_of_clean (h : Clean (start settings source).state.log) :
    LexesTo settings.keepDocs source.text (start settings source).state.words := by
  rw [start_words]
  refine flawless_iff.mp ?_
  cases hflawed : (lex settings.keepDocs source.text).filterMap Item.flawed? with
  | nil => rfl
  | cons t rest =>
    let setting := (start settings source).setting
    let s : State := ⟨setting.layout.symbols, 0, 0, .start settings.recover settings.maxErrors, []⟩
    have hlog : (start settings source).state =
        reportFlaws source rest (s.record source (.lexical t.flaw t.text) t.start t.stop) := by
      show reportFlaws source (List.filterMap Item.flawed? _) _ = _
      rw [hflawed]
      rfl
    obtain ⟨more, hmore⟩ := reportFlaws_kept (kept_log_start setting _) rest
      (s.record source (.lexical t.flaw t.text) t.start t.stop) ⟨[], (List.append_nil _).symm⟩
    have hfirst : ¬Clean (s.record source (.lexical t.flaw t.text) t.start t.stop).log :=
      State.not_clean_record ⟨rfl, rfl⟩ _ _ _ _
    refine absurd (fun d hd => h d ?_) hfirst
    rw [hlog]
    exact hmore ▸ List.mem_append_left more hd

theorem start_of_lexesTo {words : List Word} (h : LexesTo settings.keepDocs source.text words) :
    (start settings source).state.words = words ∧ (start settings source).state.log = [] ∧
      (start settings source).state.IsFresh := by
  have hwords := words_of_map h
  have hflawless : (lex settings.keepDocs source.text).filterMap Item.flawed? = [] := by
    refine flawless_iff.mpr ?_
    rw [hwords]
    exact h
  refine ⟨start_words.trans hwords, ?_⟩
  unfold start
  simp only [hflawless]
  exact ⟨rfl, rfl, rfl⟩

theorem start_proper : Proper (start settings source).state.words := by
  intro w hw
  rw [start_words] at hw
  obtain ⟨item, hitem, hword⟩ := List.mem_filterMap.mp hw
  exact items_proper hitem hword

/-- A parse that found no error up to the end of an entry point had no flaw in its source. -/
theorem lexesTo_of_clean_after {entry : Entry}
    (h : Clean ((start settings source).after entry).diagnostics) :
    LexesTo settings.keepDocs source.text (start settings source).state.words := by
  obtain ⟨more, hmore⟩ := (start settings source).after_log entry
  rw [hmore] at h
  exact lexesTo_of_clean fun d hd => h d (List.mem_append_left more hd)

/-- An expression that a fresh session reads without an error is spelled by the words ahead. -/
theorem expression_spells {session : Session} (hfresh : session.state.IsFresh)
    (hproper : Proper session.state.words) (hclean : Clean session.expression.2.diagnostics)
    (hplain : session.expression.1.isPlain = true) :
    Spelled 1 session.expression.1 session.state.words := by
  obtain ⟨hrun, _⟩ : session.ReadsAll .wholeExpr session.expression := enter_readsAll _ _ rfl
  have hends := exec_respects (run_spells _ _) _ session.state (whole_spells hfresh hproper)
    (hrun _ (Nat.le_succ _))
  exact hends _ rfl hplain hclean

/-- An expression that was parsed without an error is spelled by the words of its source. -/
theorem expression_spelled (hclean : Clean (start settings source).expression.2.diagnostics)
    (hplain : (start settings source).expression.1.isPlain = true) :
    LexesTo settings.keepDocs source.text (start settings source).state.words ∧
      Spelled 1 (start settings source).expression.1 (start settings source).state.words := by
  have hlexes := @lexesTo_of_clean_after settings source .expression hclean
  obtain ⟨-, -, hfresh⟩ := start_of_lexesTo hlexes
  exact ⟨hlexes, expression_spells hfresh start_proper hclean hplain⟩

/-- A source whose words spell an expression is read as it. -/
theorem expression_of_spelled {tree : Tree .expr} {words : List Word}
    (hlexes : LexesTo settings.keepDocs source.text words) (hspelled : Spelled 1 tree words) :
    (start settings source).expression.1.erase = tree.erase ∧
      (start settings source).expression.2.diagnostics = [] := by
  let session := start settings source
  obtain ⟨hwords, hlog, _⟩ := start_of_lexesTo hlexes
  obtain ⟨read, t, hread, ht, hwhole⟩ :=
    @whole_evaluates session.setting false session.state tree words hspelled hwords
  have hanswer : session.expression = (read, { session with state := t }) :=
    enter_of_ensures rfl hwhole
  rw [show (start settings source).expression = _ from hanswer]
  exact ⟨hread, ht.trans hlog⟩

/-- The expression is printed and parsed again without an error, and comes back as it was but for
the extents of its parts. -/
def ReadsBack (settings : Settings) (name : String) (tree : Tree .expr) : Prop :=
  Clean (start settings (.ofText name (tree.print 0))).expression.2.diagnostics ∧
    (start settings (.ofText name (tree.print 0))).expression.1.erase = tree.erase

/-- An expression parsed without an error reads back exactly if its text is cut into words that
spell it again, and that is so if no two of them run together. -/
theorem expression_reads_back_iff (settings : Settings) (source : Source) (name : String)
    (hclean : Clean (start settings source).expression.2.diagnostics)
    (hplain : (start settings source).expression.1.isPlain = true) :
    (ReadsBack settings name (start settings source).expression.1 ↔
      ∃ words tree, LexesTo settings.keepDocs ((start settings source).expression.1.print 0) words ∧
        Spelled 1 tree words ∧ tree.erase = (start settings source).expression.1.erase) ∧
    ((start settings source).expression.1.isApart = true →
      ReadsBack settings name (start settings source).expression.1) := by
  obtain ⟨_, hspelled⟩ := expression_spelled hclean hplain
  generalize (start settings source).expression.1 = tree at hplain hspelled
  have hback (words : List Word) (other : Tree .expr)
      (hlexes : LexesTo settings.keepDocs (tree.print 0) words) (hother : Spelled 1 other words)
      (herase : other.erase = tree.erase) : ReadsBack settings name tree := by
    obtain ⟨hread, hlog⟩ :=
      @expression_of_spelled settings (.ofText name (tree.print 0)) other words hlexes hother
    refine ⟨fun d hd => ?_, hread.trans herase⟩
    rw [hlog] at hd
    cases hd
  refine ⟨⟨fun hreads => ?_, fun ⟨words, other, hlexes, hother, herase⟩ =>
    hback words other hlexes hother herase⟩, fun hapart => ?_⟩
  · obtain ⟨hagain, herase⟩ := hreads
    have hplain' : (start settings (.ofText name (tree.print 0))).expression.1.isPlain = true := by
      rw [← Tree.isPlain_erase, herase, Tree.isPlain_erase]
      exact hplain
    obtain ⟨hlexes, hspelled'⟩ := expression_spelled hagain hplain'
    exact ⟨_, _, hlexes, hspelled', herase⟩
  · obtain ⟨us, hprints⟩ : ∃ us, Prints 1 tree us := hspelled.isPrinted start_proper hapart
    have hcuts := hprints.cut [] [] Cuts.nil (fun c hc => by cases hc) (fun hc => by cases hc)
    rw [List.append_nil, List.append_nil] at hcuts
    exact hback us tree hcuts.lexesTo hprints.spelled rfl

end Session

end JavaSyntax
