import JavaSyntax.Proofs.Following
import JavaSyntax.Proofs.Lexing

/-!
Texts of the same words. Between its tokens a text may be laid out in any way: blanks, line ends and
comments take part in a parse at one place only, where `non-sealed` is told from a difference by
having no gaps. Texts that agree there and in their words are parsed to the same trees.
-/

namespace JavaSyntax

open Diagnostic (Clean)

/-- Whether `non-sealed` is written here, in three tokens without gaps between them. -/
def Token.isNonSealed : List Token → Bool
  | a :: b :: c :: _ =>
    a.kind == .identifier && a.text == "non" && b.kind == .minus &&
      c.kind == .identifier && c.text == "sealed" && a.stop == b.start && b.stop == c.start
  | _ => false

/-- Two texts without flaws have the same words, and `non-sealed` is written without gaps at the
same places. -/
structure SameWords (text text' : String) : Prop where
  words : ∃ words, LexesTo false text words ∧ LexesTo false text' words
  nonSealed : ∀ i < (tokensOf text).length,
    Token.isNonSealed ((tokensOf text').drop i) = Token.isNonSealed ((tokensOf text).drop i)

namespace Layout

theorem isNonSealed_symbolsFrom (last : Option Nat) (ts : List Token) :
    Lookahead.isNonSealed (symbolsFrom last ts) = Token.isNonSealed ts := by
  match ts with
  | [] | [_] | [_, _] => rfl
  | a :: b :: c :: rest =>
    simp [symbolsFrom, Lookahead.isNonSealed, Token.isNonSealed, Symbol.isWord, Bool.and_assoc]

theorem drop_symbolsFrom (last : Option Nat) (ts : List Token) (i : Nat) :
    ∃ last', (symbolsFrom last ts).drop i = symbolsFrom last' (ts.drop i) := by
  induction i generalizing last ts with
  | zero => exact ⟨last, rfl⟩
  | succ i ih =>
    cases ts with
    | nil => exact ⟨none, rfl⟩
    | cons t rest => exact ih (some t.stop) rest

theorem isNonSealed_drop (last : Option Nat) (ts : List Token) (i : Nat) :
    Lookahead.isNonSealed ((symbolsFrom last ts).drop i) = Token.isNonSealed (ts.drop i) := by
  obtain ⟨last', hdrop⟩ := drop_symbolsFrom last ts i
  rw [hdrop, isNonSealed_symbolsFrom]

end Layout

/-- Symbols look alike if they are the same words with `non-sealed` at the same places. -/
theorem Along.of_words {ts us : List Symbol} (hwords : us.map Symbol.word = ts.map Symbol.word)
    (hnonSealed : ∀ i, Lookahead.isNonSealed (us.drop i) = Lookahead.isNonSealed (ts.drop i)) :
    Along [] ts us := by
  induction ts generalizing us with
  | nil =>
    rw [List.map_nil, List.map_eq_nil_iff] at hwords
    rw [hwords]
    exact .nil rfl
  | cons x xs ih =>
    cases us with
    | nil => cases hwords
    | cons y ys =>
      obtain ⟨hword, hrest⟩ := List.cons.inj hwords
      obtain ⟨hkind, htext⟩ := Prod.mk.inj hword
      exact .cons hkind htext (hnonSealed 0) (fun _ => .inl rfl)
        (ih hrest fun i => hnonSealed (i + 1))

namespace Session

variable {settings settings' : Settings} {source source' : Source}

/-- Texts of the same words are parsed side by side. -/
theorem start_beside (h : SameWords source.text source'.text) :
    (start settings source).state.Beside 0 [] (start settings' source').state := by
  obtain ⟨words, hlexes, hlexes'⟩ := h.words
  obtain ⟨hwords, -, -⟩ := @start_of_lexesTo settings source words (lexesTo_keepDocs hlexes)
  obtain ⟨hwords', -, -⟩ := @start_of_lexesTo settings' source' words (lexesTo_keepDocs hlexes')
  have hsame := hwords'.trans hwords.symm
  rw [start_state hlexes, start_state hlexes'] at hsame
  have hlength : (tokensOf source'.text).length = (tokensOf source.text).length := by
    have hcount := congrArg List.length hsame
    simpa [State.words, words_symbolsFrom] using hcount
  rw [start_state hlexes, start_state hlexes']
  refine ⟨.of_words hsame fun i => ?_, rfl, rfl, rfl, rfl⟩
  rw [Layout.isNonSealed_drop, Layout.isNonSealed_drop]
  by_cases hi : i < (tokensOf source.text).length
  · exact h.nonSealed i hi
  · rw [List.drop_eq_nil_of_le (by omega), List.drop_eq_nil_of_le (by omega)]

/-- An entry point that reports nothing comes to the same in a session that starts side by side. -/
theorem enter_beside {session session' : Session} {α : Type} {entry : Nonterminal α}
    (hwhole : entry.isWhole = true) (hentry : entry.move 0 = entry) {spare spare' : α}
    (hs : session.state.Beside 0 [] session'.state)
    (hfresh : (session.enter entry spare).2.state.IsFresh) :
    (session'.enter entry spare').1 = entry.movable.move 0 (session.enter entry spare).1 ∧
      (session'.enter entry spare').2.state.IsFresh := by
  obtain ⟨hrun, -⟩ := session.enter_readsAll spare hwhole
  obtain ⟨hrun', -⟩ := session'.enter_readsAll spare' hwhole
  have hfollows := run_follows session.setting session'.setting 0 []
    (max (fuel session.state) (fuel session'.state)) entry false session.state session'.state _ _
    (hrun _ (Nat.le_max_left ..)) hfresh hs
  dsimp only at hfollows
  rw [hentry, hrun' _ (Nat.le_max_right ..)] at hfollows
  rcases hfollows with ⟨-, htail⟩ | ⟨t', hsame, ht'⟩
  · exact absurd rfl htail
  · obtain ⟨hvalue, hstate⟩ := Prod.mk.inj (Option.some.inj hsame)
    exact ⟨Except.ok.inj hvalue, hstate ▸ ht'.isFresh⟩

/-- How a text is laid out decides nothing. If two texts without flaws have the same words, with
`non-sealed` written without gaps at the same places, and one of them is parsed without an error,
then so is the other, to the same tree. This holds for each entry point and under any settings. -/
theorem parse_same_words (settings settings' : Settings) (source source' : Source)
    (h : SameWords source.text source'.text) :
    let session := start settings source
    let session' := start settings' source'
    (Clean session.unit.2.diagnostics →
      Clean session'.unit.2.diagnostics ∧ session'.unit.1 = session.unit.1) ∧
    (Clean session.expression.2.diagnostics →
      Clean session'.expression.2.diagnostics ∧ session'.expression.1 = session.expression.1) ∧
    (Clean session.typeUse.2.diagnostics →
      Clean session'.typeUse.2.diagnostics ∧ session'.typeUse.1 = session.typeUse.1) := by
  intro session session'
  have hs : session.state.Beside 0 [] session'.state := start_beside h
  refine ⟨fun hclean => ?_, fun hclean => ?_, fun hclean => ?_⟩
  · obtain ⟨hvalue, hfresh⟩ := @enter_beside _ _ _ (.items .empty) rfl
      (congrArg Nonterminal.items (Movable.unit_move_zero .empty)) _ _ hs
      (isFresh_of_clean (after_unit _) hclean)
    exact ⟨clean_of_isFresh (after_unit _) hfresh, hvalue.trans (Movable.unit_move_zero _)⟩
  · obtain ⟨hvalue, hfresh⟩ := @enter_beside _ _ _ .wholeExpr rfl rfl _ _ hs
      (isFresh_of_clean (after_expression _) hclean)
    exact ⟨clean_of_isFresh (after_expression _) hfresh, hvalue.trans (Tree.move_zero _)⟩
  · obtain ⟨hvalue, hfresh⟩ := @enter_beside _ _ _ .wholeType rfl rfl _ _ hs
      (isFresh_of_clean (after_typeUse _) hclean)
    exact ⟨clean_of_isFresh (after_typeUse _) hfresh, hvalue.trans (Tree.move_zero _)⟩

/-- A class on one line, and the same class on three with a comment. Both are `non-sealed`. -/
theorem parse_same_words_class :
    let session := start .standard (.ofText "A.java" "non-sealed class A extends B { int x = 1; }")
    let session' := start .standard (.ofText "A.java"
      "non-sealed class A\n  extends B /* open */ \x7b\n  int x=1; \x7d\n")
    SameWords "non-sealed class A extends B { int x = 1; }"
        "non-sealed class A\n  extends B /* open */ \x7b\n  int x=1; \x7d\n" ∧
      Clean session.unit.2.diagnostics ∧ session.unit.1.forms.length = 1 ∧
      Clean session'.unit.2.diagnostics ∧ session'.unit.1 = session.unit.1 := by
  intro session session'
  have hwords : SameWords "non-sealed class A extends B { int x = 1; }"
      "non-sealed class A\n  extends B /* open */ \x7b\n  int x=1; \x7d\n" := by
    refine ⟨⟨(tokensOf "non-sealed class A extends B { int x = 1; }").map fun t => (t.kind, t.text),
      ?_, ?_⟩, ?_⟩
    · unfold LexesTo
      decide
    · unfold LexesTo
      decide
    · decide
  have hclean : Clean session.unit.2.diagnostics := by
    unfold Clean
    decide
  exact ⟨hwords, hclean, by decide, (parse_same_words _ _ _ _ hwords).1 hclean⟩

end Session

end JavaSyntax
