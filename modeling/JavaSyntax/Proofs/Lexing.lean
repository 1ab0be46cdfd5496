import JavaSyntax.Proofs.RoundTrip

/-!
What the grammar sees of a text. Documentation is kept beside the tokens and hides nothing else, so
a parse starts from the same symbols whether it is kept or not.
-/

namespace JavaSyntax

/-- A token without its documentation. -/
def Token.bare (t : Token) : Token :=
  { t with doc := none }

namespace Item

/-- An item without its documentation. -/
def bare : Item → Item
  | .token t => .token t.bare
  | .flawed t => .flawed t

theorem token?_bare (item : Item) : item.bare.token? = item.token?.map Token.bare := by
  cases item <;> rfl

theorem flawed?_bare (item : Item) : item.bare.flawed? = item.flawed? := by
  cases item <;> rfl

end Item

/-- The tokens of a text. -/
def tokensOf (text : String) : List Token :=
  (lex false text).filterMap Item.token?

namespace Lexer

/-- Documentation that waits or is kept changes nothing but the documentation of tokens. -/
theorem items_bare (next : Cutter) (keepDocs : Bool) (fuel start : Nat) (waiting : Option String)
    (cs : List Char) : (items next keepDocs fuel start waiting cs).map Item.bare =
      items next false fuel start none cs := by
  induction fuel generalizing start waiting cs with
  | zero => rfl
  | succ fuel ih =>
    cases cs with
    | nil => rfl
    | cons c cs =>
      rcases hpiece : next c cs with ⟨found, n⟩
      simp only [items, hpiece]
      cases found with
      | blank | comment | doc => exact ih ..
      | token kind => exact congrArg _ (ih ..)
      | flaw flaw => exact congrArg _ (ih ..)

end Lexer

theorem lex_bare (keepDocs : Bool) (text : String) :
    (lex keepDocs text).map Item.bare = lex false text :=
  Lexer.items_bare ..

/-- Keeping documentation changes no words. -/
theorem words_lex (keepDocs : Bool) (text : String) :
    (lex keepDocs text).map Item.word? = (lex false text).map Item.word? := by
  rw [← lex_bare keepDocs text, List.map_map]
  congr 1
  funext item
  cases item <;> rfl

theorem lexesTo_keepDocs {keepDocs : Bool} {text : String} {words : List Word}
    (h : LexesTo false text words) : LexesTo keepDocs text words :=
  (words_lex keepDocs text).trans h

theorem lexesTo_bare {keepDocs : Bool} {text : String} {words : List Word}
    (h : LexesTo keepDocs text words) : LexesTo false text words :=
  (words_lex keepDocs text).symm.trans h

/-- Keeping documentation changes no flaws. -/
theorem flawed_lex (keepDocs : Bool) (text : String) :
    (lex keepDocs text).filterMap Item.flawed? = (lex false text).filterMap Item.flawed? := by
  rw [← lex_bare keepDocs text, List.filterMap_map]
  congr 1
  funext item
  exact item.flawed?_bare.symm

theorem bare_tokens (keepDocs : Bool) (text : String) :
    ((lex keepDocs text).filterMap Item.token?).map Token.bare = tokensOf text := by
  rw [tokensOf, ← lex_bare keepDocs text, List.filterMap_map, List.map_filterMap]
  congr 1
  funext item
  exact item.token?_bare.symm

namespace Layout

theorem symbolsFrom_bare (last : Option Nat) (tokens : List Token) :
    symbolsFrom last (tokens.map Token.bare) = symbolsFrom last tokens := by
  induction tokens generalizing last with
  | nil => rfl
  | cons t rest ih => exact congrArg (_ :: ·) (ih (some t.stop))

/-- The symbols of a text, whatever becomes of its documentation. -/
theorem symbols_lex (keepDocs : Bool) (text : String) :
    symbolsFrom none ((lex keepDocs text).filterMap Item.token?) =
      symbolsFrom none (tokensOf text) := by
  rw [← bare_tokens keepDocs text, symbolsFrom_bare]

end Layout

/-- The layout of a text, whatever becomes of its documentation. -/
def Layout.bare (source : Source) : Layout :=
  ⟨source, (tokensOf source.text).toArray⟩

theorem Layout.bare_tokens (source : Source) (i : Nat) :
    (Layout.bare source).tokens[i]? = (tokensOf source.text)[i]? :=
  List.getElem?_toArray ..

theorem start_tokens (settings : Settings) (source : Source) (i : Nat) :
    (Session.start settings source).layout.tokens[i]?.map Token.bare =
      (Layout.bare source).tokens[i]? := by
  rw [Layout.bare_tokens, ← bare_tokens settings.keepDocs, List.getElem?_map,
    ← Array.getElem?_toList]
  rfl

theorem offset_start (settings : Settings) (source : Source) (m : Mark) :
    (Session.start settings source).layout.offset m = (Layout.bare source).offset m := by
  cases m with
  | before i bytes =>
    rw [Layout.offset, Layout.offset, ← start_tokens settings source i, Option.map_map]
    rfl
  | after i =>
    rw [Layout.offset, Layout.offset, ← start_tokens settings source i, Option.map_map]
    rfl
  | eof => rfl

theorem span_start (settings : Settings) (source : Source) (e : Extent) :
    (Session.start settings source).layout.span e = (Layout.bare source).span e := by
  unfold Layout.span
  rw [offset_start, offset_start]
  rfl

namespace Session

open Diagnostic (Clean)

/-- A parse starts from the symbols of its text. -/
theorem start_ahead (settings : Settings) (source : Source) :
    (start settings source).state.ahead =
      Layout.symbolsFrom none (tokensOf source.text) := by
  rw [(start_position settings source).2, ← Layout.symbols_lex settings.keepDocs]
  rfl

/-- A parse starts in front of its symbols, with the flaws of its text reported. -/
theorem start_state_eq (settings : Settings) (source : Source) :
    (start settings source).state =
      reportFlaws source ((lex false source.text).filterMap Item.flawed?)
        ⟨Layout.symbolsFrom none (tokensOf source.text), 0, 0,
          .start settings.recover settings.maxErrors, []⟩ := by
  rw [← flawed_lex settings.keepDocs, ← Layout.symbols_lex settings.keepDocs]
  rfl

/-- The state in which a text without flaws is parsed. -/
theorem start_state {settings : Settings} {source : Source} {words : List Word}
    (h : LexesTo false source.text words) :
    (start settings source).state = ⟨Layout.symbolsFrom none (tokensOf source.text), 0, 0,
      .start settings.recover settings.maxErrors, []⟩ := by
  have hflawless : (lex false source.text).filterMap Item.flawed? = [] := by
    refine flawless_iff.mpr ?_
    rw [words_of_map h]
    exact h
  rw [start_state_eq, hflawless]
  rfl

/-- A text that is parsed without an error has no flaws. -/
theorem lexesTo_of_clean_unit {settings : Settings} {source : Source}
    (h : Clean (start settings source).unit.2.diagnostics) :
    ∃ words, LexesTo false source.text words :=
  ⟨_, lexesTo_bare (@lexesTo_of_clean_after settings source .unit h)⟩

theorem lexesTo_of_clean_typeUse {settings : Settings} {source : Source}
    (h : Clean (start settings source).typeUse.2.diagnostics) :
    LexesTo settings.keepDocs source.text (start settings source).state.words :=
  @lexesTo_of_clean_after settings source .typeUse h

end Session

end JavaSyntax
