import JavaSyntax.Proofs.Clipping
import JavaSyntax.Proofs.Lexing

/-!
The lexemes of a text with blanks between them. Each is found again, as the lexer finds nothing that
a blank could change; but a word that only what stood behind it kept from being reserved is reserved
now.
-/

namespace JavaSyntax

/-- The words of a text. -/
def wordsOf (text : String) : List Word :=
  (lex false text).filterMap Item.word?

/-- The lexemes of a text with one blank between any two. -/
def respaced (text : String) : String :=
  " ".intercalate ((wordsOf text).map Prod.snd)

namespace Word

/-- The word as it is with nothing behind it: an identifier may be spelled like a reserved word. -/
def alone : Word → Word
  | (.identifier, text) => (Lexer.wordKind text.toList [], text)
  | word => word

theorem snd_alone (w : Word) : w.alone.2 = w.2 := by
  unfold alone
  split <;> rfl

theorem alone_of_free {w : Word} (h : w.1 = .identifier → isReserved w.2 = false) :
    w.alone = w := by
  obtain ⟨k, text⟩ := w
  by_cases hk : k = .identifier
  · subst hk
    simp [alone, Lexer.wordKind_free (h rfl)]
  · simp [alone, hk]

theorem alone_of_reserved {k : Kind} (hk : k ∈ Kind.keywords) :
    alone (.identifier, k.spelling) = (k, k.spelling) := by
  simp [alone, Lexer.wordKind_spelling hk]

theorem alone_eq_iff (w : Word) :
    w.alone = w ↔ (w.1 = .identifier → isReserved w.2 = false) := by
  refine ⟨fun h hk => ?_, alone_of_free⟩
  cases hreserved : isReserved w.2 with
  | false => rfl
  | true =>
    obtain ⟨l, hl, hspell⟩ := List.any_eq_true.mp hreserved
    have hw : w = (.identifier, l.spelling) := Prod.ext hk (beq_iff_eq.mp hspell).symm
    rw [hw, alone_of_reserved hl] at h
    have hl' : l = .identifier := (Prod.mk.inj h).1
    rw [hl'] at hl
    exact absurd hl (by decide)

end Word

/-- Each word is found again from its characters alone. -/
theorem starts_alone {text : String} {w : Word} (h : w ∈ wordsOf text) {rest : List Char}
    (hrest : Lexer.Spaced rest) : Starts w.alone rest := by
  obtain ⟨item, hitem, hword⟩ := List.mem_filterMap.mp h
  cases item with
  | flawed t => cases hword
  | token t =>
    cases hword
    obtain ⟨c, cs, n, hpiece, htext⟩ := Lexer.piece_of_mem hitem
    by_cases hfree : t.kind = .identifier → isReserved t.text = false
    · rw [Word.alone_of_free hfree, htext]
      exact Lexer.starts_of_piece hpiece (htext ▸ hfree) hrest
    · obtain ⟨hk, hreserved⟩ := Classical.not_imp.mp hfree
      obtain ⟨l, hl, hspell⟩ := List.any_eq_true.mp (Bool.eq_true_of_not_eq_false hreserved)
      rw [hk, ← beq_iff_eq.mp hspell, Word.alone_of_reserved hl]
      exact starts_reserved hl (hrest.mono fun c hc => by
        simpa using Lexer.not_of_isSpacing
          (p := fun c => Unicode.isIdentifierPart c || Lexer.unreserves c) hc (by decide))

/-- Lexing the lexemes of any text again gives the same words, each as it is alone, and no flaw. -/
theorem lexesTo_respaced (text : String) :
    LexesTo false (respaced text) ((wordsOf text).map Word.alone) := by
  have htexts : (wordsOf text).map Prod.snd = ((wordsOf text).map Word.alone).map Prod.snd := by
    rw [List.map_map]
    exact List.map_congr_left fun w _ => (Word.snd_alone w).symm
  rw [respaced, htexts]
  refine (Cuts.intercalate fun w hw rest hrest => ?_).lexesTo
  obtain ⟨v, hv, rfl⟩ := List.mem_map.mp hw
  exact starts_alone hv (hrest.mono fun c hc => by rw [beq_iff_eq.mp hc]; rfl)

/-- They are the same words unless an identifier is spelled like a reserved word. -/
theorem wordsOf_respaced_iff (text : String) : wordsOf (respaced text) = wordsOf text ↔
    ∀ w ∈ wordsOf text, w.1 = .identifier → isReserved w.2 = false := by
  have hwords : wordsOf (respaced text) = (wordsOf text).map Word.alone :=
    words_of_map (lexesTo_respaced text)
  rw [hwords]
  calc (wordsOf text).map Word.alone = wordsOf text
      ↔ (wordsOf text).map Word.alone = (wordsOf text).map id := by rw [List.map_id]
    _ ↔ ∀ w ∈ wordsOf text, Word.alone w = w := List.map_inj_left
    _ ↔ _ := forall₂_congr fun w _ => Word.alone_eq_iff w

example : wordsOf "class\uFEFF" = [(.identifier, "class")] ∧
    wordsOf (respaced "class\uFEFF") = [(.classKw, "class")] := by
  decide +kernel

end JavaSyntax
