import JavaSyntax.Proofs.Clipping
import JavaSyntax.Proofs.Joining

/-!
Stretches of a text between two of its tokens. The characters from the start of one token to the end
of another are cut into the same words as they were in the text, whatever blanks come behind them.
-/

namespace JavaSyntax

/-- What the grammar reads of a token. -/
def Token.word (t : Token) : Word := (t.kind, t.text)

/-- Without flaws there are only tokens. -/
theorem map_token_of_sound {items : List Item} (h : ∀ item ∈ items, item.flawed? = none) :
    items = (items.filterMap Item.token?).map .token := by
  induction items with
  | nil => rfl
  | cons item items ih =>
    obtain ⟨hitem, hitems⟩ := List.forall_mem_cons.mp h
    cases item with
    | token t => exact congrArg (_ :: ·) (ih hitems)
    | flawed t => cases hitem

/-- A blank or a comment in front of words. -/
theorem Cuts.piece {c : Char} {cs : List Char} {found : Lexer.Piece} {n : Nat} {words : List Word}
    (hpiece : Lexer.piece c cs = (found, n)) (hskip : found.isSkipped = true)
    (h : Cuts ((c :: cs).drop n) words) : Cuts (c :: cs) words := by
  intro keepDocs fuel start waiting hfuel
  obtain ⟨fuel, rfl⟩ : ∃ m, fuel = m + 1 := ⟨fuel - 1, by simp at hfuel; omega⟩
  have hpos := Lexer.piece_pos hpiece
  have hrest (waiting : Option String) := h keepDocs fuel
    (start + byteLength ((c :: cs).take n)) waiting
    (by simp only [List.length_drop, List.length_cons] at hfuel ⊢; omega)
  simp only [Lexer.items, hpiece]
  cases found with
  | blank | comment | doc => exact hrest _
  | token | flaw => cases hskip

namespace Lexer

/-- The characters from a token on. -/
theorem items_from {fuel start : Nat} {cs : List Char} {before after : List Token} {t : Token}
    (h : items piece false fuel start none cs = (before ++ t :: after).map .token) :
    ∃ pre post fuel', cs = pre ++ post ∧ start + byteLength pre = t.start ∧
      items piece false fuel' t.start none post = (t :: after).map .token := by
  induction fuel generalizing start cs before with
  | zero => simp [items] at h
  | succ fuel ih =>
    cases cs with
    | nil => simp [items] at h
    | cons c cs =>
      rcases hpiece : piece c cs with ⟨found, n⟩
      have hitems := items_cons hpiece fuel start
      rw [h] at hitems
      have hlater {before' : List Token} (hrest : items piece false fuel
          (start + byteLength ((c :: cs).take n)) none ((c :: cs).drop n) =
            (before' ++ t :: after).map .token) : ∃ pre post fuel', c :: cs = pre ++ post ∧
          start + byteLength pre = t.start ∧
          items piece false fuel' t.start none post = (t :: after).map .token := by
        obtain ⟨pre, post, fuel', hcs, hstart, hpost⟩ := ih hrest
        refine ⟨(c :: cs).take n ++ pre, post, fuel', ?_, ?_, hpost⟩
        · rw [List.append_assoc, ← hcs, List.take_append_drop]
        · rw [byteLength_append, ← hstart, Nat.add_assoc]
      cases found with
      | blank | comment | doc => exact hlater hitems.symm
      | flaw f => cases before <;> cases hitems
      | token kind =>
        cases before with
        | nil =>
          refine ⟨[], c :: cs, fuel + 1, rfl, ?_, ?_⟩
          · obtain ⟨hfirst, -⟩ := List.cons.inj hitems
            cases hfirst
            rfl
          · obtain ⟨hfirst, -⟩ := List.cons.inj hitems
            cases hfirst
            exact h
        | cons b before =>
          exact hlater (List.cons.inj hitems).2.symm

/-- The characters up to the end of a token are cut into the tokens up to there. -/
structure Fronts (start : Nat) (cs : List Char) (taken : List Token) (front back : List Char) :
    Prop where
  split : cs = front ++ back
  empty : front = [] ↔ taken = []
  stop : ∀ t ∈ taken.getLast?, start + byteLength front = t.stop
  cuts : ∀ rest words, Spaced rest → Cuts rest words →
    Cuts (front ++ rest) (taken.map Token.word ++ words)

theorem fronts_nil (start : Nat) (cs : List Char) : Fronts start cs [] [] cs where
  split := rfl
  empty := by simp
  stop t ht := by cases ht
  cuts _ _ _ hcuts := hcuts

section Pieces

variable {c : Char} {cs front back : List Char} {found : Piece} {n start : Nat} {taken : List Token}

/-- The characters of a piece without a flaw, and those behind it. -/
theorem piece_split (hpiece : piece c cs = (found, n)) (hsound : found.isFlaw = false)
    (hrest : (c :: cs).drop n = front ++ back) : ∃ more, (c :: cs).take n = c :: more ∧
      cs = more ++ front ++ back ∧ n = more.length + 1 := by
  have hle := (piece_separated hpiece hsound).le
  obtain ⟨m, rfl⟩ := Nat.exists_eq_succ_of_ne_zero (Nat.pos_iff_ne_zero.mp (piece_pos hpiece))
  refine ⟨cs.take m, rfl, ?_, ?_⟩
  · rw [List.append_assoc, ← hrest, List.drop_succ_cons, List.take_append_drop]
  · rw [List.length_take_of_le (Nat.le_of_succ_le_succ hle)]

theorem Fronts.skipped (hpiece : piece c cs = (found, n)) (hskip : found.isSkipped = true)
    (htaken : taken ≠ [])
    (h : Fronts (start + byteLength ((c :: cs).take n)) ((c :: cs).drop n) taken front back) :
    Fronts start (c :: cs) taken ((c :: cs).take n ++ front) back := by
  have hsound : found.isFlaw = false := by cases found <;> first | rfl | cases hskip
  obtain ⟨more, htext, rfl, rfl⟩ := piece_split hpiece hsound h.split
  have hpos : 0 < front.length := List.length_pos_iff.mpr fun hnil => htaken (h.empty.mp hnil)
  refine ⟨by rw [htext]; simp, by simp [htaken], fun t ht => ?_, fun rest words hrest hwords => ?_⟩
  · rw [byteLength_append, ← Nat.add_assoc]
    exact h.stop t ht
  · have hagain := skipped_clipped hpiece hskip (by rw [List.length_append]; omega) rest
    have hdrop : (c :: (more ++ front ++ rest)).drop (more.length + 1) = front ++ rest := by
      rw [List.drop_succ_cons, List.append_assoc, List.drop_left]
    rw [htext]
    exact Cuts.piece hagain hskip (hdrop ▸ h.cuts rest words hrest hwords)

theorem Fronts.token {t : Token} (hpiece : piece c cs = (.token t.kind, n))
    (ht : t.text = String.ofList ((c :: cs).take n))
    (hstop : start + byteLength ((c :: cs).take n) = t.stop)
    (hfree : t.kind = .identifier → isReserved t.text = false)
    (h : Fronts (start + byteLength ((c :: cs).take n)) ((c :: cs).drop n) taken front back) :
    Fronts start (c :: cs) (t :: taken) ((c :: cs).take n ++ front) back := by
  obtain ⟨more, htext, rfl, rfl⟩ := piece_split hpiece rfl h.split
  refine ⟨by rw [htext]; simp, by rw [htext]; simp, fun u hu => ?_,
    fun rest words hrest hwords => ?_⟩
  · rw [byteLength_append, ← Nat.add_assoc]
    cases taken with
    | nil =>
      cases hu
      obtain rfl : front = [] := h.empty.mpr rfl
      exact hstop
    | cons v taken =>
      rw [List.getLast?_cons_cons] at hu
      exact h.stop u hu
  · have hname : t.kind = .identifier →
        isReserved (String.ofList ((c :: (more ++ front)).take (more.length + 1))) = false := by
      rw [List.take_succ_cons, List.take_left, ← htext, ← ht]
      exact hfree
    have hagain := piece_clipped hpiece (by rw [List.length_append]; omega) hname hrest
    have hchars : t.text.toList = c :: more := by rw [ht, htext, String.toList_ofList]
    have hstarts : Starts t.word (front ++ rest) := by
      refine ⟨c, more, hchars, ?_⟩
      rw [← List.append_assoc]
      exact hagain.trans (by rw [show t.word.2 = t.text from rfl, hchars]; rfl)
    have hcut := Cuts.cons hstarts (h.cuts rest words hrest hwords)
    rw [hchars, ← htext, ← List.append_assoc] at hcut
    exact hcut

end Pieces

theorem items_upTo {fuel start : Nat} {cs : List Char} {taken after : List Token}
    (h : items piece false fuel start none cs = (taken ++ after).map .token)
    (hfree : ∀ t ∈ taken, t.kind = .identifier → isReserved t.text = false) :
    ∃ front back, Fronts start cs taken front back := by
  induction fuel generalizing start cs taken with
  | zero =>
    obtain rfl : taken = [] := by simp_all [items]
    exact ⟨_, _, fronts_nil start cs⟩
  | succ fuel ih =>
    cases taken with
    | nil => exact ⟨_, _, fronts_nil start cs⟩
    | cons t taken =>
      cases cs with
      | nil => cases h
      | cons c cs =>
        rcases hpiece : piece c cs with ⟨found, n⟩
        have hitems := items_cons hpiece fuel start
        rw [h] at hitems
        cases found with
        | blank | comment | doc =>
          obtain ⟨front, back, hfronts⟩ := ih hitems.symm hfree
          exact ⟨_, back, hfronts.skipped hpiece rfl (List.cons_ne_nil t taken)⟩
        | flaw f => cases hitems
        | token kind =>
          obtain ⟨hfirst, hrest⟩ := List.cons.inj hitems
          obtain ⟨hfree, hfrees⟩ := List.forall_mem_cons.mp hfree
          obtain ⟨front, back, hfronts⟩ := ih hrest.symm hfrees
          cases hfirst
          exact ⟨_, back, hfronts.token hpiece rfl rfl hfree⟩

/-- The characters between two tokens of a text without flaws. -/
theorem lex_slice {text : String} {before taken after : List Token} {first last : Token}
    (hsound : ∀ item ∈ lex false text, item.flawed? = none)
    (htokens : tokensOf text = before ++ taken ++ after) (hfirst : taken.head? = some first)
    (hlast : taken.getLast? = some last)
    (hfree : ∀ t ∈ taken, t.kind = .identifier → isReserved t.text = false) :
    ∃ pre slice post, text.toList = pre ++ slice ++ post ∧ byteLength pre = first.start ∧
      byteLength pre + byteLength slice = last.stop ∧
      ∀ rest words, Spaced rest → Cuts rest words →
        Cuts (slice ++ rest) (taken.map Token.word ++ words) := by
  obtain ⟨taken, rfl⟩ := List.head?_eq_some_iff.mp hfirst
  have hitems : lex false text = (before ++ first :: (taken ++ after)).map .token := by
    rw [← List.cons_append, ← List.append_assoc, ← htokens]
    exact map_token_of_sound hsound
  obtain ⟨pre, post, fuel, htext, hstart, hpost⟩ := items_from hitems
  rw [← List.cons_append] at hpost
  obtain ⟨slice, back, rfl, -, hstop, hcuts⟩ := items_upTo hpost hfree
  rw [Nat.zero_add] at hstart
  exact ⟨pre, slice, back, by rw [htext, List.append_assoc], hstart,
    hstart ▸ hstop last hlast, hcuts⟩

end Lexer

end JavaSyntax
