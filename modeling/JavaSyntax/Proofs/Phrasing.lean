import JavaSyntax.Proofs.Printing
import JavaSyntax.Proofs.TypeSpelling

/-!
Texts put together from words. `CutsAs cs us` says that these characters are cut into words with
these pieces, whatever follows that ends the last of them; so what is known of two texts is known of
the one behind the other. Closing angle brackets are printed one by one and cut as few words, which
is why the pieces are told and not the words.
-/

namespace JavaSyntax

/-- Characters that make no longer operator of closing angle brackets in front of them. -/
def endsAngle (c : Char) : Bool :=
  c != '>' && c != '='

/-- Characters that end a name or a reserved word. -/
def endsWord (c : Char) : Bool :=
  !Unicode.isIdentifierPart c && !Lexer.unreserves c

/-- Characters that names and reserved words are printed in front of. -/
def marks : List Char :=
  [' ', '\n', '<', '>', ',', '.', '[', ']', '(', ';', '?', '*']

theorem endsWord_mark {c : Char} (h : c ∈ marks) : endsWord c = true := by
  have hall : marks.all endsWord = true := by decide
  exact List.all_eq_true.mp hall c h

/-- A text behind a mark ends the word in front of it. -/
theorem follows_mark {c : Char} {rest : List Char} (h : c ∈ marks) :
    Follows endsWord (c :: rest) :=
  follows_cons (endsWord_mark h)

instance (text : String) : Decidable (IsWordText text) :=
  decidable_of_iff (text.toList.head?.any Unicode.isIdentifierStart = true ∧
      text.toList.tail.all Unicode.isIdentifierPart = true) <| by
    unfold IsWordText
    cases text.toList <;> simp [and_assoc]

/-- Symbols that no longer operator starts with. -/
def separators : List Kind :=
  [.comma, .question, .semicolon, .lbracket, .rbracket, .lparen, .rparen, .lbrace, .rbrace]

theorem isFused_of_mem_keywords {k : Kind} (h : k ∈ Kind.keywords) : isFused k = false := by
  have hall : ∀ k ∈ Kind.keywords, isFused k = false := by decide
  exact hall k h

theorem IsWordText.endsAngle {text : String} (h : IsWordText text) :
    Follows endsAngle text.toList := by
  obtain ⟨c, cs, hchars, hc, -⟩ := h
  rw [hchars]
  refine follows_cons ?_
  simp only [JavaSyntax.endsAngle, Bool.and_eq_true, bne_iff_ne]
  constructor <;> rintro rfl <;> exact absurd hc (by decide)

theorem Follows.append {p : Char → Bool} {cs rest : List Char} (h : Follows p cs)
    (h' : Follows p rest) : Follows p (cs ++ rest) := by
  cases cs with
  | nil => exact h'
  | cons c cs => exact follows_cons (h c rfl)

theorem follows_nil {p : Char → Bool} : Follows p [] :=
  fun _ hc => by cases hc

/-- Behind any number of closing angle brackets, these characters are cut into words with these
pieces. -/
def CutsTo (cs : List Char) (us : List Word) : Prop :=
  ∀ n, ∃ ws, Cuts (List.replicate n '>' ++ cs) ws ∧
    pieces ws = List.replicate n (fixed .greater) ++ us

section Angles

variable {cs : List Char} {ws : List Word}

theorem starts_angles {k : Kind} (hk : k ∈ [.greater, .shr, .ushr])
    (hr : Follows (fun c => endsAngle c || k == .ushr && c == '>') cs) :
    Starts (k, k.spelling) cs := by
  have hall : ∀ k ∈ [Kind.greater, .shr, .ushr], k ∈ Kind.operators ∧ k ≠ .slash ∧ k ≠ .dot ∧
      (extensions k).any (fun c => endsAngle c || k == .ushr && c == '>') = false := by
    decide
  obtain ⟨hmem, hslash, hdot, hnone⟩ := hall k hk
  refine starts_operator hmem (hr.mono fun c hc => ?_) (fun h => absurd h hslash)
    fun h => absurd h hdot
  simp only [Bool.not_eq_eq_eq_not, Bool.not_true, List.contains_eq_mem, decide_eq_false_iff_not]
  intro hin
  exact List.any_eq_false.mp hnone c hin hc

/-- Brackets are taken three at a time as long as there are as many. -/
theorem Cuts.cutsTo (h : Cuts cs ws) (hends : Follows endsAngle cs) : CutsTo cs (pieces ws)
  | 0 => ⟨ws, h, rfl⟩
  | 1 => by
    have hstarts : Starts (.greater, Kind.greater.spelling) cs :=
      starts_angles (by decide) (hends.mono fun c hc => by simp [hc])
    exact ⟨fixed .greater :: ws, Cuts.cons hstarts h, rfl⟩
  | 2 => by
    have hstarts : Starts (.shr, Kind.shr.spelling) cs :=
      starts_angles (by decide) (hends.mono fun c hc => by simp [hc])
    exact ⟨fixed .shr :: ws, Cuts.cons hstarts h, rfl⟩
  | n + 3 => by
    obtain ⟨us, hus, hpieces⟩ := h.cutsTo hends n
    have hstarts : Starts (.ushr, Kind.ushr.spelling) (List.replicate n '>' ++ cs) := by
      refine starts_angles (by decide) (Follows.append ?_ (hends.mono fun c hc => by simp [hc]))
      cases n with
      | zero => exact follows_nil
      | succ n => exact follows_cons rfl
    refine ⟨fixed .ushr :: us, Cuts.cons hstarts hus, ?_⟩
    rw [pieces_cons, hpieces]
    rfl

end Angles

namespace CutsTo

variable {cs : List Char} {us : List Word} {k : Kind}

theorem nil : CutsTo [] [] :=
  Cuts.nil.cutsTo follows_nil

theorem close (h : CutsTo cs us) : CutsTo ('>' :: cs) (fixed .greater :: us) := by
  intro n
  obtain ⟨ws, hcuts, hpieces⟩ := h (n + 1)
  refine ⟨ws, ?_, ?_⟩
  · rwa [List.replicate_succ', List.append_assoc] at hcuts
  · rwa [List.replicate_succ', List.append_assoc] at hpieces

theorem word {text : String} (h : CutsTo cs us) (hstarts : Starts (k, text) cs)
    (hends : Follows endsAngle text.toList) (hk : isFused k = false) :
    CutsTo (text.toList ++ cs) ((k, text) :: us) := by
  obtain ⟨ws, hcuts, hpieces⟩ := h 0
  have hfirst : Follows endsAngle (text.toList ++ cs) := by
    obtain ⟨c, ds, hchars, -⟩ := hstarts
    dsimp only at hchars
    rw [hchars] at hends ⊢
    exact follows_cons (hends c rfl)
  have hword := (Cuts.cons hstarts hcuts).cutsTo hfirst
  have hus : pieces ((k, text) :: ws) = (k, text) :: us := by
    rw [pieces_cons, Word.pieces_of_not_fused hk, hpieces]
    rfl
  rwa [hus] at hword

theorem blank {c : Char} (hc : Lexer.isSkipped c = true) (h : CutsTo cs us) :
    CutsTo (c :: cs) us := by
  obtain ⟨ws, hcuts, hpieces⟩ := h 0
  have hends : endsAngle c = true := by
    simp only [endsAngle, Bool.and_eq_true, bne_iff_ne]
    constructor <;> rintro rfl <;> cases hc
  have hblank := (Cuts.skip hc hcuts).cutsTo (follows_cons hends)
  rwa [hpieces] at hblank

theorem separator {c : Char} (h : CutsTo cs us) (hk : k ∈ separators)
    (hchar : k.spelling.toList = [c]) : CutsTo (c :: cs) (fixed k :: us) := by
  have hall : ∀ k ∈ separators, isClosed k = true ∧ isFused k = false ∧
      k.spelling.toList.all endsAngle = true := by
    decide
  obtain ⟨hclosed, hfused, hends⟩ := hall k hk
  rw [hchar, List.all_cons, Bool.and_eq_true] at hends
  have hword := h.word (starts_closed hclosed) (by rw [hchar]; exact follows_cons hends.1) hfused
  rwa [hchar] at hword

end CutsTo

/-- These characters are cut into words with these pieces, in front of what ends a word. -/
def CutsAs (cs : List Char) (us : List Word) : Prop :=
  ∀ rest vs, CutsTo rest vs → Follows endsWord rest → CutsTo (cs ++ rest) (us ++ vs)

namespace CutsAs

variable {cs ds : List Char} {us vs : List Word} {k : Kind}

theorem nil : CutsAs [] [] := fun _ _ h _ => h

theorem append (h : CutsAs cs us) (h' : CutsAs ds vs) (hends : Follows endsWord ds) :
    CutsAs (cs ++ ds) (us ++ vs) := by
  intro rest ws hrest hr
  rw [List.append_assoc, List.append_assoc]
  exact h _ _ (h' _ _ hrest hr) (hends.append hr)

theorem blank {c : Char} (hc : Lexer.isSkipped c = true) (h : CutsAs cs us) :
    CutsAs (c :: cs) us :=
  fun rest vs hrest hr => .blank hc (h rest vs hrest hr)

theorem name {name : String} (hname : IsWordText name) (hfree : isReserved name = false) :
    CutsAs name.toList [(.identifier, name)] := by
  intro rest vs hrest hr
  exact hrest.word (starts_name hname hfree (hr.mono fun c hc => (Bool.and_eq_true_iff.mp hc).1))
    hname.endsAngle rfl

theorem keyword (hk : k ∈ Kind.keywords) : CutsAs k.spelling.toList [fixed k] := by
  intro rest vs hrest hr
  exact hrest.word (starts_reserved hk hr) (isWordText_spelling hk).endsAngle
    (isFused_of_mem_keywords hk)

theorem separator {c : Char} (hk : k ∈ separators) (hchar : k.spelling.toList = [c]) :
    CutsAs [c] [fixed k] :=
  fun _ _ h _ => h.separator hk hchar

/-- A dot must have a name behind it, for it would open a fraction or an ellipsis. -/
theorem dotted {name : String} (h : CutsAs (name.toList ++ cs) us) (hname : IsWordText name) :
    CutsAs ('.' :: (name.toList ++ cs)) (fixed .dot :: us) := by
  intro rest vs hrest hr
  have hbehind := h rest vs hrest hr
  rw [List.append_assoc] at hbehind
  have hdot : CutsTo ('.' :: (name.toList ++ (cs ++ rest))) (fixed .dot :: (us ++ vs)) :=
    hbehind.word (k := .dot) (starts_dot hname) (follows_cons rfl) rfl
  rwa [← List.append_assoc] at hdot

theorem behindDot {name : String} (hname : IsWordText name) (hfree : isReserved name = false) :
    CutsAs ('.' :: name.toList) [fixed .dot, (.identifier, name)] := by
  have h := CutsAs.name hname hfree
  rw [← List.append_nil name.toList] at h ⊢
  exact h.dotted hname

/-- A text is cut into words with its pieces. -/
theorem cuts (h : CutsAs cs us) : ∃ ws, Cuts cs ws ∧ pieces ws = us := by
  obtain ⟨ws, hcuts, hpieces⟩ := h [] [] .nil follows_nil 0
  rw [List.append_nil] at hcuts
  rw [List.append_nil] at hpieces
  exact ⟨ws, hcuts, hpieces⟩

/-- Without closing angle brackets the pieces are the words. -/
theorem cuts_words (h : CutsAs cs us) (hus : ∀ w ∈ us, w.1 ≠ .greater) : Cuts cs us := by
  obtain ⟨ws, hcuts, hpieces⟩ := h.cuts
  obtain ⟨vs, rfl, hvs⟩ := words_of_pieces hus (hpieces.trans (List.append_nil us).symm)
  rwa [pieces_eq_nil hvs, List.append_nil] at hcuts

end CutsAs

end JavaSyntax
