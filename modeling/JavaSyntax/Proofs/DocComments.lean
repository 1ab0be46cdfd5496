import JavaSyntax.Proofs.Spans
import JavaSyntax.Proofs.Clipping

/-!
Documentation comments of declarations. The pieces of a text are cut once more here, all of them in
order, so that those between two tokens can be named. A declaration has the last documentation
comment among the pieces in front of its first token, as far as the token before that; flawed texts
and other comments may lie between the two. So it is in trees with errors in them too.
-/

namespace JavaSyntax

namespace Lexer

/-- A piece of a text with its characters. -/
structure Cut where
  piece : Piece
  text : List Char

namespace Cut

def isToken (cut : Cut) : Bool :=
  match cut.piece with
  | .token _ => true
  | _ => false

/-- The body of a documentation comment. -/
def doc? (cut : Cut) : Option (List Char) :=
  match cut.piece with
  | .doc body => some body
  | _ => none

end Cut

/-- The pieces of a text, from its start to its end. The fuel is the length of the text. -/
def cuts : Nat → List Char → List Cut
  | 0, _ => []
  | _ + 1, [] => []
  | fuel + 1, c :: cs =>
    let (found, n) := piece c cs
    ⟨found, (c :: cs).take n⟩ :: cuts fuel ((c :: cs).drop n)

/-- The characters of pieces that lie one behind the other. -/
def texts (pieces : List Cut) : List Char :=
  pieces.flatMap Cut.text

/-- What the last documentation comment among some pieces says, if documentation is kept. -/
def lastDoc (keepDocs : Bool) (pieces : List Cut) : Option String :=
  if keepDocs then (pieces.filterMap Cut.doc?).getLast?.map DocText.ofBody else none

/-- These are the pieces between the token that starts at a byte offset and the token before it, or
the start of the text. -/
def Between (all : List Cut) (offset : Nat) (between : List Cut) : Prop :=
  ∃ front token back, all = front ++ between ++ token :: back ∧ token.isToken = true ∧
    offset = byteLength (texts (front ++ between)) ∧
    (∀ cut ∈ front.getLast?, cut.isToken = true) ∧ ∀ cut ∈ between, cut.isToken = false

end Lexer

/-- The pieces of a source. -/
def Source.cuts (source : Source) : List Lexer.Cut :=
  Lexer.cuts source.text.toList.length source.text.toList

/-- What types, methods, constructors and fields keep of what stood in front of them. -/
def Tree.front? : {c : Category} → Tree c → Option Front
  | _, .typeDecl front _ _ _ _ _ => some front
  | _, .field (.varDecl front _ _ _ _) => some front
  | _, .method front _ _ _ _ _ _ _ _ _ => some front
  | _, .constructor front _ _ _ _ _ _ _ _ => some front
  | _, _ => none

/-- The documentation that a declaration keeps is what stands last in front of its first token,
behind the token before. -/
def Tree.Documented (source : Source) (keepDocs : Bool) (layout : Layout) {c : Category}
    (tree : Tree c) : Prop :=
  ∀ front, tree.front? = some front → ∃ extent between, tree.extent? = some extent ∧
    Lexer.Between source.cuts (layout.offset extent.start) between ∧
    layout.docOf front.doc = Lexer.lastDoc keepDocs between

namespace Lexer

/-! Pieces. -/

@[simp] theorem texts_append (front back : List Cut) :
    texts (front ++ back) = texts front ++ texts back :=
  List.flatMap_append

theorem cuts_cons {c : Char} {cs : List Char} {found : Piece} {n : Nat}
    (h : piece c cs = (found, n)) (fuel : Nat) :
    cuts (fuel + 1) (c :: cs) = ⟨found, (c :: cs).take n⟩ :: cuts fuel ((c :: cs).drop n) := by
  simp only [cuts, h]

/-- Cutting a text loses none of it. -/
theorem texts_cuts (fuel : Nat) (cs : List Char) (hfuel : cs.length ≤ fuel) :
    texts (cuts fuel cs) = cs := by
  induction fuel generalizing cs with
  | zero =>
    rw [List.length_eq_zero_iff.mp (Nat.le_zero.mp hfuel)]
    rfl
  | succ fuel ih =>
    cases cs with
    | nil => rfl
    | cons c cs =>
      rcases hpiece : piece c cs with ⟨found, n⟩
      have hpos := piece_pos hpiece
      have hrest : ((c :: cs).drop n).length ≤ fuel := by
        rw [List.length_drop]
        omega
      rw [cuts_cons hpiece, texts, List.flatMap_cons]
      exact (congrArg _ (ih _ hrest)).trans (List.take_append_drop n (c :: cs))

/-- Each cut is a piece of some text. -/
theorem piece_of_mem_cuts {fuel : Nat} {cs : List Char} {cut : Cut} (h : cut ∈ cuts fuel cs) :
    ∃ d ds n, piece d ds = (cut.piece, n) ∧ cut.text = (d :: ds).take n := by
  induction fuel generalizing cs with
  | zero => cases h
  | succ fuel ih =>
    cases cs with
    | nil => cases h
    | cons c cs =>
      rcases hpiece : piece c cs with ⟨found, n⟩
      rw [cuts_cons hpiece] at h
      rcases List.mem_cons.mp h with rfl | h
      · exact ⟨c, cs, n, hpiece, rfl⟩
      · exact ih h

/-- The body of a documentation comment lies between its delimiters. -/
theorem text_of_doc {c : Char} {cs body : List Char} {n : Nat} (h : piece c cs = (.doc body, n)) :
    (c :: cs).take n = '/' :: '*' :: '*' :: (body ++ ['*', '/']) := by
  have hblank : ¬isSkipped c = true := fun hc => by
    rw [piece_blank hc] at h
    cases h
  obtain ⟨rfl, d, more, rfl, rfl | rfl⟩ := comment_opens h rfl hblank
  · cases h
  · have hcomment : comment more = (.doc body, n) := h
    unfold comment at hcomment
    split at hcomment
    · cases hcomment
    · split at hcomment
      · rename_i rest _ m hclosed
        cases hcomment
        obtain ⟨inside, back, rfl, rfl, -⟩ := comment_takes hclosed
        have hwhole : '/' :: '*' :: '*' :: (inside ++ '*' :: '/' :: back) =
            '/' :: '*' :: '*' :: (inside ++ ['*', '/']) ++ back := by simp
        have hlength : 3 + inside.length + 2 =
            ('/' :: '*' :: '*' :: (inside ++ ['*', '/'])).length := by
          simp
          omega
        rw [show 3 + inside.length + 2 - 5 = inside.length by omega, List.take_left]
        rw [hwhole, hlength, List.take_left]
      · cases hcomment
    · split at hcomment <;> cases hcomment

/-- A comment that is closed somewhere is closed. -/
theorem isSome_comment (n : Nat) (body rest : List Char) :
    (Enclosed.comment n (body ++ '*' :: '/' :: rest)).isSome = true := by
  induction body generalizing n with
  | nil => rfl
  | cons c body ih =>
    rw [List.cons_append]
    unfold Enclosed.comment
    split
    · rename_i heq
      cases heq
    · rfl
    · rename_i heq
      cases heq
      exact ih (n + 1)

/-- What is written like a documentation comment is one. -/
theorem doc_of_text {c : Char} {cs body : List Char} {found : Piece} {n : Nat}
    (h : piece c cs = (found, n))
    (htext : (c :: cs).take n = '/' :: '*' :: '*' :: (body ++ ['*', '/'])) : found = .doc body := by
  have hopens : '/' :: '*' :: '*' :: (body ++ ['*', '/']) <+: c :: cs :=
    htext ▸ List.take_prefix n _
  obtain ⟨rest, hrest⟩ := hopens
  obtain ⟨rfl, rfl⟩ := List.cons.inj hrest
  have hcomment : comment ('*' :: (body ++ ['*', '/'] ++ rest)) = (found, n) := h
  have hlength : body.length + 5 ≤ n := by
    have htake := congrArg List.length htext
    simp only [List.length_take, List.length_cons, List.length_append, List.length_nil] at htake
    omega
  unfold comment at hcomment
  split at hcomment
  · cases hcomment
    omega
  · rename_i more _ heq
    cases heq
    split at hcomment
    · cases hcomment
      have hsame := (text_of_doc h).symm.trans htext
      simp only [List.cons.injEq, true_and] at hsame
      rw [List.append_cancel_right hsame]
    · rename_i hopen
      have hclosed := isSome_comment 3 body rest
      rw [List.append_assoc] at hopen
      rw [show body ++ '*' :: '/' :: rest = body ++ (['*', '/'] ++ rest) from rfl, hopen] at hclosed
      cases hclosed
  · rename_i hstar
    exact (hstar _ rfl).elim

/-- The documentation comments among the pieces are told by their characters. -/
theorem doc?_eq_some_iff {fuel : Nat} {cs : List Char} {cut : Cut} (h : cut ∈ cuts fuel cs)
    (body : List Char) :
    cut.doc? = some body ↔ cut.text = '/' :: '*' :: '*' :: (body ++ ['*', '/']) := by
  obtain ⟨found, text⟩ := cut
  obtain ⟨d, ds, n, hpiece, rfl⟩ := piece_of_mem_cuts h
  constructor
  · intro hdoc
    cases found <;> cases hdoc
    exact text_of_doc hpiece
  · intro htext
    cases doc_of_text hpiece htext
    rfl

/-! Tokens between pieces. -/

theorem lastDoc_nil (keepDocs : Bool) : lastDoc keepDocs [] = none := by
  cases keepDocs <;> rfl

theorem lastDoc_skip {keepDocs : Bool} {pieces : List Cut} {cut : Cut} (h : cut.doc? = none) :
    lastDoc keepDocs (pieces ++ [cut]) = lastDoc keepDocs pieces := by
  simp [lastDoc, h]

theorem lastDoc_doc {keepDocs : Bool} {pieces : List Cut} {cut : Cut} {body : List Char}
    (h : cut.doc? = some body) : lastDoc keepDocs (pieces ++ [cut]) =
      if keepDocs then some (DocText.ofBody body) else lastDoc keepDocs pieces := by
  cases keepDocs <;> simp [lastDoc, h]

/-- The token has the last documentation among the pieces in front of it. -/
def Follows (all : List Cut) (keepDocs : Bool) (token : Token) : Prop :=
  ∃ between, Between all token.start between ∧ token.doc = lastDoc keepDocs between

/-- What waits for the next token is the last documentation behind the token before: a piece that is
no token is added to the gap, and behind a token a new one begins. -/
theorem items_follow (keepDocs : Bool) (fuel : Nat) (front gap : List Cut) (cs : List Char)
    (hfront : ∀ cut ∈ front.getLast?, cut.isToken = true)
    (hgap : ∀ cut ∈ gap, cut.isToken = false) :
    ∀ token ∈ (items piece keepDocs fuel (byteLength (texts (front ++ gap))) (lastDoc keepDocs gap)
      cs).filterMap Item.token?, Follows (front ++ gap ++ cuts fuel cs) keepDocs token := by
  induction fuel generalizing front gap cs with
  | zero => exact List.forall_mem_nil _
  | succ fuel ih =>
    cases cs with
    | nil => exact List.forall_mem_nil _
    | cons c cs =>
      rcases hpiece : piece c cs with ⟨found, n⟩
      generalize hcut : (⟨found, (c :: cs).take n⟩ : Cut) = cut
      have hall : front ++ gap ++ cuts (fuel + 1) (c :: cs) =
          front ++ gap ++ [cut] ++ cuts fuel ((c :: cs).drop n) := by
        rw [cuts_cons hpiece, hcut, List.append_assoc (front ++ gap), List.singleton_append]
      have hstop : byteLength (texts (front ++ gap)) + byteLength ((c :: cs).take n) =
          byteLength (texts (front ++ gap ++ [cut])) := by
        rw [texts_append (front ++ gap), byteLength_append, ← hcut]
        simp [texts]
      rw [hall]
      simp only [items, hpiece]
      rw [hstop]
      have hskip (hnot : cut.isToken = false) : ∀ token ∈ (items piece keepDocs fuel
          (byteLength (texts (front ++ gap ++ [cut]))) (lastDoc keepDocs (gap ++ [cut]))
          ((c :: cs).drop n)).filterMap Item.token?,
            Follows (front ++ gap ++ [cut] ++ cuts fuel ((c :: cs).drop n)) keepDocs token := by
        rw [List.append_assoc front]
        refine ih front (gap ++ [cut]) _ hfront fun d hd => ?_
        rcases List.mem_append.mp hd with hd | hd
        · exact hgap d hd
        · rwa [List.mem_singleton.mp hd]
      cases found with
      | blank | comment | flaw =>
        have hnone : cut.doc? = none := hcut ▸ rfl
        rw [lastDoc_skip hnone] at hskip
        exact hskip (hcut ▸ rfl)
      | doc body =>
        have hbody : cut.doc? = some body := hcut ▸ rfl
        rw [lastDoc_doc hbody] at hskip
        exact hskip (hcut ▸ rfl)
      | token kind =>
        have htaken : cut.isToken = true := hcut ▸ rfl
        intro token htoken
        rcases List.mem_cons.mp htoken with rfl | htoken
        · exact ⟨gap, ⟨front, cut, _, by rw [List.append_assoc, List.singleton_append], htaken, rfl,
            hfront, hgap⟩, rfl⟩
        · have hrest := ih (front ++ gap ++ [cut]) [] ((c :: cs).drop n) (fun d hd => ?_)
            (List.forall_mem_nil _)
          · rw [List.append_nil, lastDoc_nil] at hrest
            exact hrest token htoken
          · rw [List.getLast?_concat] at hd
            cases hd
            exact htaken

end Lexer

/-! Declarations behind tokens. -/

/-- Each token has the last documentation among the pieces in front of it. -/
theorem Layout.token_follows {keepDocs : Bool} {source : Source} {token : Token}
    (h : token ∈ (ofItems source (lex keepDocs source.text)).tokens.toList) :
    Lexer.Follows source.cuts keepDocs token := by
  have hfollow := Lexer.items_follow keepDocs source.text.toList.length [] [] source.text.toList
    nofun nofun
  rw [Lexer.lastDoc_nil] at hfollow
  exact hfollow token h

theorem Tree.Sits.of_declaration {u : State} {c : Category} {tree : Tree c} {front : Front}
    (h : tree.Sits u) (hfront : tree.front? = some front) :
    u.taken = 0 ∧ front.doc = u.doc ∧ ∃ e, tree.extent? = some e := by
  cases tree with
  | field decl =>
    cases decl
    cases hfront
    exact ⟨h.1, h.2, _, rfl⟩
  | typeDecl | method | constructor =>
    cases hfront
    exact ⟨h.1, h.2, _, rfl⟩
  | _ => cases hfront

/-- A declaration begins with a whole token and keeps the documentation of that token. -/
theorem Tree.documented {setting : Setting} {first : State} {keepDocs : Bool} {source : Source}
    (hlayout : setting.layout = .ofItems source (lex keepDocs source.text))
    (hfirst : Placed setting.layout first) :
    Read.Grants setting first (Tree.Documented source keepDocs setting.layout) := by
  intro c tree u v hu hv hextent hsits front hfront
  obtain ⟨htaken, hkept, e, he⟩ := hsits.of_declaration hfront
  obtain ⟨rfl, hlt⟩ := hextent e he
  have hplaced := hfirst.reaches hu
  have hstop := hplaced.reaches hv
  have hstart : (u.upTo v).start = .before u.index 0 := by
    rw [State.upTo_eq hplaced hstop hlt, ← htaken]
    exact hplaced.mark_eq hstop hlt
  have hdoc : front.doc = some (.before u.index 0) := by
    rw [hkept, hplaced.doc_eq hstop hlt, htaken]
  have hindex : u.index < setting.layout.tokens.size := by
    have hcount := hstop.count
    omega
  have htoken := Array.getElem?_eq_getElem hindex
  generalize setting.layout.tokens[u.index] = token at htoken
  obtain ⟨between, hbetween, hlast⟩ :=
    Layout.token_follows (hlayout ▸ Layout.Tiled.mem htoken)
  have hoffset : setting.layout.offset (.before u.index 0) = token.start := by
    simp [Layout.offset, htoken]
  refine ⟨_, between, he, ?_, ?_⟩
  · rw [hstart, hoffset]
    exact hbetween
  · rw [hdoc, ← hlast]
    simp [Layout.docOf, Layout.doc, htoken]

namespace Session

/-- Whatever a text, its settings and the entry points called before are: at every depth of what an
entry point returns, every declaration keeps the documentation in front of it. The pieces between
which it is looked for make up the text, and a documentation comment is whatever piece is written
like one. -/
theorem docs_attached (settings : Settings) (source : Source) (before : List Entry) :
    let session := (start settings source).afterAll before
    (∀ item ∈ session.unit.1.items, ∀ p ∈ item.parts,
      p.2.Everywhere (Tree.Documented source settings.keepDocs session.layout)) ∧
    session.expression.1.Everywhere (Tree.Documented source settings.keepDocs session.layout) ∧
    session.typeUse.1.Everywhere (Tree.Documented source settings.keepDocs session.layout) ∧
    Lexer.texts source.cuts = source.text.toList ∧
    ∀ cut ∈ source.cuts, ∀ body,
      cut.doc? = some body ↔ cut.text = "/**".toList ++ body ++ "*/".toList := by
  intro session
  obtain ⟨hlayout, hfine⟩ := fine_afterAll settings source before
  obtain ⟨hunit, hexpression, htypeUse⟩ := everywhere hfine (Tree.documented hlayout hfine.placed)
    fun _ => nofun
  exact ⟨hunit, hexpression, htypeUse, Lexer.texts_cuts _ _ (Nat.le_refl _),
    fun _ hcut => Lexer.doc?_eq_some_iff hcut⟩

/-- Neither another comment nor a flawed text comes between. -/
example :
    let session := start .standard
      (.ofText "A.java" "/** no */ /** It. */ # /* no */ public class A {}")
    (session.unit.1.types.filterMap Tree.front?).map (fun front => session.layout.docOf front.doc) =
      [some "It."] := by
  decide

end Session

end JavaSyntax
