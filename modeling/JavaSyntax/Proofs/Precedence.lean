import JavaSyntax.Proofs.RoundTrip

/-!
Precedence and associativity. `Operation rank tree tokens` is the grammar of operators: what trees
they form at a rank, and the tokens in order. Assignments and conditionals lean to the right, binary
operators to the left, and one of a higher level binds more tightly. With blanks between them the
tokens are read as their tree, so no tokens have two.
-/

namespace JavaSyntax

open Grammar

/-- The level of a binary operator. -/
def BinaryOp.level : BinaryOp → Nat
  | .or => 1
  | .and => 2
  | .bitOr => 3
  | .bitXor => 4
  | .bitAnd => 5
  | .eq | .ne => 6
  | .lt | .gt | .le | .ge => 7
  | .shl | .shr | .ushr => 8
  | .add | .sub => 9
  | .mul | .div | .mod => 10

/-- What may stand at a place of an operator expression. -/
inductive Rank where
  | assignment
  | conditional
  /-- Binary operators of at least this level. -/
  | binary (least : Nat)
  | unary
  | trailing
  | primary

inductive Operation : Rank → Tree .expr → List String → Prop where
  | noAssignment {tree : Tree .expr} {ts : List String} (h : Operation .conditional tree ts) :
      Operation .assignment tree ts
  | assign {target value : Tree .expr} {extent : Extent} {ts us : List String} (op : AssignOp)
      (left : Operation .conditional target ts) (right : Operation .assignment value us) :
      Operation .assignment (.assign target op value extent) (ts ++ op.spelling :: us)
  | noConditional {tree : Tree .expr} {ts : List String} (h : Operation (.binary 1) tree ts) :
      Operation .conditional tree ts
  | conditional {condition yes no : Tree .expr} {extent : Extent} {ts us vs : List String}
      (test : Operation (.binary 1) condition ts) (first : Operation .assignment yes us)
      (second : Operation .conditional no vs) :
      Operation .conditional (.conditional condition yes no extent)
        (ts ++ "?" :: (us ++ ":" :: vs))
  | noBinary {least : Nat} {tree : Tree .expr} {ts : List String} (h : Operation .unary tree ts) :
      Operation (.binary least) tree ts
  | binary {least : Nat} {left right : Tree .expr} {extent : Extent} {ts us : List String}
      (op : BinaryOp) (le : least ≤ op.level) (first : Operation (.binary op.level) left ts)
      (second : Operation (.binary (op.level + 1)) right us) :
      Operation (.binary least) (.binary left op right extent) (ts ++ op.spelling :: us)
  | noLeading {tree : Tree .expr} {ts : List String} (h : Operation .trailing tree ts) :
      Operation .unary tree ts
  | leading {operand : Tree .expr} {extent : Extent} {ts : List String} (op : UnaryOp)
      (leads : op.isTrailing = false) (h : Operation .unary operand ts) :
      Operation .unary (.unary op operand extent) (op.spelling :: ts)
  | noTrailing {tree : Tree .expr} {ts : List String} (h : Operation .primary tree ts) :
      Operation .trailing tree ts
  | trailing {operand : Tree .expr} {extent : Extent} {ts : List String} (op : UnaryOp)
      (trails : op.isTrailing = true) (h : Operation .trailing operand ts) :
      Operation .trailing (.unary op operand extent) (ts ++ [op.spelling])
  | name {name : String} {extent : Extent} (isWord : IsWordText name)
      (free : isReserved name = false) : Operation .primary (.ident name extent) [name]
  | paren {inner : Tree .expr} {extent : Extent} {ts : List String}
      (h : Operation .assignment inner ts) :
      Operation .primary (.paren inner extent) ("(" :: (ts ++ [")"]))

/-! The words of the tokens. -/

def BinaryOp.kind : BinaryOp → Kind
  | .add => .plus
  | .sub => .minus
  | .mul => .star
  | .div => .slash
  | .mod => .percent
  | .lt => .less
  | .le => .lessEqual
  | .gt => .greater
  | .ge => .greaterEqual
  | .eq => .equal
  | .ne => .notEqual
  | .and => .andAnd
  | .or => .orOr
  | .bitAnd => .amp
  | .bitOr => .pipe
  | .bitXor => .caret
  | .shl => .shl
  | .shr => .shr
  | .ushr => .ushr

def AssignOp.kind : AssignOp → Kind
  | .set => .assign
  | .add => .addAssign
  | .sub => .subAssign
  | .mul => .mulAssign
  | .div => .divAssign
  | .mod => .modAssign
  | .and => .andAssign
  | .or => .orAssign
  | .xor => .xorAssign
  | .shl => .shlAssign
  | .shr => .shrAssign
  | .ushr => .ushrAssign

def UnaryOp.kind : UnaryOp → Kind
  | .plus => .plus
  | .minus => .minus
  | .not => .bang
  | .bitNot => .tilde
  | .preIncrement | .postIncrement => .increment
  | .preDecrement | .postDecrement => .decrement

section Operators

theorem binaryOp?_kind (op : BinaryOp) : binaryOp? op.kind = some (op, op.level) := by
  cases op <;> rfl

theorem assignOp?_kind (op : AssignOp) : assignOp? op.kind = some op := by
  cases op <;> rfl

theorem leadingOp?_kind {op : UnaryOp} (h : op.isTrailing = false) :
    leadingOp? op.kind = some op := by
  cases op <;> first | rfl | cases h

theorem trailingOp?_kind {op : UnaryOp} (h : op.isTrailing = true) :
    trailingOp? op.kind = some op := by
  cases op <;> first | rfl | cases h

theorem UnaryOp.kind_spelling (op : UnaryOp) :
    op.kind ∈ Kind.operators ∧ op.kind.spelling = op.spelling := by
  cases op <;> exact ⟨by decide, rfl⟩

end Operators

/-- A word of an operator expression: an operator or separator, or a name that is not reserved. -/
inductive OperatorWord : Word → Prop where
  | symbol {k : Kind} (mem : k ∈ Kind.operators) : OperatorWord (fixed k)
  | name {name : String} (isWord : IsWordText name) (free : isReserved name = false) :
      OperatorWord (.identifier, name)

theorem OperatorWord.not_isNumber {w : Word} (h : OperatorWord w) : isNumber w.1 = false := by
  have hnone : ∀ k ∈ Kind.operators, isNumber k = false := by decide
  cases h with
  | symbol hmem => exact hnone _ hmem
  | name => rfl

theorem OperatorWord.starts {w : Word} {rest : List Char} (h : OperatorWord w)
    (hr : Follows (· == ' ') rest) : Starts w rest := by
  cases h with
  | symbol hmem => exact starts_beforeBlank hmem hr
  | name hword hfree =>
    refine starts_name hword hfree (hr.mono fun c hc => ?_)
    rw [beq_iff_eq.mp hc]
    rfl

theorem cuts_intercalate {words : List Word} (h : ∀ w ∈ words, OperatorWord w) :
    Cuts (" ".intercalate (words.map Prod.snd)).toList words :=
  .intercalate fun w hw _ => (h w hw).starts

/-! The tokens spell their tree. -/

/-- The level at which an expression of a rank is spelled. -/
def Rank.level : Rank → Nat
  | .assignment => 1
  | .conditional => 2
  | .binary least => min (least + 2) 13
  | .unary => 13
  | .trailing => 14
  | .primary => 15

/-- The words of an operator expression. What a trailing operator may stand behind has no sign in
front of it. -/
structure Writes (rank : Rank) (tree : Tree .expr) (tokens : List String) (words : List Word) :
    Prop where
  spelled : Spelled rank.level tree words
  texts : words.map Prod.snd = tokens
  each : ∀ w ∈ words, OperatorWord w
  unsigned : 14 ≤ rank.level → Heads (· != .minus) words

namespace Writes

variable {rank : Rank} {tree left right : Tree .expr} {extent : Extent} {ts us : List String}
  {words ws vs : List Word}

/-- A lower rank takes what a higher one does. -/
theorem lower (h : Writes rank tree ts words) {below : Rank} (hpos : 0 < below.level)
    (hle : below.level ≤ rank.level) (hmax : rank.level ≤ 15) : Writes below tree ts words :=
  ⟨h.spelled.le hpos hle hmax, h.texts, h.each, fun hhigh => h.unsigned (by omega)⟩

theorem name {name : String} (hword : IsWordText name) (hfree : isReserved name = false) :
    Writes .primary (.ident name extent) [name] [(.identifier, name)] where
  spelled := @Spelled.ident _ (.identifier, name) rfl
  texts := rfl
  each := List.forall_mem_singleton.mpr (.name hword hfree)
  unsigned _ := by
    rintro _ ⟨⟩
    rfl

theorem paren (h : Writes .assignment tree ts words) :
    Writes .primary (.paren tree extent) ("(" :: (ts ++ [")"]))
      (fixed .lparen :: (words ++ [fixed .rparen])) where
  spelled := .paren rfl rfl h.spelled
  texts := by
    rw [List.map_cons, List.map_append, h.texts]
    rfl
  each := List.forall_mem_cons.mpr ⟨.symbol (by decide),
    List.forall_mem_append.mpr ⟨h.each, List.forall_mem_singleton.mpr (.symbol (by decide))⟩⟩
  unsigned _ := by
    rintro _ ⟨⟩
    rfl

theorem trailing {op : UnaryOp} (htrails : op.isTrailing = true)
    (h : Writes .trailing tree ts words) :
    Writes .trailing (.unary op tree extent) (ts ++ [op.spelling]) (words ++ [fixed op.kind]) := by
  obtain ⟨hmem, hspelling⟩ := op.kind_spelling
  have hsign := h.unsigned (Nat.le_refl 14)
  refine ⟨.trailing h.spelled hsign (trailingOp?_kind htrails), ?_, ?_, fun _ => ?_⟩
  · rw [List.map_append, h.texts, ← hspelling]
    rfl
  · exact List.forall_mem_append.mpr ⟨h.each, List.forall_mem_singleton.mpr (.symbol hmem)⟩
  · obtain ⟨w, rest, rfl⟩ := List.exists_cons_of_ne_nil (h.spelled.ne_nil (by decide))
    exact hsign

theorem leading {op : UnaryOp} (hleads : op.isTrailing = false) (h : Writes .unary tree ts words) :
    Writes .unary (.unary op tree extent) (op.spelling :: ts) (fixed op.kind :: words) := by
  obtain ⟨hmem, hspelling⟩ := op.kind_spelling
  refine ⟨.leading (leadingOp?_kind hleads) (fun _ w hw => ?_) h.spelled, ?_, ?_,
    fun hhigh => absurd hhigh (by decide)⟩
  · have hnumber := (h.each w (List.mem_of_mem_head? hw)).not_isNumber
    simp [hnumber]
  · rw [List.map_cons, h.texts, ← hspelling]
    rfl
  · exact List.forall_mem_cons.mpr ⟨.symbol hmem, h.each⟩

theorem binary {op : BinaryOp} {least : Nat} (hle : least ≤ op.level)
    (h : Writes (.binary op.level) left ts ws) (h' : Writes (.binary (op.level + 1)) right us vs) :
    Writes (.binary least) (.binary left op right extent) (ts ++ op.spelling :: us)
      (ws ++ fixed op.kind :: vs) := by
  have hop := binaryOp?_kind op
  obtain ⟨_, _, _, hten⟩ := binaryOp?_facts hop
  obtain ⟨hmem, hspelling⟩ := binaryOp?_spelling hop
  have hfirst : Spelled (op.level + 2) left ws :=
    h.spelled.le (by omega) (by simp only [Rank.level]; omega) (by simp only [Rank.level]; omega)
  have hsecond : Spelled (op.level + 3) right vs :=
    h'.spelled.le (by omega) (by simp only [Rank.level]; omega) (by simp only [Rank.level]; omega)
  refine ⟨Spelled.le (.binary hop hfirst hsecond) ?_ ?_ ?_, ?_, ?_, fun hhigh => ?_⟩
  · simp only [Rank.level]
    omega
  · simp only [Rank.level]
    omega
  · omega
  · rw [List.map_append, List.map_cons, h.texts, h'.texts, ← hspelling]
    rfl
  · exact List.forall_mem_append.mpr
      ⟨h.each, List.forall_mem_cons.mpr ⟨.symbol hmem, h'.each⟩⟩
  · simp only [Rank.level] at hhigh
    omega

theorem conditional {condition yes no : Tree .expr} {rs : List String} {xs : List Word}
    (h : Writes (.binary 1) condition ts ws) (h' : Writes .assignment yes us vs)
    (h'' : Writes .conditional no rs xs) :
    Writes .conditional (.conditional condition yes no extent) (ts ++ "?" :: (us ++ ":" :: rs))
      (ws ++ fixed .question :: (vs ++ fixed .colon :: xs)) where
  spelled := .conditional h.spelled rfl h'.spelled rfl h''.spelled
  texts := by
    rw [List.map_append, List.map_cons, List.map_append, List.map_cons, h.texts, h'.texts,
      h''.texts]
    rfl
  each := List.forall_mem_append.mpr ⟨h.each, List.forall_mem_cons.mpr ⟨.symbol (by decide),
    List.forall_mem_append.mpr
      ⟨h'.each, List.forall_mem_cons.mpr ⟨.symbol (by decide), h''.each⟩⟩⟩⟩
  unsigned hhigh := absurd hhigh (by decide)

theorem assign {op : AssignOp} (h : Writes .conditional left ts ws)
    (h' : Writes .assignment right us vs) :
    Writes .assignment (.assign left op right extent) (ts ++ op.spelling :: us)
      (ws ++ fixed op.kind :: vs) := by
  obtain ⟨hmem, hspelling⟩ := assignOp?_spelling (assignOp?_kind op)
  refine ⟨.assign h.spelled (assignOp?_kind op) h'.spelled, ?_, ?_,
    fun hhigh => absurd hhigh (by decide)⟩
  · rw [List.map_append, List.map_cons, h.texts, h'.texts, ← hspelling]
    rfl
  · exact List.forall_mem_append.mpr
      ⟨h.each, List.forall_mem_cons.mpr ⟨.symbol hmem, h'.each⟩⟩

end Writes

theorem Operation.writes {rank : Rank} {tree : Tree .expr} {tokens : List String}
    (h : Operation rank tree tokens) : ∃ words, Writes rank tree tokens words := by
  induction h with
  | noAssignment _ ih | noConditional _ ih | noLeading _ ih | noTrailing _ ih =>
    obtain ⟨words, h⟩ := ih
    exact ⟨words, h.lower (by decide) (by decide) (by decide)⟩
  | noBinary _ ih =>
    obtain ⟨words, h⟩ := ih
    refine ⟨words, h.lower ?_ (Nat.min_le_right ..) (by decide)⟩
    simp only [Rank.level]
    omega
  | assign op _ _ ih ih' =>
    obtain ⟨ws, h⟩ := ih
    obtain ⟨vs, h'⟩ := ih'
    exact ⟨_, h.assign h'⟩
  | conditional _ _ _ ih ih' ih'' =>
    obtain ⟨ws, h⟩ := ih
    obtain ⟨vs, h'⟩ := ih'
    obtain ⟨xs, h''⟩ := ih''
    exact ⟨_, h.conditional h' h''⟩
  | binary op hle _ _ ih ih' =>
    obtain ⟨ws, h⟩ := ih
    obtain ⟨vs, h'⟩ := ih'
    exact ⟨_, h.binary hle h'⟩
  | leading op hleads _ ih =>
    obtain ⟨words, h⟩ := ih
    exact ⟨_, h.leading hleads⟩
  | trailing op htrails _ ih =>
    obtain ⟨words, h⟩ := ih
    exact ⟨_, h.trailing htrails⟩
  | name hword hfree => exact ⟨_, .name hword hfree⟩
  | paren _ ih =>
    obtain ⟨words, h⟩ := ih
    exact ⟨_, h.paren⟩

namespace Session

/-- The tokens of an operator expression, with blanks between them, are read as its tree and without
a diagnostic. So there is no other tree with these tokens. -/
theorem expression_reads_operators (settings : Settings) (name : String) {tree : Tree .expr}
    {tokens : List String} (h : Operation .assignment tree tokens) :
    let session := start settings (.ofText name (" ".intercalate tokens))
    session.expression.1.erase = tree.erase ∧
    session.expression.2.diagnostics = [] ∧
    ∀ other, Operation .assignment other tokens → other.erase = tree.erase := by
  intro session
  have hreads {tree : Tree .expr} (h : Operation .assignment tree tokens) :
      session.expression.1.erase = tree.erase ∧ session.expression.2.diagnostics = [] := by
    obtain ⟨words, hwrites⟩ := h.writes
    have hcuts := cuts_intercalate hwrites.each
    rw [hwrites.texts] at hcuts
    exact expression_of_spelled hcuts.lexesTo hwrites.spelled
  exact ⟨(hreads h).1, (hreads h).2, fun other hother => (hreads hother).1.symm.trans (hreads h).1⟩

/-- The product lies in the difference, the difference in the condition, and the right side of the
assignment takes in all of them. -/
theorem expression_reads_operators_mixed :
    let tokens :=
      ["a", "=", "b", "-", "c", "*", "!", "(", "b", "++", ")", "?", "c", "=", "a", ":", "b"]
    let leaf (name : String) : Tree .expr := .ident name (.point .eof)
    let product : Tree .expr :=
      .binary (leaf "c") .mul (.unary .not (.paren (.unary .postIncrement (leaf "b") (.point .eof))
        (.point .eof)) (.point .eof)) (.point .eof)
    let tree : Tree .expr :=
      .assign (leaf "a") .set (.conditional (.binary (leaf "b") .sub product (.point .eof))
        (.assign (leaf "c") .set (leaf "a") (.point .eof)) (leaf "b") (.point .eof)) (.point .eof)
    let session := start .standard (.ofText "A.java" (" ".intercalate tokens))
    Operation .assignment tree tokens ∧
    session.expression.1.erase = tree.erase ∧ session.expression.2.diagnostics = [] := by
  intro tokens leaf product tree session
  have ha : Operation .primary (leaf "a") ["a"] :=
    .name ⟨'a', [], rfl, by decide, fun x hx => by cases hx⟩ (by decide)
  have hb : Operation .primary (leaf "b") ["b"] :=
    .name ⟨'b', [], rfl, by decide, fun x hx => by cases hx⟩ (by decide)
  have hc : Operation .primary (leaf "c") ["c"] :=
    .name ⟨'c', [], rfl, by decide, fun x hx => by cases hx⟩ (by decide)
  have hunary {leaf : Tree .expr} {ts : List String} (h : Operation .primary leaf ts) :
      Operation .unary leaf ts := .noLeading (.noTrailing h)
  have hconditional {leaf : Tree .expr} {ts : List String} (h : Operation .primary leaf ts) :
      Operation .conditional leaf ts := .noConditional (.noBinary (hunary h))
  have hproduct : Operation (.binary 10) product ["c", "*", "!", "(", "b", "++", ")"] :=
    .binary .mul (by decide) (.noBinary (hunary hc)) (.noBinary (.leading .not rfl
      (hunary (.paren (.noAssignment (.noConditional (.noBinary (.noLeading
        (.trailing .postIncrement rfl (.noTrailing hb))))))))))
  have htree : Operation .assignment tree tokens :=
    .assign .set (hconditional ha) (.noAssignment (.conditional
      (.binary .sub (by decide) (.noBinary (hunary hb)) hproduct)
      (.assign .set (hconditional hc) (.noAssignment (hconditional ha))) (hconditional hb)))
  obtain ⟨hread, hquiet, _⟩ := expression_reads_operators .standard "A.java" htree
  exact ⟨htree, hread, hquiet⟩

end Session

end JavaSyntax
