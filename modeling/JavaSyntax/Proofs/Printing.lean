import JavaSyntax.Proofs.Numerals
import JavaSyntax.Proofs.Spelling
import JavaSyntax.Tree.Printer

/-!
How a printed expression is cut into words again. Most words are printed with something between them
that keeps them apart; operators in front of their operand, selectors and negative numbers are not.
`Tree.isApart` says when no two of these run together, and then the printed text is cut into words
that spell the tree.
-/

namespace JavaSyntax

namespace Tree

/-- The characters an expression is printed with. -/
def text (tree : Tree .expr) : List Char :=
  (tree.print 0 : String).toList

/-- The characters of arguments, without their parentheses. -/
def argsText (args : Tree (.list .expr)) : List Char :=
  (Printer.commas (args.print 0)).toList

/-- Whether the expression is a number that a dot behind it would become part of. -/
def isInt : Tree .expr → Bool
  | .literal (.int _) _ => true
  | _ => false

end Tree

/-- Whether a name is read as a name wherever it may stand. -/
def isFree (name : String) : Bool :=
  !isReserved name || name == "this" || name == "super"

/-- Literals that are whole numbers or words. -/
def Literal.isSimple : Literal → Bool
  | .int _ | .long _ | .boolean _ | .null => true
  | _ => false

/-- Whether an operator and an operand that starts so stay two: a sign must not meet its like, a
minus not a number, and a trailing operator has no signed operand. -/
def UnaryOp.staysApart (op : UnaryOp) (first : Option Char) : Bool :=
  match op with
  | .plus => first != some '+'
  | .minus => first != some '-' && !first.any Char.isDigit
  | .postIncrement | .postDecrement => first != some '-'
  | _ => true

/-- Whether nothing in the printed expression runs together with what is printed next to it. -/
def Tree.isApart : {c : Category} → Tree c → Bool
  | _, .nil => true
  | _, .cons head tail => head.isApart && tail.isApart
  | _, .literal value _ => value.isSimple
  | _, .ident name _ => isFree name
  | _, .binary left _ right _ => left.isApart && right.isApart
  | _, .unary op operand _ => operand.isApart && op.staysApart operand.text.head?
  | _, .assign target _ value _ => target.isApart && value.isApart
  | _, .call .none _ name arguments _ => isFree name && arguments.isApart
  | _, .call (.some target) _ name arguments _ =>
    target.isApart && !target.isInt && (isFree name && name != "this") && arguments.isApart
  | _, .select target name _ => target.isApart && !target.isInt && isFree name
  | _, .index array index _ => array.isApart && index.isApart
  | _, .conditional condition yes no _ => condition.isApart && yes.isApart && no.isApart
  | _, .paren inner _ => inner.isApart
  | _, _ => false

namespace Tree

theorem isPlain_erase {c : Category} (tree : Tree c) : tree.erase.isPlain = tree.isPlain := by
  induction tree with
  | cons _ _ ih ih' | binary _ _ _ _ ih ih' | assign _ _ _ _ ih ih' | index _ _ _ ih ih' =>
    exact congrArg₂ and ih ih'
  | some _ ih | unary _ _ _ ih | paren _ _ ih => exact ih
  | call target typeArgs name arguments _ ih _ ih' =>
    have hnil : typeArgs.erase.isNil = typeArgs.isNil := by cases typeArgs <;> rfl
    show (target.erase.isPlain && typeArgs.erase.isNil && arguments.erase.isPlain) = _
    rw [ih, hnil, ih']
    rfl
  | select _ name _ ih => exact congrArg (· && name != "class") ih
  | conditional _ _ _ _ ih ih' ih'' => exact congrArg₂ and (congrArg₂ and ih ih') ih''
  | _ => rfl

/-- Where the parts of a plain expression stand does not show in its text. -/
theorem print_erase {c : Category} (tree : Tree c) (h : tree.isPlain = true) :
    tree.erase.print 0 = tree.print 0 := by
  induction tree with
  | nil | none | ident => rfl
  | cons head tail ih ih' =>
    obtain ⟨h, h'⟩ := Bool.and_eq_true_iff.mp h
    exact congrArg₂ List.cons (ih h) (ih' h')
  | some value ih => exact congrArg some (ih h)
  | literal value => exact Literal.text_erase value
  | binary _ op _ _ ih ih' | assign _ op _ _ ih ih' =>
    obtain ⟨h, h'⟩ := Bool.and_eq_true_iff.mp h
    exact congrArg₂ (fun l r : String => l ++ " " ++ op.spelling ++ " " ++ r) (ih h) (ih' h')
  | unary op _ _ ih =>
    exact congrArg (fun t : String => if op.isTrailing then t ++ op.spelling else op.spelling ++ t)
      (ih h)
  | call target typeArgs name arguments _ ih _ ih' =>
    obtain ⟨hfirst, harguments⟩ := Bool.and_eq_true_iff.mp h
    obtain ⟨htarget, hnil⟩ := Bool.and_eq_true_iff.mp hfirst
    cases typeArgs with
    | cons => cases hnil
    | nil =>
      exact congrArg₂ (fun (l : Option String) (r : List String) => Printer.optional "" l "." ++
        Printer.angles [] ++ name ++ Printer.parens r) (ih htarget) (ih' harguments)
  | select _ name _ ih =>
    obtain ⟨h, _⟩ := Bool.and_eq_true_iff.mp h
    exact congrArg (fun t : String => t ++ "." ++ name) (ih h)
  | index _ _ _ ih ih' =>
    obtain ⟨h, h'⟩ := Bool.and_eq_true_iff.mp h
    exact congrArg₂ (fun l r : String => l ++ "[" ++ r ++ "]") (ih h) (ih' h')
  | conditional condition yes no _ ih ih' ih'' =>
    obtain ⟨hfirst, hno⟩ := Bool.and_eq_true_iff.mp h
    obtain ⟨hcondition, hyes⟩ := Bool.and_eq_true_iff.mp hfirst
    show (condition.erase.print 0 ++ " ? " ++ yes.erase.print 0 ++ " : " ++ no.erase.print 0 :
      String) = _
    rw [ih hcondition, ih' hyes, ih'' hno]
    rfl
  | paren _ _ ih => exact congrArg (fun t : String => "(" ++ t ++ ")") (ih h)
  | _ => cases h

theorem print_eq_of_erase_eq {tree other : Tree .expr} (h : tree.erase = other.erase)
    (hplain : other.isPlain = true) : tree.print 0 = other.print 0 := by
  have hplain' : tree.isPlain = true := by rwa [← isPlain_erase, h, isPlain_erase]
  rw [← print_erase tree hplain', h, print_erase other hplain]

end Tree

section Texts

open JavaSyntax.Tree

variable {left right third : Tree .expr} {args : Tree (.list .expr)} {name : String}
  {extent : Extent}

theorem text_literal {value : Literal} : (Tree.literal value extent).text = value.text.toList :=
  rfl

theorem text_ident : (Tree.ident name extent).text = name.toList := rfl

theorem text_paren : (Tree.paren left extent).text = '(' :: (left.text ++ [')']) := by
  show ("(" ++ left.print 0 ++ ")" : String).toList = _
  simp [String.toList_append, text]

theorem text_call : (Tree.call .none .nil name args extent).text =
    name.toList ++ '(' :: (args.argsText ++ [')']) := by
  show (Printer.optional "" none "." ++ Printer.angles [] ++ name ++
    Printer.parens (args.print 0) : String).toList = _
  simp [Printer.optional, Printer.angles, Printer.parens, String.toList_append, argsText]

theorem text_callOn : (Tree.call (.some left) .nil name args extent).text =
    left.text ++ '.' :: (name.toList ++ '(' :: (args.argsText ++ [')'])) := by
  show (Printer.optional "" (some (left.print 0)) "." ++ Printer.angles [] ++ name ++
    Printer.parens (args.print 0) : String).toList = _
  simp [Printer.optional, Printer.angles, Printer.parens, String.toList_append, argsText, text]

theorem text_select :
    (Tree.select left name extent).text = left.text ++ '.' :: name.toList := by
  show (left.print 0 ++ "." ++ name : String).toList = _
  simp [String.toList_append, text]

theorem text_index :
    (Tree.index left right extent).text = left.text ++ '[' :: (right.text ++ [']']) := by
  show (left.print 0 ++ "[" ++ right.print 0 ++ "]" : String).toList = _
  simp [String.toList_append, text]

theorem text_trailing {op : UnaryOp} (h : op.isTrailing = true) :
    (Tree.unary op left extent).text = left.text ++ op.spelling.toList := by
  show (if op.isTrailing then left.print 0 ++ op.spelling
    else op.spelling ++ left.print 0 : String).toList = _
  rw [if_pos h, String.toList_append]
  rfl

theorem text_leading {op : UnaryOp} (h : op.isTrailing = false) :
    (Tree.unary op left extent).text = op.spelling.toList ++ left.text := by
  show (if op.isTrailing then left.print 0 ++ op.spelling
    else op.spelling ++ left.print 0 : String).toList = _
  rw [if_neg (by simp [h]), String.toList_append]
  rfl

theorem text_binary {op : BinaryOp} : (Tree.binary left op right extent).text =
    left.text ++ ' ' :: (op.spelling.toList ++ ' ' :: right.text) := by
  show (left.print 0 ++ " " ++ op.spelling ++ " " ++ right.print 0 : String).toList = _
  simp [String.toList_append, text]

theorem text_assign {op : AssignOp} : (Tree.assign left op right extent).text =
    left.text ++ ' ' :: (op.spelling.toList ++ ' ' :: right.text) := by
  show (left.print 0 ++ " " ++ op.spelling ++ " " ++ right.print 0 : String).toList = _
  simp [String.toList_append, text]

theorem text_conditional : (Tree.conditional left right third extent).text =
    left.text ++ ' ' :: '?' :: ' ' :: (right.text ++ ' ' :: ':' :: ' ' :: third.text) := by
  show (left.print 0 ++ " ? " ++ right.print 0 ++ " : " ++ third.print 0 : String).toList = _
  simp [String.toList_append, text]

theorem argsText_nil : (Tree.nil : Tree (.list .expr)).argsText = [] := by
  show (", ".intercalate []).toList = []
  simp

theorem argsText_one : (Tree.cons left .nil).argsText = left.text := by
  show (", ".intercalate [left.print 0]).toList = _
  simp [text]

theorem argsText_more : (Tree.cons left (.cons right args)).argsText =
    left.text ++ ',' :: ' ' :: (Tree.cons right args).argsText := by
  show (", ".intercalate (left.print 0 :: right.print 0 :: args.print 0)).toList = _
  rw [String.intercalate_cons_cons, String.toList_append, String.toList_append,
    List.append_assoc]
  rfl

end Texts

/-- Characters that end whatever word stands in front of them, a whole number before a dot
excepted. -/
def isBreak (c : Char) : Bool :=
  [' ', ')', ']', ',', '.', '[', '(', '+', '-'].contains c

/-- Characters that expressions start with. -/
def opensText (c : Char) : Bool :=
  c.isDigit || Unicode.isIdentifierStart c || ['(', '+', '-', '!', '~'].contains c

theorem isBreak_facts {c : Char} (h : isBreak c = true) :
    Unicode.isIdentifierPart c = false ∧ Lexer.unreserves c = false ∧
      (c ≠ '.' → isNumeric c = false ∧ ['l', 'L'].contains c = false) := by
  have hall : [' ', ')', ']', ',', '.', '[', '(', '+', '-'].all (fun c =>
      Unicode.isIdentifierPart c = false ∧ Lexer.unreserves c = false ∧
        (c ≠ '.' → isNumeric c = false ∧ ['l', 'L'].contains c = false)) = true := by
    decide
  exact of_decide_eq_true (List.all_eq_true.mp hall c (by simpa [isBreak] using h))

section Words

variable {rest : List Char} {words : List Word} {k : Kind}

theorem follows_cons {p : Char → Bool} {c : Char} (h : p c = true) : Follows p (c :: rest) := by
  rintro _ ⟨⟩
  exact h

/-- Operators that no other one starts with. -/
def isClosed (k : Kind) : Bool :=
  Kind.operators.contains k && (extensions k).isEmpty && k != .slash && k != .dot

theorem starts_closed (h : isClosed k = true) : Starts (k, k.spelling) rest := by
  simp only [isClosed, Bool.and_eq_true, bne_iff_ne, List.isEmpty_iff] at h
  obtain ⟨⟨⟨hmem, hext⟩, hslash⟩, hdot⟩ := h
  refine starts_operator (by simpa using hmem) ?_ (fun hk => absurd hk hslash)
    (fun hk => absurd hk hdot)
  intro c _
  rw [hext]
  rfl

/-- An operator with a blank or nothing behind it. -/
theorem starts_beforeBlank (h : k ∈ Kind.operators) (hr : Follows (· == ' ') rest) :
    Starts (k, k.spelling) rest := by
  have hall : ∀ k ∈ Kind.operators, (!(extensions k).contains ' ') = true := by decide +kernel
  refine starts_operator h (hr.mono fun c hc => ?_) (fun _ => hr.mono fun c hc => ?_)
    fun _ => hr.mono fun c hc => ?_
  · rw [beq_iff_eq.mp hc]
    exact hall k h
  · rw [beq_iff_eq.mp hc]
    rfl
  · rw [beq_iff_eq.mp hc]
    rfl

theorem starts_spaced (h : k ∈ Kind.operators) : Starts (k, k.spelling) (' ' :: rest) :=
  starts_beforeBlank h (follows_cons rfl)

theorem Cuts.char {c : Char} (hk : k.spelling.toList = [c]) (hs : Starts (k, k.spelling) rest)
    (h : Cuts rest words) : Cuts (c :: rest) ((k, k.spelling) :: words) := by
  have hcuts := Cuts.cons hs h
  rwa [hk] at hcuts

/-- The word that a name is cut as. -/
def nameWord (name : String) : Word :=
  (if name = "this" then .thisKw else if name = "super" then .superKw else .identifier, name)

theorem nameWord_isName (name : String) : isName (nameWord name).1 = true := by
  unfold nameWord
  split
  · rfl
  · split <;> rfl

theorem starts_nameWord {name : String} (hname : IsWordText name) (hfree : isFree name = true)
    (hr : Follows isBreak rest) : Starts (nameWord name) rest := by
  have hkeyword : Follows (fun x => !Unicode.isIdentifierPart x && !Lexer.unreserves x) rest :=
    hr.mono fun c hc => by simp [isBreak_facts hc]
  unfold nameWord
  split
  · rename_i hthis
    rw [hthis]
    exact starts_keyword (show .thisKw ∈ exprWords by decide) hkeyword
  · split
    · rename_i hsuper
      rw [hsuper]
      exact starts_keyword (show .superKw ∈ exprWords by decide) hkeyword
    · rename_i hthis hsuper
      refine starts_name hname ?_ (hr.mono fun c hc => by simp [isBreak_facts hc])
      simpa [isFree, hthis, hsuper] using hfree

end Words

/-- Words and text that start alike: a sign or a number among the words shows in the text. -/
def Opening (us : List Word) (cs : List Char) : Prop :=
  ∃ w ws c ds, us = w :: ws ∧ cs = c :: ds ∧ opensText c = true ∧ (w.1 = .minus → c = '-') ∧
    (isNumber w.1 = true → c.isDigit = true)

theorem Opening.append {us vs : List Word} {cs ds : List Char} (h : Opening us cs) :
    Opening (us ++ vs) (cs ++ ds) := by
  obtain ⟨w, ws, c, es, rfl, rfl, hfacts⟩ := h
  exact ⟨w, ws ++ vs, c, es ++ ds, rfl, rfl, hfacts⟩

/-- The printed expression is cut into these words, which spell it, if what follows ends them. -/
structure Prints (n : Nat) (tree : Tree .expr) (us : List Word) : Prop where
  spelled : Spelled n tree us
  opening : Opening us tree.text
  cut : ∀ rest vs, Cuts rest vs → Follows isBreak rest →
    (rest.head? = some '.' → n = 15 ∧ tree.isInt = false) → Cuts (tree.text ++ rest) (us ++ vs)

section Literals

variable {extent : Extent}

theorem repr_opens (n : Nat) : ∃ c ds, n.repr.toList = c :: ds ∧ c.isDigit = true := by
  obtain ⟨c, ds, hdigits, hall, _⟩ := toDigits_cons n
  exact ⟨c, ds, Nat.toList_repr.trans hdigits, hall c List.mem_cons_self⟩

theorem opensText_of_isDigit {c : Char} (h : c.isDigit = true) : opensText c = true := by
  simp [opensText, h]

/-- A sign that no operator is made of. -/
theorem starts_minus {c : Char} {cs : List Char} (hc : c.isDigit = true) :
    Starts (.minus, Kind.minus.spelling) (c :: cs) := by
  refine starts_operator (by decide) (follows_cons ?_) (by simp) (by simp)
  have hall : (extensions .minus).all (fun d => !d.isDigit) = true := by decide
  simp only [Bool.not_eq_eq_eq_not, Bool.not_true, List.contains_eq_mem, decide_eq_false_iff_not]
  intro hmem
  have hnot := List.all_eq_true.mp hall c hmem
  rw [hc] at hnot
  cases hnot

theorem follows_int {rest : List Char} (hr : Follows isBreak rest) (hdot : rest.head? ≠ some '.') :
    Follows (fun c => !isNumeric c && !(['l', 'L'].contains c)) rest := by
  intro c hc
  obtain ⟨_, _, hnumeric⟩ := isBreak_facts (hr c hc)
  have hne : c ≠ '.' := by
    rintro rfl
    exact hdot hc
  show (!isNumeric c && !(['l', 'L'].contains c)) = true
  rw [(hnumeric hne).1, (hnumeric hne).2]
  rfl

/-- A word for a number, with the sign in front of it or without. -/
theorem prints_number {value : Literal} {digits : String} {negated : Bool}
    (htext : value.text.toList = (if negated then ['-'] else []) ++ digits.toList)
    (hopens : ∃ c ds, digits.toList = c :: ds ∧ c.isDigit = true)
    (hvalue : Literal.integer digits negated = .ok value)
    (hstarts : ∀ rest, Follows isBreak rest →
      (rest.head? = some '.' → (Tree.literal value extent).isInt = false) →
      Starts (.integerLit, digits) rest) :
    Prints 15 (.literal value extent)
      ((if negated then [(.minus, Kind.minus.spelling)] else []) ++ [(.integerLit, digits)]) := by
  obtain ⟨c, ds, hdigits, hc⟩ := hopens
  have hread : Word.value? (.integerLit, digits) negated = some (.ok value) := congrArg some hvalue
  cases negated with
  | false =>
    refine ⟨.literal hread rfl, ?_, fun rest vs hcuts hr hdot => ?_⟩
    · refine ⟨_, _, c, ds, rfl, by rw [text_literal, htext]; exact hdigits,
        opensText_of_isDigit hc, ?_, fun _ => hc⟩
      rintro ⟨⟩
    · rw [text_literal, htext]
      exact Cuts.cons (hstarts rest hr fun h => (hdot h).2) hcuts
  | true =>
    refine ⟨.negative rfl rfl hread rfl, ?_, fun rest vs hcuts hr hdot => ?_⟩
    · refine ⟨_, _, '-', digits.toList, rfl, by rw [text_literal, htext]; rfl, by decide,
        fun _ => rfl, ?_⟩
      rintro ⟨⟩
    · rw [text_literal, htext]
      refine Cuts.char (by decide) ?_ (Cuts.cons (hstarts rest hr fun h => (hdot h).2) hcuts)
      rw [hdigits]
      exact starts_minus hc

/-- A number is printed as its sign and digits. -/
theorem toString_signed (v : Int) : ∃ n negated, v = Literal.signed negated n ∧
    (toString v).toList = (if negated then ['-'] else []) ++ n.repr.toList := by
  rw [Int.toString_eq_repr, Int.repr_eq_if]
  by_cases hv : 0 ≤ v
  · refine ⟨v.toNat, false, (Int.toNat_of_nonneg hv).symm, ?_⟩
    rw [if_pos hv]
    rfl
  · refine ⟨(-v).toNat, true, ?_, ?_⟩
    · simp only [Literal.signed, if_true]
      omega
    · rw [if_neg hv, String.toList_append]
      rfl

theorem le_limit {w n : Nat} {negated : Bool} (hlow : -2 ^ w ≤ Literal.signed negated n)
    (hhigh : Literal.signed negated n < 2 ^ w) : n ≤ Literal.limit (w + 1) true negated := by
  have hcast : ((2 ^ w : Nat) : Int) = 2 ^ w := Int.natCast_pow 2 w
  cases negated with
  | false =>
    show n ≤ 2 ^ w - 1
    simp only [Literal.signed, Bool.false_eq_true, if_false] at hhigh
    omega
  | true =>
    show n ≤ 2 ^ w
    simp only [Literal.signed, if_true] at hlow
    omega

theorem prints_int {v : Int} (h : (Literal.int v).InRange) :
    ∃ us, Prints 15 (.literal (.int v) extent) us := by
  obtain ⟨n, negated, rfl, htext⟩ := toString_signed v
  refine ⟨_, prints_number htext (repr_opens n) (Literal.integer_repr (le_limit h.1 h.2)) ?_⟩
  intro rest hr hdot
  exact starts_int (follows_int hr fun h => by cases hdot h)

theorem prints_long {v : Int} (h : (Literal.long v).InRange) :
    ∃ us, Prints 15 (.literal (.long v) extent) us := by
  obtain ⟨n, negated, rfl, htext⟩ := toString_signed v
  obtain ⟨c, ds, hdigits, hc⟩ := repr_opens n
  refine ⟨_, prints_number ?_ ⟨c, ds ++ ['L'], ?_, hc⟩
    (Literal.integer_repr_long (le_limit h.1 h.2)) fun _ _ _ => starts_long⟩
  · show (toString (Literal.signed negated n) ++ "L").toList = _
    rw [String.toList_append, String.toList_append, htext, List.append_assoc]
  · rw [String.toList_append, hdigits]
    rfl

theorem prints_keyword {value : Literal} {k : Kind} (hk : k ∈ [.trueKw, .falseKw, .nullKw])
    (hread : Word.value? (k, k.spelling) false = some (.ok value))
    (htext : value.text = k.spelling) : ∃ us, Prints 15 (.literal value extent) us := by
  have hfacts : ∀ k ∈ [Kind.trueKw, .falseKw, .nullKw], k ∈ exprWords ∧ k ≠ .minus ∧
      isNumber k = false ∧ ∃ c ds, k.spelling.toList = c :: ds ∧ opensText c = true := by
    intro k hk
    simp only [List.mem_cons, List.not_mem_nil, or_false] at hk
    rcases hk with rfl | rfl | rfl <;>
      exact ⟨by decide, by decide, rfl, _, _, rfl, by decide⟩
  obtain ⟨hword, hminus, hnumber, c, ds, hchars, hc⟩ := hfacts k hk
  refine ⟨[(k, k.spelling)], .literal hread rfl, ?_, fun rest vs hcuts hr _ => ?_⟩
  · refine ⟨_, _, c, ds, rfl, by rw [text_literal, htext, hchars], hc,
      fun h => absurd h hminus, fun h => ?_⟩
    rw [hnumber] at h
    cases h
  · rw [text_literal, htext]
    exact Cuts.cons (starts_keyword hword (hr.mono fun c hc => by simp [isBreak_facts hc])) hcuts

theorem floating_not_whole {text : String} {negated : Bool} {value : Literal}
    (h : Literal.floating text negated = .ok value) (v : Int) :
    value ≠ .int v ∧ value ≠ .long v := by
  unfold Literal.floating at h
  cases hcheck : Literal.checkUnderscores text.toList with
  | error error => simp [hcheck, bind, Except.bind] at h
  | ok _ =>
    simp only [hcheck, bind, Except.bind] at h
    split at h
    · cases h
    · split at h
      · cases h
      · split at h
        · cases h
        · cases h
          split <;> simp

theorem value?_inRange {w : Word} {negated : Bool} {value : Literal}
    (h : w.value? negated = some (.ok value)) :
    value.InRange ∨ ∀ v, value ≠ .int v ∧ value ≠ .long v := by
  obtain ⟨k, text⟩ := w
  have hmap {α : Type} {read : Except LiteralError α} {f : α → Literal}
      (hread : read.map f = .ok value) : ∃ a, value = f a := by
    cases read with
    | error error => cases hread
    | ok a =>
      cases hread
      exact ⟨a, rfl⟩
  simp only [Word.value?, Grammar.literalValue] at h
  split at h <;> simp only [Option.some.injEq, reduceCtorEq] at h
  · exact .inl (Literal.integer_inRange h)
  · exact .inr (floating_not_whole h)
  · obtain ⟨a, rfl⟩ := hmap h
    simp
  · obtain ⟨a, rfl⟩ := hmap h
    simp
  · obtain ⟨a, rfl⟩ := hmap h
    simp
  all_goals
    cases h
    simp

theorem prints_literal {value read : Literal} {w : Word} {negated : Bool}
    (hread : w.value? negated = some (.ok read)) (hsame : read.erase = value.erase)
    (hsimple : value.isSimple = true) : ∃ us, Prints 15 (.literal value extent) us := by
  have hrange := value?_inRange hread
  cases value with
  | int v =>
    cases read <;> cases hsame
    exact prints_int (hrange.resolve_right fun h => (h v).1 rfl)
  | long v =>
    cases read <;> cases hsame
    exact prints_long (hrange.resolve_right fun h => (h v).2 rfl)
  | boolean b =>
    cases b with
    | false => exact prints_keyword (k := .falseKw) (by decide) rfl rfl
    | true => exact prints_keyword (k := .trueKw) (by decide) rfl rfl
  | null => exact prints_keyword (k := .nullKw) (by decide) rfl rfl
  | _ => cases hsimple

end Literals

/-- The printed arguments are cut into words that spell them, if their parenthesis closes there. -/
structure PrintsArgs (args : Tree (.list .expr)) (us : List Word) : Prop where
  spelled : Spelled 0 args us
  cut : ∀ rest vs, Cuts (')' :: rest) vs → Cuts (args.argsText ++ ')' :: rest) (us ++ vs)

section Trees

open Grammar

variable {n : Nat} {tree left right third : Tree .expr} {args : Tree (.list .expr)}
  {extent : Extent} {name : String} {us vs ws words : List Word} {rest : List Char} {k : Kind}

/-- The word of a kind that is always spelled the same. -/
def fixed (k : Kind) : Word := (k, k.spelling)

theorem Prints.cutBefore {c : Char} (h : Prints n tree us) (hc : isBreak c = true) (hdot : c ≠ '.')
    (hcuts : Cuts (c :: rest) words) : Cuts (tree.text ++ c :: rest) (us ++ words) := by
  refine h.cut _ _ hcuts (follows_cons hc) fun hhead => ?_
  cases hhead
  exact absurd rfl hdot

theorem Prints.cutAtDot (h : Prints 15 tree us) (hint : tree.isInt = false)
    (hcuts : Cuts ('.' :: rest) words) : Cuts (tree.text ++ '.' :: rest) (us ++ words) :=
  h.cut _ _ hcuts (follows_cons rfl) fun _ => ⟨rfl, hint⟩

/-- An operator between blanks. -/
theorem cuts_spaced {cs : List Char} (hk : k ∈ Kind.operators) (h : Cuts cs words) :
    Cuts (' ' :: (k.spelling.toList ++ ' ' :: cs)) (fixed k :: words) :=
  Cuts.skip rfl (Cuts.cons (starts_spaced hk) (Cuts.skip rfl h))

/-- What stands around and between expressions without an operator. -/
def brackets : List Kind := [.lparen, .rparen, .lbracket, .rbracket, .comma]

theorem cuts_bracket {c : Char} (hk : k ∈ brackets) (hc : k.spelling.toList = [c])
    (h : Cuts rest words) : Cuts (c :: rest) (fixed k :: words) := by
  have hclosed : ∀ k ∈ brackets, isClosed k = true := by decide
  exact Cuts.char hc (starts_closed (hclosed k hk)) h

theorem PrintsArgs.cutParens (h : PrintsArgs args us) (hcuts : Cuts rest words) :
    Cuts ('(' :: (args.argsText ++ ')' :: rest))
      (fixed .lparen :: (us ++ fixed .rparen :: words)) :=
  cuts_bracket (k := .lparen) (by decide) rfl
    (h.cut _ _ (cuts_bracket (k := .rparen) (by decide) rfl hcuts))

theorem prints_lower (hlt : n < 15) (hpos : 0 < n) (h : Prints (n + 1) tree us) :
    Prints n tree us :=
  ⟨.lower hpos hlt h.spelled, h.opening, fun rest vs hcuts hr hdot =>
    h.cut rest vs hcuts hr fun hhead => absurd (hdot hhead).1 (by omega)⟩

theorem printsArgs_nil : PrintsArgs .nil [] :=
  ⟨.nil, fun rest vs h => by rwa [argsText_nil]⟩

theorem printsArgs_one (h : Prints 1 left us) : PrintsArgs (.cons left .nil) us := by
  refine ⟨.one h.spelled, fun rest vs hcuts => ?_⟩
  rw [argsText_one]
  exact h.cutBefore rfl (by decide) hcuts

theorem printsArgs_more (h : Prints 1 left us) (h' : PrintsArgs (.cons right args) ws) :
    PrintsArgs (.cons left (.cons right args)) (us ++ fixed .comma :: ws) := by
  refine ⟨.more h.spelled rfl h'.spelled, fun rest vs hcuts => ?_⟩
  rw [argsText_more, List.append_assoc, List.append_assoc]
  exact h.cutBefore rfl (by decide)
    (cuts_bracket (k := .comma) (by decide) rfl (Cuts.skip rfl (h'.cut rest vs hcuts)))

theorem opening_name (us : List Word) (rest : List Char) (hname : IsWordText name) :
    Opening (nameWord name :: us) (name.toList ++ rest) := by
  obtain ⟨c, cs, hchars, hc, _⟩ := hname
  refine ⟨_, _, c, cs ++ rest, rfl, by rw [hchars]; rfl, by simp [opensText, hc], ?_, ?_⟩
  · intro hminus
    have hnamed := nameWord_isName name
    rw [hminus] at hnamed
    cases hnamed
  · intro hnumber
    have hnamed := nameWord_isName name
    simp only [isNumber, Bool.or_eq_true, beq_iff_eq] at hnumber
    rcases hnumber with hk | hk <;> (rw [hk] at hnamed; cases hnamed)

theorem prints_ident (hname : IsWordText name) (hfree : isFree name = true) :
    Prints 15 (.ident name extent) [nameWord name] := by
  refine ⟨.ident (nameWord_isName name), ?_, fun rest vs hcuts hr _ => ?_⟩
  · have hopening := opening_name [] [] hname
    rw [text_ident]
    rwa [List.append_nil] at hopening
  · rw [text_ident]
    exact Cuts.cons (starts_nameWord hname hfree hr) hcuts

theorem prints_paren (h : Prints 1 left us) :
    Prints 15 (.paren left extent) (fixed .lparen :: (us ++ [fixed .rparen])) := by
  refine ⟨.paren rfl rfl h.spelled, ?_, fun rest vs hcuts _ _ => ?_⟩
  · rw [text_paren]
    exact ⟨_, _, _, _, rfl, rfl, by decide, by rintro ⟨⟩, by rintro ⟨⟩⟩
  · rw [text_paren]
    simp only [List.append_assoc, List.cons_append, List.nil_append]
    exact cuts_bracket (k := .lparen) (by decide) rfl
      (h.cutBefore rfl (by decide) (cuts_bracket (k := .rparen) (by decide) rfl hcuts))

theorem prints_call (hname : IsWordText name) (hfree : isFree name = true)
    (h : PrintsArgs args us) : Prints 15 (.call .none .nil name args extent)
      (nameWord name :: fixed .lparen :: (us ++ [fixed .rparen])) := by
  refine ⟨.call (nameWord_isName name) rfl rfl h.spelled, ?_, fun rest vs hcuts _ _ => ?_⟩
  · rw [text_call]
    exact opening_name _ _ hname
  · rw [text_call]
    simp only [List.append_assoc, List.cons_append, List.nil_append]
    exact Cuts.cons (starts_nameWord hname hfree (follows_cons rfl)) (h.cutParens hcuts)

theorem starts_dot (hname : IsWordText name) : Starts (fixed .dot) (name.toList ++ rest) := by
  obtain ⟨c, cs, hchars, hc, _⟩ := hname
  rw [hchars]
  refine starts_operator (by decide) (follows_cons ?_) (by simp) fun _ => follows_cons ?_
  · have hall : (extensions .dot).all (fun d => !Unicode.isIdentifierStart d) = true := by
      decide
    simp only [Bool.not_eq_eq_eq_not, Bool.not_true, List.contains_eq_mem, decide_eq_false_iff_not]
    intro hmem
    have hnot := List.all_eq_true.mp hall c hmem
    rw [hc] at hnot
    cases hnot
  · cases hdigit : c.isDigit with
    | false => rfl
    | true =>
      rw [(isDigit_facts hdigit).2] at hc
      cases hc

theorem prints_select (h : Prints 15 left us) (hint : left.isInt = false)
    (hname : IsWordText name) (hfree : isFree name = true) :
    Prints 15 (.select left name extent) (us ++ fixed .dot :: [nameWord name]) := by
  refine ⟨.select h.spelled rfl (.inl rfl) (nameWord_isName name), ?_, fun rest vs hcuts hr _ => ?_⟩
  · rw [text_select]
    exact h.opening.append
  · rw [text_select]
    simp only [List.append_assoc, List.cons_append, List.nil_append]
    exact h.cutAtDot hint
      (Cuts.char rfl (starts_dot hname) (Cuts.cons (starts_nameWord hname hfree hr) hcuts))

theorem prints_callOn (h : Prints 15 left us) (hint : left.isInt = false)
    (hname : IsWordText name) (hfree : isFree name = true) (hthis : name ≠ "this")
    (h' : PrintsArgs args ws) : Prints 15 (.call (.some left) .nil name args extent)
      (us ++ fixed .dot :: (nameWord name :: fixed .lparen :: (ws ++ [fixed .rparen]))) := by
  refine ⟨.callOn h.spelled rfl (.inl rfl) (nameWord_isName name) ?_ rfl rfl h'.spelled, ?_,
    fun rest vs hcuts hr _ => ?_⟩
  · unfold nameWord
    rw [if_neg hthis]
    split <;> simp
  · rw [text_callOn]
    exact h.opening.append
  · rw [text_callOn]
    simp only [List.append_assoc, List.cons_append, List.nil_append]
    exact h.cutAtDot hint (Cuts.char rfl (starts_dot hname)
      (Cuts.cons (starts_nameWord hname hfree (follows_cons rfl)) (h'.cutParens hcuts)))

theorem prints_index (h : Prints 15 left us) (h' : Prints 1 right ws) :
    Prints 15 (.index left right extent)
      (us ++ fixed .lbracket :: (ws ++ [fixed .rbracket])) := by
  refine ⟨.index h.spelled rfl rfl h'.spelled, ?_, fun rest vs hcuts hr _ => ?_⟩
  · rw [text_index]
    exact h.opening.append
  · rw [text_index]
    simp only [List.append_assoc, List.cons_append, List.nil_append]
    exact h.cutBefore rfl (by decide) (cuts_bracket (k := .lbracket) (by decide) rfl
      (h'.cutBefore rfl (by decide) (cuts_bracket (k := .rbracket) (by decide) rfl hcuts)))

theorem Opening.head?_eq {cs : List Char} (h : Opening us cs) :
    ∃ c ds, cs = c :: ds ∧ cs.head? = some c ∧ opensText c = true ∧
      (c ≠ '-' → Heads (· != .minus) us) ∧ (c.isDigit = false → Heads (!isNumber ·) us) := by
  obtain ⟨w, ws, c, ds, rfl, rfl, hopens, hminus, hnumber⟩ := h
  refine ⟨c, ds, rfl, rfl, hopens, ?_, ?_⟩
  · rintro hne _ ⟨⟩
    simp only [bne_iff_ne]
    exact fun hk => hne (hminus hk)
  · rintro hdigit _ ⟨⟩
    simp only [Bool.not_eq_eq_eq_not, Bool.not_true, Bool.eq_false_iff]
    intro hk
    rw [hnumber hk] at hdigit
    cases hdigit

theorem trailingOp?_spelling {op : UnaryOp} (h : trailingOp? k = some op) :
    isClosed k = true ∧ k.spelling = op.spelling ∧ op.isTrailing = true ∧
      (∀ first, op.staysApart first = (first != some '-')) ∧
      k.spelling.toList.head?.any (fun c => isBreak c && c != '.') = true := by
  unfold trailingOp? at h
  split at h <;> cases h <;> exact ⟨by decide, rfl, rfl, fun _ => rfl, by decide⟩

theorem prints_trailing {op : UnaryOp} (hop : trailingOp? k = some op) (h : Prints 14 left us)
    (hapart : op.staysApart left.text.head? = true) :
    Prints 14 (.unary op left extent) (us ++ [fixed k]) := by
  obtain ⟨hclosed, hspelling, htrailing, hstays, hbreak⟩ := trailingOp?_spelling hop
  obtain ⟨c, ds, _, hhead, _, hsign, _⟩ := h.opening.head?_eq
  refine ⟨.trailing h.spelled (hsign ?_) hop, ?_, fun rest vs hcuts _ _ => ?_⟩
  · rw [hstays, hhead] at hapart
    simpa using hapart
  · rw [text_trailing htrailing]
    exact h.opening.append
  · rw [text_trailing htrailing, ← hspelling, List.append_assoc, List.append_assoc]
    obtain ⟨d, hd, hfacts⟩ := (Option.any_eq_true _ _).mp hbreak
    obtain ⟨es, hchars⟩ := List.head?_eq_some_iff.mp hd
    simp only [Bool.and_eq_true, bne_iff_ne] at hfacts
    have hcuts' := Cuts.cons (starts_closed hclosed) hcuts
    rw [hchars] at hcuts' ⊢
    exact h.cutBefore hfacts.1 hfacts.2 hcuts'

theorem leadingOp?_spelling {op : UnaryOp} (h : leadingOp? k = some op) :
    k ∈ Kind.operators ∧ k ≠ .slash ∧ k ≠ .dot ∧ isNumber k = false ∧
      k.spelling = op.spelling ∧ op.isTrailing = false ∧
      (extensions k).all (fun d => !(opensText d && op.staysApart (some d))) = true ∧
      ∃ c ds, k.spelling.toList = c :: ds ∧ opensText c = true ∧ (k = .minus → c = '-') := by
  unfold leadingOp? at h
  split at h <;> cases h <;>
    exact ⟨by decide, by decide, by decide, rfl, rfl, rfl, by decide, _, _, rfl,
      by decide, by decide⟩

theorem prints_leading {op : UnaryOp} (hop : leadingOp? k = some op) (h : Prints 13 left us)
    (hapart : op.staysApart left.text.head? = true) :
    Prints 13 (.unary op left extent) (fixed k :: us) := by
  obtain ⟨hmem, hslash, hdot, hnumber, hspelling, hleading, hext, c, ds, hchars, hopens, hminus⟩ :=
    leadingOp?_spelling hop
  obtain ⟨d, es, htext, hhead, hd, _, hdigit⟩ := h.opening.head?_eq
  rw [hhead] at hapart
  refine ⟨.leading hop (fun hsign => hdigit ?_) h.spelled, ?_, fun rest vs hcuts hr hpoint => ?_⟩
  · rw [hsign] at hapart
    simpa [UnaryOp.staysApart] using (Bool.and_eq_true_iff.mp hapart).2
  · rw [text_leading hleading, ← hspelling, hchars]
    refine ⟨fixed k, us, c, ds ++ left.text, rfl, rfl, hopens, hminus, fun hk => ?_⟩
    exact absurd hk (by simp [fixed, hnumber])
  · rw [text_leading hleading, ← hspelling, List.append_assoc]
    refine Cuts.cons ?_ (h.cut rest vs hcuts hr fun hh => ?_)
    · rw [htext]
      refine starts_operator hmem (follows_cons ?_) (fun hk => absurd hk hslash)
        (fun hk => absurd hk hdot)
      simp only [Bool.not_eq_eq_eq_not, Bool.not_true, List.contains_eq_mem,
        decide_eq_false_iff_not]
      intro hin
      have hno := List.all_eq_true.mp hext d hin
      rw [hd, hapart] at hno
      cases hno
    · exact absurd (hpoint hh).1 (by omega)

theorem binaryOp?_spelling {op : BinaryOp} {level : Nat} (h : binaryOp? k = some (op, level)) :
    k ∈ Kind.operators ∧ k.spelling = op.spelling := by
  unfold binaryOp? at h
  split at h <;> cases h <;> exact ⟨by decide, rfl⟩

theorem assignOp?_spelling {op : AssignOp} (h : assignOp? k = some op) :
    k ∈ Kind.operators ∧ k.spelling = op.spelling := by
  unfold assignOp? at h
  split at h <;> cases h <;> exact ⟨by decide, rfl⟩

theorem prints_binary {op : BinaryOp} {level : Nat} (hop : binaryOp? k = some (op, level))
    (h : Prints (level + 2) left us) (h' : Prints (level + 3) right ws) :
    Prints (level + 2) (.binary left op right extent) (us ++ fixed k :: ws) := by
  obtain ⟨hmem, hspelling⟩ := binaryOp?_spelling hop
  obtain ⟨_, _, _, hhigh⟩ := binaryOp?_facts hop
  refine ⟨.binary hop h.spelled h'.spelled, ?_, fun rest vs hcuts hr hpoint => ?_⟩
  · rw [text_binary]
    exact h.opening.append
  · rw [text_binary, ← hspelling]
    simp only [List.append_assoc, List.cons_append]
    refine h.cutBefore rfl (by decide) (cuts_spaced hmem (h'.cut rest vs hcuts hr fun hh => ?_))
    exact absurd (hpoint hh).1 (by omega)

theorem prints_assign {op : AssignOp} (hop : assignOp? k = some op)
    (h : Prints 2 left us) (h' : Prints 1 right ws) :
    Prints 1 (.assign left op right extent) (us ++ fixed k :: ws) := by
  obtain ⟨hmem, hspelling⟩ := assignOp?_spelling hop
  refine ⟨.assign h.spelled hop h'.spelled, ?_, fun rest vs hcuts hr hpoint => ?_⟩
  · rw [text_assign]
    exact h.opening.append
  · rw [text_assign, ← hspelling]
    simp only [List.append_assoc, List.cons_append]
    refine h.cutBefore rfl (by decide) (cuts_spaced hmem (h'.cut rest vs hcuts hr fun hh => ?_))
    exact absurd (hpoint hh).1 (by omega)

theorem prints_conditional (h : Prints 3 left us) (h' : Prints 1 right ws)
    (h'' : Prints 2 third vs) : Prints 2 (.conditional left right third extent)
      (us ++ fixed .question :: (ws ++ fixed .colon :: vs)) := by
  refine ⟨.conditional h.spelled rfl h'.spelled rfl h''.spelled, ?_,
    fun rest words hcuts hr hpoint => ?_⟩
  · rw [text_conditional]
    exact h.opening.append
  · rw [text_conditional]
    simp only [List.append_assoc, List.cons_append]
    refine h.cutBefore rfl (by decide) (cuts_spaced (k := .question) (by decide)
      (h'.cutBefore rfl (by decide) (cuts_spaced (k := .colon) (by decide)
        (h''.cut rest words hcuts hr fun hh => ?_))))
    exact absurd (hpoint hh).1 (by omega)

end Trees

/-- Whether the text that a tree is printed with spells it again. -/
def Tree.IsPrinted : {c : Category} → Nat → Tree c → Prop
  | .expr, n, tree => ∃ us, Prints n tree us
  | .list .expr, _, args => ∃ us, PrintsArgs args us
  | _, _, _ => True

/-- By induction on what spelled the tree before: its words need not be the printed ones, but its
names and numbers are such as could be read. -/
theorem Spelled.isPrinted {c : Category} {n : Nat} {tree : Tree c} {ws : List Word}
    (h : Spelled n tree ws) (hproper : Proper ws) (hapart : tree.isApart = true) :
    tree.IsPrinted n := by
  induction h with
  | lower hpos hlt _ ih =>
    obtain ⟨us, hus⟩ := ih hproper hapart
    exact ⟨us, prints_lower hlt hpos hus⟩
  | nil => exact ⟨[], printsArgs_nil⟩
  | one _ ih =>
    obtain ⟨us, hus⟩ := ih hproper (Bool.and_eq_true_iff.mp hapart).1
    exact ⟨us, printsArgs_one hus⟩
  | more _ _ _ ih ih' =>
    obtain ⟨hfirst, hothers⟩ := Bool.and_eq_true_iff.mp hapart
    simp only [proper_append, proper_cons] at hproper
    obtain ⟨us, hus⟩ := ih hproper.1 hfirst
    obtain ⟨vs, hvs⟩ := ih' hproper.2.2 hothers
    exact ⟨_, printsArgs_more hus hvs⟩
  | literal hread hsame | negative _ _ hread hsame => exact prints_literal hread hsame hapart
  | ident hname =>
    exact ⟨_, prints_ident ((proper_cons.mp hproper).1.name_text hname) hapart⟩
  | paren _ _ _ ih =>
    simp only [proper_append, proper_cons] at hproper
    obtain ⟨us, hus⟩ := ih hproper.2.1 hapart
    exact ⟨_, prints_paren hus⟩
  | call hname _ _ _ ih =>
    obtain ⟨hfree, hargs⟩ := Bool.and_eq_true_iff.mp hapart
    simp only [proper_append, proper_cons] at hproper
    obtain ⟨us, hus⟩ := ih hproper.2.2.1 hargs
    exact ⟨_, prints_call (hproper.1.name_text hname) hfree hus⟩
  | select _ _ _ hname ih =>
    obtain ⟨htarget, hfree⟩ := Bool.and_eq_true_iff.mp hapart
    obtain ⟨htarget, hint⟩ := Bool.and_eq_true_iff.mp htarget
    simp only [proper_append, proper_cons] at hproper
    obtain ⟨us, hus⟩ := ih hproper.1 htarget
    exact ⟨_, prints_select hus (by simpa using hint) (hproper.2.2.2.1.name_text hname) hfree⟩
  | callOn _ _ _ hname _ _ _ _ ih ih' =>
    obtain ⟨hleft, hargs⟩ := Bool.and_eq_true_iff.mp hapart
    obtain ⟨hleft, hnamed⟩ := Bool.and_eq_true_iff.mp hleft
    obtain ⟨hleft, hint⟩ := Bool.and_eq_true_iff.mp hleft
    obtain ⟨hfree, hthis⟩ := Bool.and_eq_true_iff.mp hnamed
    simp only [proper_append, proper_cons] at hproper
    obtain ⟨us, hus⟩ := ih hproper.1 hleft
    obtain ⟨vs, hvs⟩ := ih' hproper.2.2.2.2.2.1 hargs
    exact ⟨_, prints_callOn hus (by simpa using hint) (hproper.2.2.2.1.name_text hname) hfree
      (bne_iff_ne.mp hthis) hvs⟩
  | index _ _ _ _ ih ih' =>
    obtain ⟨harray, hindex⟩ := Bool.and_eq_true_iff.mp hapart
    simp only [proper_append, proper_cons] at hproper
    obtain ⟨us, hus⟩ := ih hproper.1 harray
    obtain ⟨vs, hvs⟩ := ih' hproper.2.2.1 hindex
    exact ⟨_, prints_index hus hvs⟩
  | trailing _ _ hop ih =>
    obtain ⟨hoperand, hstays⟩ := Bool.and_eq_true_iff.mp hapart
    obtain ⟨us, hus⟩ := ih (proper_append.mp hproper).1 hoperand
    exact ⟨_, prints_trailing hop hus hstays⟩
  | leading hop _ _ ih =>
    obtain ⟨hoperand, hstays⟩ := Bool.and_eq_true_iff.mp hapart
    obtain ⟨us, hus⟩ := ih (proper_cons.mp hproper).2 hoperand
    exact ⟨_, prints_leading hop hus hstays⟩
  | binary hop _ _ ih ih' =>
    obtain ⟨hleft, hright⟩ := Bool.and_eq_true_iff.mp hapart
    simp only [proper_append, proper_cons] at hproper
    obtain ⟨us, hus⟩ := ih hproper.1 hleft
    obtain ⟨vs, hvs⟩ := ih' hproper.2.2 hright
    exact ⟨_, prints_binary hop hus hvs⟩
  | conditional _ _ _ _ _ ih ih' ih'' =>
    obtain ⟨hfirst, hno⟩ := Bool.and_eq_true_iff.mp hapart
    obtain ⟨hcondition, hyes⟩ := Bool.and_eq_true_iff.mp hfirst
    simp only [proper_append, proper_cons] at hproper
    obtain ⟨us, hus⟩ := ih hproper.1 hcondition
    obtain ⟨vs, hvs⟩ := ih' hproper.2.2.1 hyes
    obtain ⟨ws, hws⟩ := ih'' hproper.2.2.2.2 hno
    exact ⟨_, prints_conditional hus hvs hws⟩
  | assign _ hop _ ih ih' =>
    obtain ⟨htarget, hvalue⟩ := Bool.and_eq_true_iff.mp hapart
    simp only [proper_append, proper_cons] at hproper
    obtain ⟨us, hus⟩ := ih hproper.1 htarget
    obtain ⟨vs, hvs⟩ := ih' hproper.2.2 hvalue
    exact ⟨_, prints_assign hop hus hvs⟩

end JavaSyntax
