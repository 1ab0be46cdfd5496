import JavaSyntax.Token.Kind

/-!
What the grammar sees of a token: its kind, its text, and whether it touches the token before it.
The functions here look ahead over symbols without taking any; each that looks for the end of
something gives the symbols that follow it.
-/

namespace JavaSyntax

structure Symbol where
  kind : Kind
  text : String
  joined : Bool
deriving DecidableEq

/-- An identifier of this text, for words that are reserved only in places. -/
def Symbol.isWord (s : Symbol) (word : String) : Bool :=
  s.kind == .identifier && s.text == word

namespace Lookahead

/-- Whether the next symbols have these kinds. -/
def next : List Kind → List Symbol → Bool
  | [], _ => true
  | _ :: _, [] => false
  | k :: ks, s :: rest => s.kind == k && next ks rest

/-- Whether the next symbol is of one of these kinds. -/
def nextOneOf (ks : List Kind) : List Symbol → Bool
  | [] => false
  | s :: _ => ks.contains s.kind

def nextWord (word : String) : List Symbol → Bool
  | [] => false
  | s :: _ => s.isWord word

/-- What follows the parenthesis that closes the `depth` open ones. -/
def afterClosing (depth : Nat) : List Symbol → Option (List Symbol)
  | [] => none
  | s :: rest =>
    if s.kind = .lparen then afterClosing (depth + 1) rest
    else if s.kind = .rparen then
      match depth with
      | 0 => none
      | 1 => some rest
      | d + 2 => afterClosing (d + 1) rest
    else afterClosing depth rest

/-- Where a run of annotations stands: between two, behind a name, or inside parentheses. -/
inductive AnnotationScan where
  | outside
  | named
  | inside (depth : Nat)

/-- What follows a run of annotations, and of `final` if `finals` allows it. Fails on an annotation
without a name or with parentheses that do not close. -/
def skipAnnotations (finals : Bool) : AnnotationScan → List Symbol → Option (List Symbol)
  | .inside _, [] => none
  | .inside d, s :: rest =>
    if s.kind = .lparen then skipAnnotations finals (.inside (d + 1)) rest
    else if s.kind = .rparen then
      if d = 0 then skipAnnotations finals .outside rest
      else skipAnnotations finals (.inside (d - 1)) rest
    else skipAnnotations finals (.inside d) rest
  | .named, s :: t :: rest =>
    if s.kind = .dot ∧ t.kind = .identifier then skipAnnotations finals .named rest
    else if s.kind = .lparen then skipAnnotations finals (.inside 0) (t :: rest)
    else if s.kind = .atSign ∧ t.kind ≠ .interfaceKw then
      if t.kind = .identifier then skipAnnotations finals .named rest else none
    else if finals ∧ s.kind = .finalKw then skipAnnotations finals .outside (t :: rest)
    else some (s :: t :: rest)
  | .outside, s :: t :: rest =>
    if s.kind = .atSign ∧ t.kind ≠ .interfaceKw then
      if t.kind = .identifier then skipAnnotations finals .named rest else none
    else if finals ∧ s.kind = .finalKw then skipAnnotations finals .outside (t :: rest)
    else some (s :: t :: rest)
  | scan, [s] =>
    if s.kind = .atSign then none
    else if finals ∧ s.kind = .finalKw then some []
    else
      match scan with
      | .named => if s.kind = .lparen then none else some [s]
      | _ => some [s]
  | _, [] => some []

/-- What follows the dimensions of an array type. -/
def skipDims : List Symbol → List Symbol
  | s :: t :: rest =>
    if s.kind = .lbracket ∧ t.kind = .rbracket then skipDims rest else s :: t :: rest
  | rest => rest

/-- Symbols that may stand between the angle brackets of type arguments. -/
def isTypeArgPart (k : Kind) : Bool :=
  k.isPrimitive || [.identifier, .dot, .comma, .question, .extendsKw, .superKw, .amp, .lbracket,
    .rbracket, .atSign].contains k

/-- How many angle brackets a symbol closes. -/
def closers : Kind → Nat
  | .greater => 1
  | .shr => 2
  | .ushr => 3
  | _ => 0

/-- What follows the segments of a class type, of which `depth` argument lists are still open; with
`fresh` set a name was just read, so that arguments may open. -/
def skipSegments (fresh : Bool) : Nat → List Symbol → Option (List Symbol)
  | 0, s :: t :: rest =>
    if fresh ∧ s.kind = .less then skipSegments false 1 (t :: rest)
    else if s.kind = .dot ∧ t.kind = .identifier then skipSegments true 0 rest
    else some (s :: t :: rest)
  | 0, [s] => if fresh ∧ s.kind = .less then none else some [s]
  | 0, [] => some []
  | _ + 1, [] => none
  | d + 1, s :: rest =>
    if s.kind = .less then skipSegments false (d + 2) rest
    else if 0 < closers s.kind then
      if closers s.kind ≤ d + 1 then skipSegments false (d + 1 - closers s.kind) rest else none
    else if isTypeArgPart s.kind then skipSegments false (d + 1) rest
    else none

/-- What follows a type; `void` is none. -/
def skipType (ts : List Symbol) : Option (List Symbol) :=
  match skipAnnotations false .outside ts with
  | some (s :: rest) =>
    if s.kind.isPrimitive ∧ s.kind ≠ .voidKw then some (skipDims rest)
    else if s.kind = .identifier then (skipSegments true 0 rest).map skipDims
    else none
  | _ => none

/-- What follows `& type & type ...`, for at most `fuel` types. -/
def skipBounds : Nat → List Symbol → Option (List Symbol)
  | 0, ts => some ts
  | _ + 1, [] => some []
  | fuel + 1, s :: rest =>
    if s.kind = .amp then (skipType rest).bind (skipBounds fuel) else some (s :: rest)

/-- The symbols from the name of a local variable on, if one is declared here. -/
def localVariable (ts : List Symbol) : Option (List Symbol) :=
  match (skipAnnotations true .outside ts).bind skipType with
  | some rest => if next [.identifier] rest then some rest else none
  | none => none

def isLocalVariable (ts : List Symbol) : Bool :=
  (localVariable ts).isSome

/-- Whether a loop header declares the variable of an enhanced `for`. -/
def isForEach (ts : List Symbol) : Bool :=
  (localVariable ts).any (next [.identifier, .colon])

/-- Whether a lambda starts here. -/
def isLambda (ts : List Symbol) : Bool :=
  next [.identifier, .arrow] ts ||
    next [.lparen] ts && (afterClosing 0 ts).any (next [.arrow])

/-- Symbols that can start the operand of a cast to a class type. -/
def startsOperand (k : Kind) : Bool :=
  k.isLiteral || k.isPrimitive || [.identifier, .lparen, .bang, .tilde, .thisKw, .superKw, .newKw,
    .switchKw].contains k

/-- Whether a parenthesis opens a cast: it encloses a type, and what follows can be its operand. -/
def isCast (ts : List Symbol) : Bool :=
  match afterClosing 0 ts, (skipType (ts.drop 1)).bind (skipBounds ts.length) with
  | some rest, some inner =>
    let primitive := (skipAnnotations false .outside (ts.drop 1)).any fun us =>
      us.head?.any fun s => s.kind.isPrimitive
    !next [.arrow] rest && inner.length == rest.length + 1 &&
      (primitive || rest.head?.any fun s => startsOperand s.kind)
  | _, _ => false

/-- Whether a type with arguments or dimensions stands in front of `::` or `.class`. -/
def isTypeQualifier (ts : List Symbol) : Bool :=
  match skipType ts with
  | some rest =>
    ((ts.take (ts.length - rest.length)).any fun s => s.kind == .less || s.kind == .lbracket) &&
      (next [.doubleColon] rest || next [.dot, .classKw] rest)
  | none => false

/-- Whether the word `sealed` is a modifier here. -/
def isSealed : List Symbol → Bool
  | s :: t :: _ =>
    s.isWord "sealed" &&
      (t.kind.isModifier || [.classKw, .interfaceKw, .atSign].contains t.kind ||
        t.isWord "sealed" || t.isWord "record" || t.isWord "non")
  | _ => false

/-- Whether `non-sealed` stands here, which is three symbols that touch. -/
def isNonSealed : List Symbol → Bool
  | s :: t :: u :: _ =>
    s.isWord "non" && t.kind == .minus && u.isWord "sealed" && t.joined && u.joined
  | _ => false

def isRecord (ts : List Symbol) : Bool :=
  nextWord "record" ts &&
    (next [.identifier, .identifier, .lparen] ts || next [.identifier, .identifier, .less] ts)

def isTypeDecl (ts : List Symbol) : Bool :=
  nextOneOf [.classKw, .interfaceKw, .enumKw] ts || next [.atSign, .interfaceKw] ts || isRecord ts

def isModule (ts : List Symbol) : Bool :=
  let rest := if nextWord "open" ts then ts.drop 1 else ts
  nextWord "module" rest && next [.identifier, .identifier] rest

/-- Symbols after `yield` that make it a name. -/
def afterYieldName : List Kind := [
  .assign, .addAssign, .subAssign, .mulAssign, .divAssign, .modAssign, .andAssign, .orAssign,
  .xorAssign, .shlAssign, .shrAssign, .ushrAssign, .dot, .lbracket, .colon, .semicolon, .arrow,
  .increment, .decrement, .doubleColon]

def isYield : List Symbol → Bool
  | s :: t :: _ => s.isWord "yield" && !afterYieldName.contains t.kind
  | _ => false

/-- The segments of a dotted name behind its first one. -/
def dottedTail : List Symbol → List String
  | s :: t :: rest =>
    if s.kind = .dot ∧ t.kind = .identifier then t.text :: dottedTail rest else []
  | _ => []

/-- How many pairs of brackets follow. -/
def dims : List Symbol → Nat
  | s :: t :: rest => if s.kind = .lbracket ∧ t.kind = .rbracket then dims rest + 1 else 0
  | _ => 0

/-- The words after `requires`: whether `transitive` and `static` are among them, and how many there
are. A module may be called `transitive`. -/
def requireWords : List Symbol → Bool × Bool × Nat
  | [] => (false, false, 0)
  | s :: rest =>
    if s.isWord "transitive" && !nextOneOf [.semicolon, .dot] rest then
      let (_, isStatic, n) := requireWords rest
      (true, isStatic, n + 1)
    else if s.kind = .staticKw then
      let (isTransitive, _, n) := requireWords rest
      (isTransitive, true, n + 1)
    else (false, false, 0)

end Lookahead

namespace Resync

/-- What follows the bracket that closes the `depth` open ones. -/
def skipGroup (opener closer : Kind) (depth : Nat) : List Symbol → List Symbol
  | [] => []
  | s :: rest =>
    if s.kind = opener then skipGroup opener closer (depth + 1) rest
    else if s.kind = closer then
      if depth ≤ 1 then rest else skipGroup opener closer (depth - 1) rest
    else skipGroup opener closer depth rest

/-- What follows the next symbol, or the whole group if that opens one. -/
def skipBalanced : List Symbol → List Symbol
  | [] => []
  | s :: rest =>
    match s.kind with
    | .lbrace => skipGroup .lbrace .rbrace 1 rest
    | .lparen => skipGroup .lparen .rparen 1 rest
    | .lbracket => skipGroup .lbracket .rbracket 1 rest
    | _ => rest

/-- From where the top level of a file can go on. -/
def topLevel : List Symbol → List Symbol
  | [] => []
  | s :: rest =>
    if s.kind = .semicolon then rest
    else if s.kind = .lbrace then skipBalanced (s :: rest)
    else if s.kind.isModifier ∨
        [.packageKw, .importKw, .classKw, .interfaceKw, .enumKw, .atSign].contains s.kind then
      s :: rest
    else topLevel rest

/-- From where the body of a class can go on. -/
def classBody : List Symbol → List Symbol
  | [] => []
  | s :: rest =>
    if s.kind = .semicolon then rest
    else if s.kind = .lbrace then skipBalanced (s :: rest)
    else if s.kind.isModifier ∨
        [.rbrace, .classKw, .interfaceKw, .enumKw, .atSign, .voidKw].contains s.kind then
      s :: rest
    else classBody rest

/-- Statements from which parsing can go on. -/
def startsStatement : List Kind := [
  .ifKw, .whileKw, .doKw, .forKw, .tryKw, .switchKw, .returnKw, .throwKw, .breakKw, .continueKw]

/-- From where a block can go on, past whole groups in braces of which `depth` are still open; a
group of a switch also ends at the next label. -/
def block (inSwitch : Bool) : Nat → List Symbol → List Symbol
  | _, [] => []
  | 0, s :: rest =>
    if s.kind = .semicolon then rest
    else if s.kind = .lbrace then block inSwitch 1 rest
    else if s.kind = .rbrace ∨ startsStatement.contains s.kind ∨
        inSwitch ∧ (s.kind = .caseKw ∨ s.kind = .defaultKw) then
      s :: rest
    else block inSwitch 0 rest
  | d + 1, s :: rest =>
    if s.kind = .lbrace then block inSwitch (d + 2) rest
    else if s.kind = .rbrace then block inSwitch d rest
    else block inSwitch (d + 1) rest

end Resync

end JavaSyntax
