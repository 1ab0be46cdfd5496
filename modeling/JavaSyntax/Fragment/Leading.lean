import JavaSyntax.Parse.Layout

/-!
What a text opens with. An expression or a type never starts with a declaration, so one look at the
symbols behind modifiers and annotations tells whether a text can be either.
-/

namespace JavaSyntax

/-- The constructs of a file that a text can open with. -/
inductive Leading where
  | packageClause
  | importClause
  | moduleDecl
  | classDecl
  | interfaceDecl
  | enumDecl
  | recordDecl
  | annotationDecl
deriving DecidableEq

namespace Leading

def label : Leading → String
  | .packageClause => "package declaration"
  | .importClause => "import"
  | .moduleDecl => "module declaration"
  | .classDecl => "class"
  | .interfaceDecl => "interface"
  | .enumDecl => "enum"
  | .recordDecl => "record"
  | .annotationDecl => "annotation type"

/-- What follows a dotted name; a dot at its end belongs to it. -/
def skipName : List Symbol → List Symbol
  | s :: t :: rest =>
    if s.kind = .identifier then if t.kind = .dot then skipName rest else t :: rest
    else s :: t :: rest
  | [s] => if s.kind = .identifier then [] else [s]
  | [] => []

/-- What follows the parenthesis that closes the last of those open, of which there are `depth` so
far. -/
def skipParens (depth : Nat) : List Symbol → List Symbol
  | [] => []
  | s :: rest =>
    if s.kind = .lparen then skipParens (depth + 1) rest
    else if s.kind = .rparen then
      if depth - 1 = 0 then rest else skipParens (depth - 1) rest
    else skipParens depth rest

/-- What follows an annotation, after its `@`. -/
def skipAnnot (ts : List Symbol) : List Symbol :=
  let rest := skipName ts
  if Lookahead.next [.lparen] rest then skipParens 0 rest else rest

/-- What follows modifiers and annotations, of which at most `fuel` are skipped. -/
def skipModifiers : Nat → List Symbol → List Symbol
  | 0, ts => ts
  | _ + 1, [] => []
  | fuel + 1, s :: rest =>
    if s.kind = .atSign ∧ !Lookahead.next [.interfaceKw] rest then
      skipModifiers fuel (skipAnnot rest)
    else if s.kind.isModifier ∨ s.isWord "sealed" then skipModifiers fuel rest
    else if s.isWord "non" ∧ Lookahead.nextWord "sealed" (rest.drop 1) then
      skipModifiers fuel (rest.drop 2)
    else s :: rest

/-- The construct at the start of the symbols. -/
def ofSymbols : List Symbol → Option Leading
  | [] => none
  | s :: rest =>
    match s.kind with
    | .packageKw => some .packageClause
    | .importKw => some .importClause
    | .classKw => some .classDecl
    | .interfaceKw => some .interfaceDecl
    | .enumKw => some .enumDecl
    | .atSign => if Lookahead.next [.interfaceKw] rest then some .annotationDecl else none
    | .identifier =>
      if s.text = "record" ∧ Lookahead.next [.identifier] rest then some .recordDecl
      else if s.text = "module" ∧ Lookahead.next [.identifier] rest then some .moduleDecl
      else if s.text = "open" ∧ Lookahead.nextWord "module" rest then some .moduleDecl
      else none
    | _ => none

/-- The construct that a text opens with. Flawed texts are passed over. -/
def ofText (text : String) : Option Leading :=
  let ts := Layout.symbolsFrom none ((lex false text).filterMap Item.token?)
  ofSymbols (skipModifiers ts.length ts)

end Leading

end JavaSyntax
