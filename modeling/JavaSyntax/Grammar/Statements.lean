import JavaSyntax.Grammar.Expressions

/-!
The rules for modifiers, variables, statements and switches. A fault inside a block or a switch
leaves an error marker, and the rest of the block is read.
-/

namespace JavaSyntax.Grammar

def modifier? : Kind → Option Modifier
  | .publicKw => some .isPublic
  | .protectedKw => some .isProtected
  | .privateKw => some .isPrivate
  | .abstractKw => some .isAbstract
  | .staticKw => some .isStatic
  | .finalKw => some .isFinal
  | .nativeKw => some .isNative
  | .synchronizedKw => some .isSynchronized
  | .transientKw => some .isTransient
  | .volatileKw => some .isVolatile
  | .strictfpKw => some .isStrictfp
  | .defaultKw => some .isDefault
  | _ => none

/-- The modifier at the start of the symbols and how many of them it takes. -/
def nextModifier (ts : List Symbol) : Option (Modifier × Nat) :=
  match lookup modifier? ts with
  | some m => some (m, 1)
  | none =>
    if Lookahead.isSealed ts then some (.isSealed, 1)
    else if Lookahead.isNonSealed ts then some (.isNonSealed, 3)
    else none

/-- Modifiers and annotations in any order. -/
def modifierRun : Rule (List Modifier × Tree (.list .annot)) := do
  let ts ← ahead
  if Lookahead.next [.atSign] ts && !Lookahead.next [.atSign, .interfaceKw] ts then
    let first ← call .annot
    let (modifiers, annotations) ← call .modifierRun
    return (modifiers, .cons first annotations)
  else
    match nextModifier ts with
    | some (first, n) =>
      advance n
      let (modifiers, annotations) ← call .modifierRun
      return (first :: modifiers, annotations)
    | none => return ([], .nil)

def modifiers : Rule Modifiers := do
  let v ← view
  let (modifiers, annotations) ← call .modifierRun
  return ⟨modifiers, annotations, v.mark, v.doc⟩

def declarator (name : String) (start : Mark) : Rule (Tree .declarator) := do
  let n ← dims
  let init ← optionIf (← accept .assign) initialValue
  return .declarator name n init (← since start)

def declarators (name : String) (start : Mark) : Rule (Tree (.list .declarator)) := do
  let first ← declarator name start
  if ← accept .comma then
    let start ← mark
    let name ← identifier
    let rest ← call (.declarators name start)
    return .cons first rest
  else return .cons first .nil

/-- The names of a variable declaration. -/
def variableNames : Rule (Tree (.list .declarator)) := do
  let start ← mark
  let name ← identifier
  call (.declarators name start)

/-- A variable declaration after its modifiers, with the semicolon that ends it. -/
def localVariables (mods : Modifiers) : Rule (Tree .stmt) := do
  let type ← call .type
  let names ← variableNames
  require .semicolon
  let extent ← since mods.start
  return .localVariables (.varDecl mods.undocumented mods.annotations type names extent)

/-- Whether an expression may stand as a statement. -/
def mayStandAlone : Tree .expr → Bool
  | .assign _ _ _ _ | .call _ _ _ _ _ | .newObject _ _ _ _ _ | .erroneousExpr _ => true
  | .unary op _ _ => op.isStep
  | _ => false

/-- Reports an expression that may not stand as a statement. -/
def checkStandalone (e : Tree .expr) : Rule Unit :=
  if mayStandAlone e then return else report ⟨.notStatement, e.exprExtent⟩

/-- An expression in parentheses. -/
def parenExpr : Rule (Tree .expr) := do
  expect .lparen
  let inner ← call .expr
  expect .rparen
  return inner

def exprStatement (start : Mark) : Rule (Tree .stmt) := do
  let e ← call .expr
  checkStandalone e
  require .semicolon
  return .exprStmt (.standalone e (← since start))

/-- A type declared inside a block, or a variable with modifiers. -/
def localDeclaration : Rule (Tree .stmt) := do
  let mods ← modifiers
  if Lookahead.isTypeDecl (← ahead) then return .localType (← call (.typeDecl mods))
  else localVariables mods

def ifStatement (start : Mark) : Rule (Tree .stmt) := do
  advance 1
  let condition ← parenExpr
  let yes ← call .stmt
  let no ← optionIf (← accept .elseKw) (call .stmt)
  return .ifStmt condition yes no (← since start)

def whileStatement (start : Mark) : Rule (Tree .stmt) := do
  advance 1
  let condition ← parenExpr
  let body ← call .stmt
  return .whileStmt condition body (← since start)

def doStatement (start : Mark) : Rule (Tree .stmt) := do
  advance 1
  let body ← call .stmt
  expect .whileKw
  let condition ← parenExpr
  require .semicolon
  return .doStmt body condition (← since start)

def standalones : Rule (Tree (.list .standalone)) := do
  let start ← mark
  let e ← call .expr
  checkStandalone e
  let first := .standalone e (← since start)
  let rest ← listIf (← accept .comma) (call .standalones)
  return .cons first rest

/-- Whether variables are declared here, also by a modifier in front. -/
def declaresVariables (ts : List Symbol) : Bool :=
  Lookahead.isLocalVariable ts || Lookahead.nextOneOf [.finalKw, .atSign] ts

def forInit : Rule (Tree .forInit) := do
  let ts ← ahead
  if Lookahead.next [.semicolon] ts then return .forExprs .nil
  else if declaresVariables ts then
    let mods ← modifiers
    let type ← call .type
    let names ← variableNames
    let extent ← since mods.start
    return .forVariables (.varDecl mods.undocumented mods.annotations type names extent)
  else return .forExprs (← call .standalones)

/-- A parameter with a plain name, as a loop or a handler declares it; further types may stand
behind its type. -/
def plainParam (further : Rule (Tree (.list .type))) :
    Rule (Tree .param × Tree (.list .type)) := do
  let mods ← modifiers
  let type ← call .type
  let types ← further
  let name ← identifier
  let extent ← since mods.start
  return (.param mods.modifiers mods.annotations type name false extent, types)

def forStatement (start : Mark) : Rule (Tree .stmt) := do
  advance 1
  expect .lparen
  if Lookahead.isForEach (← ahead) then
    let (param, _) ← plainParam (pure .nil)
    expect .colon
    let iterable ← call .expr
    expect .rparen
    let body ← call .stmt
    return .forEachStmt param iterable body (← since start)
  else
    let init ← forInit
    expect .semicolon
    let condition ← optionIf (!(← check .semicolon)) (call .expr)
    expect .semicolon
    let update ← listIf (!(← check .rparen)) (call .standalones)
    expect .rparen
    let body ← call .stmt
    return .forStmt init condition update body (← since start)

def resource : Rule (Tree .resource) := do
  let start ← mark
  if declaresVariables (← ahead) then
    let mods ← modifiers
    let type ← call .type
    let name ← identifier
    expect .assign
    let init ← call .expr
    return .resourceVariable mods.modifiers type name init (← since start)
  else
    let e ← call .expr
    return .resourceExpr e (← since start)

/-- Resources up to a closing parenthesis; a semicolon may stand behind the last one. -/
def resources : Rule (Tree (.list .resource)) := do
  let ts ← ahead
  if ts.isEmpty || Lookahead.next [.rparen] ts then return .nil
  else
    let first ← resource
    let rest ← listIf (← accept .semicolon) (call .resources)
    return .cons first rest

def catches : Rule (Tree (.list .catchClause)) := do
  let start ← mark
  if ← accept .catchKw then
    expect .lparen
    let (param, alternatives) ← plainParam (call (.typesAfter .pipe))
    expect .rparen
    let block ← call .block
    let first := .catchClause param alternatives block (← since start)
    let rest ← call .catches
    return .cons first rest
  else return .nil

/-- A `try` needs resources, a handler or a `finally`. -/
def tryStatement (start : Mark) : Rule (Tree .stmt) := do
  advance 1
  let resources ← listIf (← accept .lparen) do
    let resources ← call .resources
    expect .rparen
    return resources
  let body ← call .block
  let catches ← call .catches
  let final ← optionIf (← accept .finallyKw) (call .block)
  if resources.isNil && catches.isNil && final.toOption.isNone then
    report ⟨.loneTry, .point start⟩
  return .tryStmt resources body catches final (← since start)

def synchronizedStatement (start : Mark) : Rule (Tree .stmt) := do
  advance 1
  let lock ← parenExpr
  let body ← call .block
  return .synchronizedStmt lock body (← since start)

def returnStatement (start : Mark) : Rule (Tree .stmt) := do
  advance 1
  let value ← optionIf (!(← check .semicolon)) (call .expr)
  require .semicolon
  return .returnStmt value (← since start)

/-- The label of a jump, if any, and the semicolon that ends it. -/
def jumpLabel : Rule (Option String) := do
  advance 1
  let label ← if ← check .identifier then some <$> takeText else pure none
  require .semicolon
  return label

def throwStatement (start : Mark) : Rule (Tree .stmt) := do
  advance 1
  let value ← call .expr
  require .semicolon
  return .throwStmt value (← since start)

def assertStatement (start : Mark) : Rule (Tree .stmt) := do
  advance 1
  let condition ← call .expr
  let message ← optionIf (← accept .colon) (call .expr)
  require .semicolon
  return .assertStmt condition message (← since start)

def yieldStatement (start : Mark) : Rule (Tree .stmt) := do
  advance 1
  let value ← call .expr
  require .semicolon
  return .yieldStmt value (← since start)

def labeledStatement (start : Mark) : Rule (Tree .stmt) := do
  let label ← takeText
  advance 1
  let body ← call .stmt
  return .labeledStmt label body (← since start)

/-- A statement that no keyword opens: a local variable or an expression. -/
def plainStatement (start : Mark) : Rule (Tree .stmt) := do
  if Lookahead.isLocalVariable (← ahead) then
    let mods ← modifiers
    localVariables mods
  else exprStatement start

/-- A statement that a name opens. -/
def namedStatement (start : Mark) (ts : List Symbol) : Rule (Tree .stmt) :=
  if Lookahead.isYield ts then yieldStatement start
  else if Lookahead.next [.identifier, .colon] ts then labeledStatement start
  else if Lookahead.isRecord ts || Lookahead.isSealed ts then localDeclaration
  else plainStatement start

def stmt : Rule (Tree .stmt) := do
  let v ← view
  let start := v.mark
  match v.ahead.head?.map Symbol.kind with
  | none => raise ⟨.prematureEof, .point .eof⟩
  | some .lbrace => return .blockStmt (← call .block)
  | some .semicolon =>
    advance 1
    return .emptyStmt (← since start)
  | some .ifKw => ifStatement start
  | some .whileKw => whileStatement start
  | some .doKw => doStatement start
  | some .forKw => forStatement start
  | some .tryKw => tryStatement start
  | some .switchKw =>
    advance 1
    let (selector, cases) ← call (.switchRest false)
    return .switchStmt selector cases (← since start)
  | some .synchronizedKw =>
    if Lookahead.next [.synchronizedKw, .lparen] v.ahead then synchronizedStatement start
    else plainStatement start
  | some .returnKw => returnStatement start
  | some .breakKw =>
    let label ← jumpLabel
    return .breakStmt label (← since start)
  | some .continueKw =>
    let label ← jumpLabel
    return .continueStmt label (← since start)
  | some .throwKw => throwStatement start
  | some .assertKw => assertStatement start
  | some .finalKw | some .abstractKw | some .strictfpKw | some .staticKw | some .atSign
  | some .classKw | some .interfaceKw | some .enumKw => localDeclaration
  | some .identifier => namedStatement start v.ahead
  | some _ => plainStatement start

def block : Rule (Tree .block) := do
  let start ← mark
  expect .lbrace
  let statements ← call (.statements false)
  require .rbrace
  return .block statements (← since start)

/-- Whether the statements of a block end here; those of a switch group also end at the next
label. -/
def endsStatements (inSwitch : Bool) (ts : List Symbol) : Bool :=
  ts.isEmpty || Lookahead.next [.rbrace] ts ||
    inSwitch && Lookahead.nextOneOf [.caseKw, .defaultKw] ts

def statements (inSwitch : Bool) : Rule (Tree (.list .stmt)) := do
  let v ← view
  if endsStatements inSwitch v.ahead || !v.running then return .nil
  else
    match ← attempt .stmt with
    | .ok first =>
      let rest ← call (.statements inSwitch)
      return .cons first rest
    | .error error =>
      report error
      let extent ← resync (Resync.block inSwitch 0) v
      let rest ← call (.statements inSwitch)
      return .cons (.erroneousStmt extent) rest

def switchRest (isExpr : Bool) : Rule (Tree .expr × Tree (.list .switchCase)) := do
  let selector ← parenExpr
  expect .lbrace
  let cases ← call (.switchCases isExpr)
  require .rbrace
  return (selector, cases)

def switchCases (isExpr : Bool) : Rule (Tree (.list .switchCase)) := do
  let v ← view
  if v.ahead.isEmpty || Lookahead.next [.rbrace] v.ahead || !v.running then return .nil
  else
    match ← attempt (.switchCase isExpr) with
    | .ok first =>
      let rest ← call (.switchCases isExpr)
      return .cons first rest
    | .error error =>
      report error
      let extent ← resync (Resync.block true 0) v
      let rest ← call (.switchCases isExpr)
      return .cons (.switchCase .nil false (.cons (.erroneousStmt extent) .nil) extent) rest

def labels : Rule (Tree (.list .expr)) := do
  let first ← call .conditional
  let rest ← listIf (← accept .comma) (call .labels)
  return .cons first rest

/-- The labels of a group; the default has none. -/
def caseLabels : Rule (Tree (.list .expr)) := do
  if ← accept .defaultKw then return .nil
  else if ← accept .caseKw then callLabels .labels
  else raise ((← view).missing .caseLabel)

/-- What follows an arrow: a block, a `throw`, or an expression, which in a statement must be one
that may stand alone. -/
def arrowBody (isExpr : Bool) : Rule (Tree .stmt) := do
  let v ← view
  if Lookahead.next [.lbrace] v.ahead then return .blockStmt (← call .block)
  else if Lookahead.next [.throwKw] v.ahead then call .stmt
  else
    let e ← call .expr
    if !isExpr then checkStandalone e
    require .semicolon
    return .exprStmt (.standalone e (← since v.mark))

def switchCase (isExpr : Bool) : Rule (Tree .switchCase) := do
  let start ← mark
  let labels ← caseLabels
  if ← accept .arrow then
    let body ← arrowBody isExpr
    return .switchCase labels true (.cons body .nil) (← since start)
  else
    let v ← view
    if Lookahead.next [.colon] v.ahead then advance 1 else raise (v.missing .colonOrArrow)
    let statements ← call (.statements true)
    return .switchCase labels false statements (← since start)

end JavaSyntax.Grammar
