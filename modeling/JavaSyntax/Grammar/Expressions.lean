import JavaSyntax.Grammar.Types
import JavaSyntax.Literal.Quoted

/-!
The rules for expressions. What a parenthesis or a name opens is told by looking ahead; nothing is
read twice.
-/

namespace JavaSyntax.Grammar

/-- Binary operators with their level; a higher one binds more tightly. -/
def binaryOp? : Kind → Option (BinaryOp × Nat)
  | .orOr => some (.or, 1)
  | .andAnd => some (.and, 2)
  | .pipe => some (.bitOr, 3)
  | .caret => some (.bitXor, 4)
  | .amp => some (.bitAnd, 5)
  | .equal => some (.eq, 6)
  | .notEqual => some (.ne, 6)
  | .less => some (.lt, 7)
  | .greater => some (.gt, 7)
  | .lessEqual => some (.le, 7)
  | .greaterEqual => some (.ge, 7)
  | .shl => some (.shl, 8)
  | .shr => some (.shr, 8)
  | .ushr => some (.ushr, 8)
  | .plus => some (.add, 9)
  | .minus => some (.sub, 9)
  | .star => some (.mul, 10)
  | .slash => some (.div, 10)
  | .percent => some (.mod, 10)
  | _ => none

/-- The level of `instanceof`. -/
def instanceOfLevel : Nat := 7

def assignOp? : Kind → Option AssignOp
  | .assign => some .set
  | .addAssign => some .add
  | .subAssign => some .sub
  | .mulAssign => some .mul
  | .divAssign => some .div
  | .modAssign => some .mod
  | .andAssign => some .and
  | .orAssign => some .or
  | .xorAssign => some .xor
  | .shlAssign => some .shl
  | .shrAssign => some .shr
  | .ushrAssign => some .ushr
  | _ => none

def leadingOp? : Kind → Option UnaryOp
  | .plus => some .plus
  | .minus => some .minus
  | .increment => some .preIncrement
  | .decrement => some .preDecrement
  | .bang => some .not
  | .tilde => some .bitNot
  | _ => none

def trailingOp? : Kind → Option UnaryOp
  | .increment => some .postIncrement
  | .decrement => some .postDecrement
  | _ => none

/-- What the next symbol stands for in a table of kinds. -/
def lookup {α : Type} (table : Kind → Option α) (ts : List Symbol) : Option α :=
  ts.head?.bind fun s => table s.kind

/-- Whether a lambda starts here; among the labels of a switch none does. -/
def startsLambda : Rule Bool := do
  let v ← view
  return !v.inLabels && Lookahead.isLambda v.ahead

def expr : Rule (Tree .expr) := do
  if ← startsLambda then call .lambda
  else
    let start ← mark
    let target ← call .conditional
    match lookup assignOp? (← ahead) with
    | none => return target
    | some op =>
      advance 1
      let value ← call .expr
      return .assign target op value (← since start)

def conditional : Rule (Tree .expr) := do
  let start ← mark
  let condition ← call (.binary 1)
  if ← accept .question then
    let yes ← call .expr
    expect .colon
    let no ← if ← startsLambda then call .lambda else call .conditional
    return .conditional condition yes no (← since start)
  else return condition

def binary (least : Nat) : Rule (Tree .expr) := do
  let start ← mark
  let left ← call .unary
  call (.binaryRest least start left)

/-- Goes on while operators of at least the level follow; all are left-associative. -/
def binaryRest (least : Nat) (start : Mark) (left : Tree .expr) : Rule (Tree .expr) := do
  let ts ← ahead
  if Lookahead.next [.instanceofKw] ts then
    if instanceOfLevel < least then return left
    else
      advance 1
      let _ ← accept .finalKw
      let type ← call .type
      let binding ← if ← check .identifier then some <$> takeText else pure none
      let left := .instanceOf left type binding (← since start)
      call (.binaryRest least start left)
  else
    match lookup binaryOp? ts with
    | none => return left
    | some (op, level) =>
      if level < least then return left
      else
        advance 1
        let right ← call (.binary (level + 1))
        let left := .binary left op right (← since start)
        call (.binaryRest least start left)

/-- The value of a literal token. -/
def literalValue (s : Symbol) (negated : Bool) : Option (Except LiteralError Literal) :=
  match s.kind with
  | .integerLit => some (Literal.integer s.text negated)
  | .floatingLit => some (Literal.floating s.text negated)
  | .stringLit => some ((Literal.stringValue s.text).map .string)
  | .textBlockLit => some ((Literal.textBlockValue s.text).map .textBlock)
  | .charLit => some ((Literal.charValue s.text).map .char)
  | .trueKw => some (.ok (.boolean true))
  | .falseKw => some (.ok (.boolean false))
  | .nullKw => some (.ok .null)
  | _ => none

/-- A literal; a minus sign at `negatedFrom` belongs to it. A literal without a value is reported,
at the culprit if it is one character. -/
def literal (negatedFrom : Option Mark) : Rule (Tree .expr) := do
  let v ← view
  match v.ahead.head?.bind (literalValue · negatedFrom.isSome) with
  | none => raise (v.wrong .illegalStartOfExpr)
  | some value =>
    advance 1
    let extent ← since (negatedFrom.getD v.mark)
    match value with
    | .ok value => return .literal value extent
    | .error error =>
      let place := match error.offset? with
        | some offset => .point (.before v.index (v.taken + offset))
        | none => v.here
      report ⟨.literal error, place⟩
      return .erroneousExpr extent

def arguments : Rule (Tree (.list .expr)) := do
  expect .lparen
  let args ← listIf (!(← check .rparen)) (call .exprList)
  expect .rparen
  return args

def exprList : Rule (Tree (.list .expr)) := do
  let first ← call .expr
  let rest ← listIf (← accept .comma) (call .exprList)
  return .cons first rest

/-- A name, or a call if arguments follow it. -/
def nameOrCall (start : Mark) : Rule (Tree .expr) := do
  let name ← takeText
  if ← check .lparen then
    let args ← arguments
    return .call .none .nil name args (← since start)
  else return .ident name (← since start)

def arrayInit : Rule (Tree .arrayInit) := do
  let start ← mark
  expect .lbrace
  let elements ← call .arrayElements
  expect .rbrace
  return .arrayInit elements (← since start)

/-- An expression, or a braced list of initial values. -/
def initialValue : Rule (Tree .expr) := do
  if ← check .lbrace then return .arrayValue (← call .arrayInit) else call .expr

def arrayElements : Rule (Tree (.list .expr)) := do
  let ts ← ahead
  if ts.isEmpty || Lookahead.next [.rbrace] ts then return .nil
  else
    let first ← initialValue
    let rest ← listIf (← accept .comma) (call .arrayElements)
    return .cons first rest

/-- Sized dimensions of an array creation. -/
def sizes : Rule (Tree (.list .expr)) := do
  let ts ← ahead
  if Lookahead.next [.lbracket] ts && !Lookahead.next [.lbracket, .rbracket] ts then
    advance 1
    let first ← call .expr
    expect .rbracket
    let rest ← call .sizes
    return .cons first rest
  else return .nil

/-- An array creation after its type. Dimensions already read with the type are empty ones, and none
with a size can follow. -/
def newArray (start : Mark) : Tree .type → Rule (Tree .expr)
  | .type outer name args diamond annotations read extent => do
    let element := .type outer name args diamond annotations 0 extent
    let sizes ← listIf (read == 0) (call .sizes)
    let n ← if read == 0 then dims else pure read
    let init ← optionIf (← check .lbrace) (call .arrayInit)
    if sizes.isNil && init.toOption.isNone then raise ⟨.dimensionMissing, (← view).here⟩
    else return .newArray element sizes n init (← since start)

/-- Members of a class in braces. -/
def classBody (owner : String) : Rule (Tree (.list .member)) := do
  expect .lbrace
  let members ← call (.members owner)
  require .rbrace
  return members

/-- An instance or array creation. Type arguments of the constructor are read and dropped. -/
def creation (start : Mark) (outer : Tree (.option .expr)) : Rule (Tree .expr) := do
  expect .newKw
  let _ ← listIf (← check .less) (call .typeArgs)
  let type ← call .type
  if (← check .lbracket) || type.isArray then newArray start type
  else
    let args ← arguments
    let body ← optionIf (← check .lbrace) (classBody "")
    return .newObject outer type args body (← since start)

/-- A primitive type, which needs `.class` or `::` behind it. -/
def primitiveExpr : Rule (Tree .expr) := do
  let type ← call .type
  let v ← view
  if Lookahead.next [.dot, .classKw] v.ahead || Lookahead.next [.doubleColon] v.ahead then
    return .typeExpr type
  else raise (v.missing .classLiteral)

def primary : Rule (Tree .expr) := do
  let v ← view
  let start := v.mark
  match v.ahead.head?.map Symbol.kind with
  | some .thisKw | some .superKw => nameOrCall start
  | some .lparen =>
    advance 1
    let inner ← call .expr
    expect .rparen
    return .paren inner (← since start)
  | some .newKw => creation start .none
  | some .switchKw =>
    advance 1
    let (selector, cases) ← call (.switchRest true)
    return .switchExpr selector cases (← since start)
  | some .identifier =>
    if Lookahead.isTypeQualifier v.ahead then return .typeExpr (← call .type) else nameOrCall start
  | some kind =>
    if kind.isLiteral then literal none
    else if kind.isPrimitive then primitiveExpr
    else raise (v.wrong .illegalStartOfExpr)
  | none => raise (v.wrong .illegalStartOfExpr)

/-- What follows a dot behind a primary. -/
def memberSelector (start : Mark) (target : Tree .expr) : Rule (Tree .expr) := do
  let ts ← ahead
  if Lookahead.nextOneOf [.classKw, .thisKw] ts then
    let name ← takeText
    return .select target name (← since start)
  else if Lookahead.next [.superKw] ts then
    let name ← takeText
    if ← check .lparen then
      let args ← arguments
      return .call (.some target) .nil name args (← since start)
    else return .select target name (← since start)
  else if Lookahead.next [.newKw] ts then creation start (.some target)
  else
    let typeArgs ← listIf (Lookahead.next [.less] ts) (call .typeArgs)
    let name ← identifier
    if !typeArgs.isNil || (← check .lparen) then
      let args ← arguments
      return .call (.some target) typeArgs name args (← since start)
    else return .select target name (← since start)

/-- What follows `::`. -/
def referenceSelector (start : Mark) (target : Tree .expr) : Rule (Tree .expr) := do
  let typeArgs ← listIf (← check .less) (call .typeArgs)
  let name ← if ← check .newKw then takeText else identifier
  return .methodRef target typeArgs name (← since start)

def selectors (start : Mark) (target : Tree .expr) : Rule (Tree .expr) := do
  if ← accept .dot then
    let target ← memberSelector start target
    call (.selectors start target)
  else if ← accept .lbracket then
    let index ← call .expr
    expect .rbracket
    let target := .index target index (← since start)
    call (.selectors start target)
  else if ← accept .doubleColon then
    let target ← referenceSelector start target
    call (.selectors start target)
  else return target

/-- Increments and decrements behind an operand. -/
def steps (start : Mark) (operand : Tree .expr) : Rule (Tree .expr) := do
  match lookup trailingOp? (← ahead) with
  | none => return operand
  | some op =>
    advance 1
    let operand := .unary op operand (← since start)
    call (.steps start operand)

def trailing : Rule (Tree .expr) := do
  let start ← mark
  let first ← primary
  let selected ← call (.selectors start first)
  call (.steps start selected)

def cast : Rule (Tree .expr) := do
  let start ← mark
  expect .lparen
  let type ← call .type
  let bounds ← call (.typesAfter .amp)
  expect .rparen
  let operand ← if ← startsLambda then call .lambda else call .unary
  return .cast type bounds operand (← since start)

/-- A minus in front of a number belongs to the number. -/
def unary : Rule (Tree .expr) := do
  let v ← view
  match lookup leadingOp? v.ahead with
  | some op =>
    advance 1
    let ts ← ahead
    if op = .minus ∧ Lookahead.nextOneOf [.integerLit, .floatingLit] ts then
      let number ← literal (some v.mark)
      call (.selectors v.mark number)
    else
      let operand ← call .unary
      return .unary op operand (← since v.mark)
  | none =>
    if Lookahead.next [.lparen] v.ahead && Lookahead.isCast v.ahead then cast else trailing

def lambdaParam : Rule (Tree .lambdaParam) := do
  let start ← mark
  let (modifiers, _) ← call .modifierRun
  let ts ← ahead
  if Lookahead.next [.identifier, .comma] ts || Lookahead.next [.identifier, .rparen] ts then
    let name ← identifier
    return .lambdaParam modifiers .none name (← since start)
  else
    let type ← call .type
    let type := if ← accept .ellipsis then type.addDims 1 else type
    let name ← identifier
    return .lambdaParam modifiers (.some type) name (← since start)

def lambdaParamList : Rule (Tree (.list .lambdaParam)) := do
  let first ← lambdaParam
  let rest ← listIf (← accept .comma) (call .lambdaParamList)
  return .cons first rest

/-- One bare name, or parameters in parentheses. -/
def lambdaParams : Rule (Tree (.list .lambdaParam)) := do
  let v ← view
  if Lookahead.next [.identifier] v.ahead then
    let name ← takeText
    return .cons (.lambdaParam [] .none name v.here) .nil
  else
    expect .lparen
    let params ← listIf (!(← check .rparen)) (call .lambdaParamList)
    expect .rparen
    return params

def lambda : Rule (Tree .expr) := do
  let start ← mark
  let params ← lambdaParams
  expect .arrow
  let body ←
    if ← check .lbrace then pure (.blockBody (← call .block)) else pure (.exprBody (← call .expr))
  return .lambda params body (← since start)

end JavaSyntax.Grammar
