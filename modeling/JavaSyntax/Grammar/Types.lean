import JavaSyntax.Grammar.Rule
import JavaSyntax.Tree.Kind

/-!
The rules for annotations, types, type arguments and type parameters.
-/

namespace JavaSyntax.Grammar

/-- `@name`, `@name(value)` or `@name(key = value, ...)`. -/
def annot : Rule (Tree .annot) := do
  let start ← mark
  expect .atSign
  let name ← qualifiedName
  if ← accept .lparen then
    let ts ← ahead
    let elements ←
      if Lookahead.next [.identifier, .assign] ts then call .namedElements
      else if Lookahead.next [.rparen] ts then pure .nil
      else do
        let value ← call .elementValue
        pure (.cons (.element none value) .nil)
    expect .rparen
    return .annot name elements (← since start)
  else return .annot name .nil (← since start)

def annotations (onType : Bool) : Rule (Tree (.list .annot)) := do
  let ts ← ahead
  if Lookahead.next [.atSign] ts && !(onType && Lookahead.next [.atSign, .interfaceKw] ts) then
    let first ← call .annot
    let rest ← call (.annotations onType)
    return .cons first rest
  else return .nil

def namedElements : Rule (Tree (.list .element)) := do
  let key ← identifier
  expect .assign
  let value ← call .elementValue
  let rest ← listIf (← accept .comma) (call .namedElements)
  return .cons (.element (some key) value) rest

/-- The value of an annotation element: an annotation, a braced list of values or an expression. -/
def elementValue : Rule (Tree .expr) := do
  let ts ← ahead
  if Lookahead.next [.atSign] ts then return .annotationValue (← call .annot)
  else if Lookahead.next [.lbrace] ts then
    let start ← mark
    advance 1
    let elements ← call .elementValues
    expect .rbrace
    return .arrayValue (.arrayInit elements (← since start))
  else call .conditional

/-- Values up to a closing brace; a comma may stand behind the last one. -/
def elementValues : Rule (Tree (.list .expr)) := do
  let ts ← ahead
  if ts.isEmpty || Lookahead.next [.rbrace] ts then return .nil
  else
    let first ← call .elementValue
    let rest ← listIf (← accept .comma) (call .elementValues)
    return .cons first rest

/-- Gives a type its annotations, dimensions and extent. -/
def completeType (annotations : Tree (.list .annot)) (dims : Nat) (extent : Extent) :
    Tree .type → Tree .type
  | .type outer name args diamond _ _ _ => .type outer name args diamond annotations dims extent

def type : Rule (Tree .type) := do
  let start ← mark
  let annotations ← call (.annotations true)
  let v ← view
  let named ←
    if Lookahead.next [.identifier] v.ahead then do
      let name ← takeText
      call (.typeSegments start .none name false)
    else if v.ahead.head?.any fun s => s.kind.isPrimitive then do
      let name ← takeText
      pure (.type .none name .nil false .nil 0 (.point start))
    else raise (v.wrong .illegalStartOfType)
  let n ← dims
  return completeType annotations n (← since start) named

/-- Segments without arguments fold into the dotted name; a segment behind arguments starts a type
inside the one before it. -/
def typeSegments (start : Mark) (outer : Tree (.option .type)) (name : String) (diamond : Bool) :
    Rule (Tree .type) := do
  let opened ← check .less
  let args ← listIf opened (call .typeArgs)
  let diamond := if opened then args.isNil else diamond
  let ts ← ahead
  if Lookahead.next [.dot, .identifier] ts || Lookahead.next [.dot, .atSign] ts then
    advance 1
    let _ ← call (.annotations false)
    let segment ← identifier
    if args.isNil then call (.typeSegments start outer (name ++ "." ++ segment) diamond)
    else
      let enclosing := .type outer name args diamond .nil 0 (← since start)
      call (.typeSegments start (.some enclosing) segment false)
  else return .type outer name args diamond .nil 0 (.point start)

/-- Takes one closing angle bracket, also off a longer symbol. -/
def closeAngle : Rule Unit := do
  let v ← view
  if Lookahead.next [.greater] v.ahead then advance 1
  else if Lookahead.nextOneOf [.shr, .ushr, .greaterEqual, .shrAssign, .ushrAssign] v.ahead then
    splitAngle
  else raise (v.missing (.symbol .greater))

def closesAngle (ts : List Symbol) : Bool :=
  Lookahead.nextOneOf [.greater, .shr, .ushr, .greaterEqual, .shrAssign, .ushrAssign] ts

def typeArgs : Rule (Tree (.list .typeArg)) := do
  expect .less
  let args ← listIf (!closesAngle (← ahead)) (call .typeArgList)
  closeAngle
  return args

/-- A type in front of which annotations were read. -/
def annotatedType (before : Tree (.list .annot)) (extent : Extent) : Tree .type → Tree .type
  | .type outer name args diamond annotations dims _ =>
    .type outer name args diamond (before.append annotations) dims extent

def typeArg : Rule (Tree .typeArg) := do
  let start ← mark
  let annotations ← call (.annotations true)
  if ← accept .question then
    if ← accept .extendsKw then
      let bound ← call .type
      return .wildcardExtends annotations bound (← since start)
    else if ← accept .superKw then
      let bound ← call .type
      return .wildcardSuper annotations bound (← since start)
    else return .wildcard annotations (← since start)
  else
    let type ← call .type
    return .typeArg (annotatedType annotations (← since start) type)

def typeArgList : Rule (Tree (.list .typeArg)) := do
  let first ← typeArg
  let rest ← listIf (← accept .comma) (call .typeArgList)
  return .cons first rest

def typesAfter (separator : Kind) : Rule (Tree (.list .type)) := do
  if ← accept separator then
    let first ← call .type
    let rest ← call (.typesAfter separator)
    return .cons first rest
  else return .nil

/-- Types with commas between them. -/
def typeList : Rule (Tree (.list .type)) := do
  let first ← call .type
  let rest ← call (.typesAfter .comma)
  return .cons first rest

def typeParam : Rule (Tree .typeParam) := do
  let start ← mark
  let annotations ← call (.annotations true)
  let name ← identifier
  let bounds ← listIf (← accept .extendsKw) do
    let first ← call .type
    let rest ← call (.typesAfter .amp)
    return .cons first rest
  return .typeParam annotations name bounds (← since start)

def typeParamList : Rule (Tree (.list .typeParam)) := do
  let first ← typeParam
  let rest ← listIf (← accept .comma) (call .typeParamList)
  return .cons first rest

/-- Type parameters in angle brackets, if there are any. -/
def typeParams : Rule (Tree (.list .typeParam)) := do
  if ← accept .less then
    let params ← call .typeParamList
    closeAngle
    return params
  else return .nil

end JavaSyntax.Grammar
