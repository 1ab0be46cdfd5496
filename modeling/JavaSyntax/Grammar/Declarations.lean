import JavaSyntax.Grammar.Statements

/-!
The rules for type declarations, their members and the top level of a file. A fault in a member or
at the top level leaves an error marker, and what follows is read.
-/

namespace JavaSyntax.Grammar

/-- Warns about a declaration that its documentation calls deprecated while no annotation does. -/
def checkDeprecation (mods : Modifiers) (name : Extent) : Rule Unit :=
  if mods.annotations.toList.any Tree.isDeprecated then return else deprecation mods.doc name

/-- The name of a type declaration. -/
def declName (mods : Modifiers) : Rule String := do
  let v ← view
  let name ← identifier
  checkDeprecation mods v.here
  return name

def listAfter (kind : Kind) : Rule (Tree (.list .type)) := do
  listIf (← accept kind) typeList

/-- The types of a `permits` clause. -/
def permits : Rule (Tree (.list .type)) := do
  if Lookahead.nextWord "permits" (← ahead) then
    advance 1
    typeList
  else return .nil

/-- The tree of a type declaration that ends here. -/
def finishDecl (mods : Modifiers) (name : String) (form : Tree .form)
    (members : Tree (.list .member)) : Rule (Tree .typeDecl) := do
  return .typeDecl mods.front mods.annotations name form members (← since mods.start)

def classDecl (mods : Modifiers) : Rule (Tree .typeDecl) := do
  expect .classKw
  let name ← declName mods
  let params ← typeParams
  let parent ← optionIf (← accept .extendsKw) (call .type)
  let interfaces ← listAfter .implementsKw
  let permitted ← permits
  let members ← classBody name
  finishDecl mods name (.classForm params parent interfaces permitted) members

def interfaceDecl (mods : Modifiers) : Rule (Tree .typeDecl) := do
  expect .interfaceKw
  let name ← declName mods
  let params ← typeParams
  let parents ← listAfter .extendsKw
  let permitted ← permits
  let members ← classBody name
  finishDecl mods name (.interfaceForm params parents permitted) members

def enumConstant : Rule (Tree .enumConstant) := do
  let start ← mark
  let annotations ← call (.annotations false)
  let name ← identifier
  let args ← if ← check .lparen then .some <$> arguments else pure .none
  let body ← if ← check .lbrace then .some <$> classBody "" else pure .none
  return .enumConstant annotations name args body (← since start)

/-- Constants up to a semicolon or a closing brace; a comma may stand behind the last one. -/
def enumConstants : Rule (Tree (.list .enumConstant)) := do
  let ts ← ahead
  if ts.isEmpty || Lookahead.nextOneOf [.semicolon, .rbrace] ts then return .nil
  else
    let first ← enumConstant
    let rest ← listIf (← accept .comma) (call .enumConstants)
    return .cons first rest

def enumDecl (mods : Modifiers) : Rule (Tree .typeDecl) := do
  expect .enumKw
  let name ← declName mods
  let interfaces ← listAfter .implementsKw
  expect .lbrace
  let constants ← call .enumConstants
  let members ← listIf (← accept .semicolon) (call (.members name))
  require .rbrace
  finishDecl mods name (.enumForm interfaces constants) members

/-- A parameter; annotations on its ellipsis are read and dropped. -/
def param : Rule (Tree .param) := do
  let mods ← modifiers
  let type ← call .type
  let _ ← call (.annotations false)
  let varargs ← accept .ellipsis
  let name ← if ← check .thisKw then takeText else identifier
  let n ← dims
  let extent ← since mods.start
  return .param mods.modifiers mods.annotations (type.addDims n) name varargs extent

def paramList : Rule (Tree (.list .param)) := do
  let first ← param
  let rest ← listIf (← accept .comma) (call .paramList)
  return .cons first rest

def params : Rule (Tree (.list .param)) := do
  expect .lparen
  let params ← listIf (!(← check .rparen)) (call .paramList)
  expect .rparen
  return params

def recordDecl (mods : Modifiers) : Rule (Tree .typeDecl) := do
  advance 1
  let name ← declName mods
  let typeParams ← typeParams
  let components ← params
  let interfaces ← listAfter .implementsKw
  let members ← classBody name
  finishDecl mods name (.recordForm typeParams components interfaces) members

def annotationDecl (mods : Modifiers) : Rule (Tree .typeDecl) := do
  expect .atSign
  expect .interfaceKw
  let name ← declName mods
  let members ← classBody name
  finishDecl mods name .annotationForm members

def typeDecl (mods : Modifiers) : Rule (Tree .typeDecl) := do
  let v ← view
  if Lookahead.next [.classKw] v.ahead then classDecl mods
  else if Lookahead.next [.interfaceKw] v.ahead then interfaceDecl mods
  else if Lookahead.next [.enumKw] v.ahead then enumDecl mods
  else if Lookahead.next [.atSign] v.ahead then annotationDecl mods
  else if Lookahead.isRecord v.ahead then recordDecl mods
  else raise (v.wrong .typeDeclExpected)

def members (owner : String) : Rule (Tree (.list .member)) := do
  let v ← view
  if v.ahead.isEmpty || Lookahead.next [.rbrace] v.ahead || !v.running then return .nil
  else if Lookahead.next [.semicolon] v.ahead then
    advance 1
    call (.members owner)
  else
    match ← attempt (.member owner) with
    | .ok first =>
      let rest ← call (.members owner)
      return .cons first rest
    | .error error =>
      report error
      let extent ← resync Resync.classBody v
      let rest ← call (.members owner)
      return .cons (.erroneousMember extent) rest

def initBlock (mods : Modifiers) : Rule (Tree .member) := do
  let body ← call .block
  return .initBlock (mods.modifiers.contains .isStatic) body (← since mods.start)

/-- A constructor must bear the name of its class. -/
def constructorDecl (mods : Modifiers) (typeParams : Tree (.list .typeParam)) (owner : String) :
    Rule (Tree .member) := do
  let v ← view
  let name ← takeText
  if name != owner then report ⟨.returnTypeRequired, v.here⟩
  checkDeprecation mods v.here
  let params ← params
  let throws ← listAfter .throwsKw
  let body ← call .block
  let extent ← since mods.start
  return .constructor mods.front mods.annotations typeParams name params throws body false
    extent

def compactConstructor (mods : Modifiers) : Rule (Tree .member) := do
  let name ← takeText
  let body ← call .block
  let extent ← since mods.start
  return .constructor mods.front mods.annotations .nil name .nil .nil body true extent

/-- A method after its name; dimensions behind the parameters belong to the result type. -/
def methodRest (mods : Modifiers) (typeParams : Tree (.list .typeParam))
    (result : Tree (.option .type)) (name : String) : Rule (Tree .member) := do
  let params ← params
  let n ← dims
  let result := match result with
    | .some type => .some (type.addDims n)
    | .none => .none
  let throws ← listAfter .throwsKw
  let default ← optionIf (← accept .defaultKw) (call .elementValue)
  let body ← optionIf (← check .lbrace) (call .block)
  if body.toOption.isNone then require .semicolon
  let extent ← since mods.start
  return .method mods.front mods.annotations typeParams result name params throws body default
    extent

def fieldRest (mods : Modifiers) (type : Tree .type) (name : String) (start : Mark) :
    Rule (Tree .member) := do
  let names ← call (.declarators name start)
  require .semicolon
  let extent ← since mods.start
  return .field (.varDecl mods.front mods.annotations type names extent)

/-- The name of a method or field. Where parameters follow a type at once, the name is reported
missing and the method kept. -/
def memberName : Rule String := do
  let v ← view
  if Lookahead.next [.identifier] v.ahead then takeText
  else if Lookahead.next [.lparen] v.ahead then
    report (v.missing .identifier)
    return "<error>"
  else raise (v.missing .identifier)

/-- A method or a field. -/
def typedMember (mods : Modifiers) (typeParams : Tree (.list .typeParam)) :
    Rule (Tree .member) := do
  let result ← if ← accept .voidKw then pure .none else .some <$> call .type
  let named ← view
  let name ← memberName
  checkDeprecation mods named.here
  let v ← view
  if Lookahead.next [.lparen] v.ahead then methodRest mods typeParams result name
  else
    match result with
    | .some type => fieldRest mods type name named.mark
    | .none => raise (v.missing (.symbol .lparen))

def member (owner : String) : Rule (Tree .member) := do
  let mods ← modifiers
  let ts ← ahead
  if Lookahead.next [.lbrace] ts then initBlock mods
  else if Lookahead.isTypeDecl ts then return .memberType (← call (.typeDecl mods))
  else
    let typeParams ← typeParams
    let ts ← ahead
    if Lookahead.next [.identifier, .lparen] ts then constructorDecl mods typeParams owner
    else if Lookahead.next [.identifier, .lbrace] ts && Lookahead.nextWord owner ts then
      compactConstructor mods
    else typedMember mods typeParams

/-- The first symbol of a clause: that of its annotations, if it has any. -/
def clauseStart (mods : Modifiers) : Rule Mark := do
  if mods.modifiers.isEmpty && mods.annotations.isNil then mark else return mods.start

def packageDecl (mods : Modifiers) : Rule PackageDecl := do
  let start ← clauseStart mods
  expect .packageKw
  let name ← qualifiedName
  require .semicolon
  return ⟨mods.annotations, name, ← since start⟩

def importDecl : Rule ImportDecl := do
  let start ← mark
  expect .importKw
  let isStatic ← accept .staticKw
  let name ← qualifiedName
  let dotted ← accept .dot
  if dotted then
    if !(← check .star) then
      let _ ← identifier
    advance 1
  require .semicolon
  return ⟨name, isStatic, dotted, ← since start⟩

def names : Rule (List String) := do
  let first ← qualifiedName
  if ← accept .comma then return first :: (← call .names) else return [first]

/-- The modules that a package is open to, if they are listed. -/
def targets : Rule (List String) := do
  if Lookahead.nextWord "to" (← ahead) then
    advance 1
    call .names
  else return []

def directive : Rule Directive := do
  let v ← view
  let start := v.mark
  if Lookahead.nextWord "requires" v.ahead then
    advance 1
    let (isTransitive, isStatic, n) := Lookahead.requireWords (← ahead)
    advance n
    let name ← qualifiedName
    require .semicolon
    return .requires isTransitive isStatic name (← since start)
  else if Lookahead.nextWord "exports" v.ahead then
    advance 1
    let package ← qualifiedName
    let targets ← targets
    require .semicolon
    return .exports package targets (← since start)
  else if Lookahead.nextWord "opens" v.ahead then
    advance 1
    let package ← qualifiedName
    let targets ← targets
    require .semicolon
    return .opens package targets (← since start)
  else if Lookahead.nextWord "uses" v.ahead then
    advance 1
    let service ← qualifiedName
    require .semicolon
    return .uses service (← since start)
  else if Lookahead.nextWord "provides" v.ahead then
    advance 1
    let service ← qualifiedName
    let v ← view
    if Lookahead.nextWord "with" v.ahead then advance 1 else raise (v.missing (.word "with"))
    let implementations ← call .names
    require .semicolon
    return .provides service implementations (← since start)
  else raise (v.missing .directive)

def directives : Rule (List Directive) := do
  let ts ← ahead
  if ts.isEmpty || Lookahead.next [.rbrace] ts then return []
  else
    let first ← directive
    return first :: (← call .directives)

def moduleDecl (mods : Modifiers) : Rule ModuleDecl := do
  let start ← clauseStart mods
  let isOpen := Lookahead.nextWord "open" (← ahead)
  advance (if isOpen then 2 else 1)
  let name ← qualifiedName
  expect .lbrace
  let directives ← call .directives
  require .rbrace
  return ⟨mods.annotations, isOpen, name, directives, ← since start⟩

def item : Rule UnitItem := do
  let v ← view
  if Lookahead.next [.semicolon] v.ahead then
    advance 1
    return .form (.empty v.here)
  else if Lookahead.next [.importKw] v.ahead then return .import (← importDecl)
  else
    let mods ← modifiers
    let v ← view
    if mods.modifiers.isEmpty && Lookahead.next [.packageKw] v.ahead then
      return .package (← packageDecl mods)
    else if mods.modifiers.isEmpty && Lookahead.isModule v.ahead then
      return .module (← moduleDecl mods)
    else if Lookahead.isTypeDecl v.ahead then return .form (.type (← call (.typeDecl mods)))
    else raise (v.wrong .typeDeclExpected)

/-- The file with one more form. -/
def addForm (unit : CompilationUnit) (form : TopLevel) : CompilationUnit :=
  { unit with forms := unit.forms ++ [form] }

/-- A clause in the wrong place: reported at its start and kept as an error marker. -/
def misplaced (unit : CompilationUnit) (extent : Extent) : Rule CompilationUnit := do
  report ⟨.typeDeclExpected, .point extent.start⟩
  return addForm unit (.erroneous extent)

/-- Adds an item to the file. The package comes first, then imports, then the module, then forms. -/
def addItem (unit : CompilationUnit) : UnitItem → Rule CompilationUnit
  | .package decl =>
    if unit.package.isNone && unit.imports.isEmpty && unit.module.isNone && unit.forms.isEmpty then
      return { unit with package := some decl }
    else misplaced unit decl.extent
  | .import decl =>
    if unit.module.isNone && unit.forms.isEmpty then
      return { unit with imports := unit.imports ++ [decl] }
    else misplaced unit decl.extent
  | .module decl =>
    if unit.module.isNone && unit.forms.isEmpty then return { unit with module := some decl }
    else misplaced unit decl.extent
  | .form form => return addForm unit form

/-- Reads items to the end of the file. Once no more faults may be reported the rest becomes one
error marker. -/
def items (unit : CompilationUnit) : Rule CompilationUnit := do
  let v ← view
  if v.ahead.isEmpty then return unit
  else if !v.running then return addForm unit (.erroneous (← absorbRest))
  else
    match ← attempt .item with
    | .ok item =>
      let unit ← addItem unit item
      call (.items unit)
    | .error error =>
      report error
      let extent ← resync Resync.topLevel v
      call (.items (addForm unit (.erroneous extent)))

/-- Nothing may follow a whole expression or type; what does is reported once and dropped. -/
def finish : Rule Unit := do
  let v ← view
  if !v.ahead.isEmpty then
    if v.running then report ⟨.trailingInput, v.here⟩
    let _ ← absorbRest

/-- A whole input read as one nonterminal; a fault turns it into an error marker. -/
def whole {α : Type} (nonterminal : Nonterminal α) (wrap : α → Tree .expr) : Rule (Tree .expr) := do
  let tree ←
    match ← attempt nonterminal with
    | .ok value => pure (wrap value)
    | .error error => do
      report error
      pure (.erroneousExpr (← absorbRest))
  finish
  return tree

/-- The rule of every nonterminal. -/
def rule : {α : Type} → Nonterminal α → Rule α
  | _, .annot => annot
  | _, .annotations onType => annotations onType
  | _, .namedElements => namedElements
  | _, .elementValue => elementValue
  | _, .elementValues => elementValues
  | _, .type => type
  | _, .typeSegments start outer name diamond => typeSegments start outer name diamond
  | _, .typeArgs => typeArgs
  | _, .typeArgList => typeArgList
  | _, .typesAfter separator => typesAfter separator
  | _, .typeParamList => typeParamList
  | _, .expr => expr
  | _, .conditional => conditional
  | _, .binary least => binary least
  | _, .binaryRest least start left => binaryRest least start left
  | _, .unary => unary
  | _, .selectors start target => selectors start target
  | _, .steps start operand => steps start operand
  | _, .lambda => lambda
  | _, .exprList => exprList
  | _, .sizes => sizes
  | _, .arrayInit => arrayInit
  | _, .arrayElements => arrayElements
  | _, .lambdaParamList => lambdaParamList
  | _, .labels => labels
  | _, .switchRest isExpr => switchRest isExpr
  | _, .switchCases isExpr => switchCases isExpr
  | _, .switchCase isExpr => switchCase isExpr
  | _, .stmt => stmt
  | _, .block => block
  | _, .statements inSwitch => statements inSwitch
  | _, .declarators name start => declarators name start
  | _, .standalones => standalones
  | _, .resources => resources
  | _, .catches => catches
  | _, .modifierRun => modifierRun
  | _, .typeDecl mods => typeDecl mods
  | _, .members owner => members owner
  | _, .member owner => member owner
  | _, .paramList => paramList
  | _, .enumConstants => enumConstants
  | _, .names => names
  | _, .directives => directives
  | _, .item => item
  | _, .items unit => items unit
  | _, .wholeExpr => whole .expr id
  | _, .wholeType => whole .type .typeExpr

end JavaSyntax.Grammar
