import JavaSyntax.Grammar.Fault
import JavaSyntax.Grammar.Symbol
import JavaSyntax.Tree.Basic

/-!
Rules of the grammar as small programs. A rule looks at the symbols ahead, takes some, reports
faults, and calls nonterminals; it may fail with a fault, which the caller sees. `Nonterminal` names
every rule that another may call, with its parameters and its result, and loops are nonterminals
that call themselves. What a rule does to the state of a parse is said elsewhere, in one place, so
that a fact about all rules is one induction over `Rule`.
-/

namespace JavaSyntax

/-- What stood in front of a declaration. -/
structure Modifiers where
  modifiers : List Modifier
  annotations : Tree (.list .annot)
  start : Mark
  /-- The token whose documentation is that of the declaration. -/
  doc : Option Mark

namespace Modifiers

/-- What a declaration keeps of them. -/
def front (mods : Modifiers) : Front :=
  ⟨mods.modifiers, mods.doc⟩

/-- What a local variable keeps of them. -/
def undocumented (mods : Modifiers) : Front :=
  ⟨mods.modifiers, none⟩

end Modifiers

/-- One item at the top of a file. -/
inductive UnitItem where
  | package (decl : PackageDecl)
  | import (decl : ImportDecl)
  | module (decl : ModuleDecl)
  | form (form : TopLevel)

inductive Nonterminal : Type → Type where
  | annot : Nonterminal (Tree .annot)
  /-- Annotations up to the first symbol that starts none; `onType` leaves `@interface` alone. -/
  | annotations (onType : Bool) : Nonterminal (Tree (.list .annot))
  | namedElements : Nonterminal (Tree (.list .element))
  | elementValue : Nonterminal (Tree .expr)
  | elementValues : Nonterminal (Tree (.list .expr))
  | type : Nonterminal (Tree .type)
  /-- The rest of a class type after a name. -/
  | typeSegments (start : Mark) (outer : Tree (.option .type)) (name : String) (diamond : Bool) :
      Nonterminal (Tree .type)
  | typeArgs : Nonterminal (Tree (.list .typeArg))
  | typeArgList : Nonterminal (Tree (.list .typeArg))
  /-- Further types, each behind a separator. -/
  | typesAfter (separator : Kind) : Nonterminal (Tree (.list .type))
  | typeParamList : Nonterminal (Tree (.list .typeParam))
  | expr : Nonterminal (Tree .expr)
  | conditional : Nonterminal (Tree .expr)
  /-- Operators of at least this level. -/
  | binary (least : Nat) : Nonterminal (Tree .expr)
  | binaryRest (least : Nat) (start : Mark) (left : Tree .expr) : Nonterminal (Tree .expr)
  | unary : Nonterminal (Tree .expr)
  | selectors (start : Mark) (target : Tree .expr) : Nonterminal (Tree .expr)
  | steps (start : Mark) (operand : Tree .expr) : Nonterminal (Tree .expr)
  | lambda : Nonterminal (Tree .expr)
  | exprList : Nonterminal (Tree (.list .expr))
  | sizes : Nonterminal (Tree (.list .expr))
  | arrayInit : Nonterminal (Tree .arrayInit)
  | arrayElements : Nonterminal (Tree (.list .expr))
  | lambdaParamList : Nonterminal (Tree (.list .lambdaParam))
  | labels : Nonterminal (Tree (.list .expr))
  /-- The selector and the groups of a switch. -/
  | switchRest (isExpr : Bool) : Nonterminal (Tree .expr × Tree (.list .switchCase))
  | switchCases (isExpr : Bool) : Nonterminal (Tree (.list .switchCase))
  | switchCase (isExpr : Bool) : Nonterminal (Tree .switchCase)
  | stmt : Nonterminal (Tree .stmt)
  | block : Nonterminal (Tree .block)
  | statements (inSwitch : Bool) : Nonterminal (Tree (.list .stmt))
  /-- The names of a declaration, the first of which was read already. -/
  | declarators (name : String) (start : Mark) : Nonterminal (Tree (.list .declarator))
  | standalones : Nonterminal (Tree (.list .standalone))
  | resources : Nonterminal (Tree (.list .resource))
  | catches : Nonterminal (Tree (.list .catchClause))
  | modifierRun : Nonterminal (List Modifier × Tree (.list .annot))
  | typeDecl (mods : Modifiers) : Nonterminal (Tree .typeDecl)
  /-- The members of a class of this name. -/
  | members (owner : String) : Nonterminal (Tree (.list .member))
  | member (owner : String) : Nonterminal (Tree .member)
  | paramList : Nonterminal (Tree (.list .param))
  | enumConstants : Nonterminal (Tree (.list .enumConstant))
  | names : Nonterminal (List String)
  | directives : Nonterminal (List Directive)
  | item : Nonterminal UnitItem
  /-- The rest of a file after the items read so far. -/
  | items (unit : CompilationUnit) : Nonterminal CompilationUnit
  | wholeExpr : Nonterminal (Tree .expr)
  | wholeType : Nonterminal (Tree .expr)

/-- What a rule sees of a parse. -/
structure View where
  ahead : List Symbol
  /-- How many tokens were taken. -/
  index : Nat
  /-- How many bytes of the next token were taken already. -/
  taken : Nat
  /-- Whether faults may still be reported. -/
  running : Bool
  /-- Whether labels of a switch are being read, where an arrow makes no lambda. -/
  inLabels : Bool

namespace View

def mark (v : View) : Mark :=
  if v.ahead.isEmpty then .eof else .before v.index v.taken

/-- The token that documentation is taken from; there is none at the end of the file. -/
def doc (v : View) : Option Mark :=
  if v.ahead.isEmpty then none else some (.before v.index v.taken)

/-- The next token, or the end of the file. -/
def here (v : View) : Extent :=
  if v.ahead.isEmpty then .point .eof else ⟨.before v.index v.taken, .after v.index⟩

/-- From a mark up to the last token taken; empty if that lies in front of the mark. -/
def since (v : View) (start : Mark) : Extent :=
  if 0 < v.index ∧ start.le (.after (v.index - 1)) then ⟨start, .after (v.index - 1)⟩
  else .point start

/-- Something is missing here: told right after the last token. -/
def missing (v : View) (wanted : Wanted) : SyntaxError :=
  if v.ahead.isEmpty then ⟨.prematureEof, .point .eof⟩
  else ⟨.expected wanted, if 0 < v.index then .point (.after (v.index - 1)) else v.here⟩

/-- The next token is wrong. -/
def wrong (v : View) (fault : Fault) : SyntaxError :=
  if v.ahead.isEmpty then ⟨.prematureEof, .point .eof⟩ else ⟨fault, v.here⟩

end View

inductive Rule (α : Type) : Type 1 where
  | done (value : α)
  | fail (error : SyntaxError)
  | look (rest : View → Rule α)
  /-- Takes the next `n` tokens. -/
  | advance (n : Nat) (rest : Rule α)
  /-- Takes the first angle bracket of a token that starts with one. -/
  | splitAngle (rest : Rule α)
  | report (error : SyntaxError) (rest : Rule α)
  /-- Warns if the documentation of the token `doc` calls what is named at `name` deprecated. -/
  | deprecation (doc : Option Mark) (name : Extent) (rest : Rule α)
  /-- Calls a nonterminal; with `asLabels` the symbols are read as labels of a switch. -/
  | call {β : Type} (nonterminal : Nonterminal β) (asLabels : Bool)
      (rest : Except SyntaxError β → Rule α)

namespace Rule

protected def bind {α β : Type} (rule : Rule α) (f : α → Rule β) : Rule β :=
  match rule with
  | .done value => f value
  | .fail error => .fail error
  | .look rest => .look fun v => (rest v).bind f
  | .advance n rest => .advance n (rest.bind f)
  | .splitAngle rest => .splitAngle (rest.bind f)
  | .report error rest => .report error (rest.bind f)
  | .deprecation doc name rest => .deprecation doc name (rest.bind f)
  | .call nonterminal asLabels rest => .call nonterminal asLabels fun r => (rest r).bind f

instance : Monad Rule where
  pure := .done
  bind := Rule.bind

end Rule

namespace Grammar

def view : Rule View := .look .done

def raise {α : Type} (error : SyntaxError) : Rule α := .fail error

def advance (n : Nat) : Rule Unit := .advance n (.done ())

def splitAngle : Rule Unit := .splitAngle (.done ())

def report (error : SyntaxError) : Rule Unit := .report error (.done ())

def deprecation (doc : Option Mark) (name : Extent) : Rule Unit := .deprecation doc name (.done ())

/-- Calls a nonterminal and keeps its fault. -/
def attempt {β : Type} (nonterminal : Nonterminal β) : Rule (Except SyntaxError β) :=
  .call nonterminal false .done

/-- Calls a nonterminal; its fault is the caller's. -/
def call {β : Type} (nonterminal : Nonterminal β) : Rule β :=
  .call nonterminal false fun
    | .ok value => .done value
    | .error error => .fail error

/-- Calls a nonterminal to read labels of a switch. -/
def callLabels {β : Type} (nonterminal : Nonterminal β) : Rule β :=
  .call nonterminal true fun
    | .ok value => .done value
    | .error error => .fail error

def ahead : Rule (List Symbol) := do
  return (← view).ahead

def mark : Rule Mark := do
  return (← view).mark

def since (start : Mark) : Rule Extent := do
  return (← view).since start

/-- Whether the next symbol has this kind. -/
def check (kind : Kind) : Rule Bool := do
  return Lookahead.next [kind] (← ahead)

/-- Takes the next symbol if it has this kind. -/
def accept (kind : Kind) : Rule Bool := do
  let found ← check kind
  if found then advance 1
  return found

/-- Takes a symbol that must be there. -/
def expect (kind : Kind) : Rule Unit := do
  let v ← view
  if Lookahead.next [kind] v.ahead then advance 1 else raise (v.missing (.symbol kind))

/-- Takes a symbol, or reports that it is missing and goes on. -/
def require (kind : Kind) : Rule Unit := do
  let v ← view
  if Lookahead.next [kind] v.ahead then advance 1 else report (v.missing (.symbol kind))

/-- Takes the next symbol, of any kind, and gives its text. -/
def takeText : Rule String := do
  let ts ← ahead
  advance 1
  return (ts.head?.map Symbol.text).getD ""

def identifier : Rule String := do
  let v ← view
  if Lookahead.next [.identifier] v.ahead then takeText else raise (v.missing .identifier)

/-- A dotted name. A dot without a name behind it is left alone. -/
def qualifiedName : Rule String := do
  let first ← identifier
  let tail := Lookahead.dottedTail (← ahead)
  advance (2 * tail.length)
  return ".".intercalate (first :: tail)

/-- Pairs of brackets. -/
def dims : Rule Nat := do
  let n := Lookahead.dims (← ahead)
  advance (2 * n)
  return n

/-- An optional list behind a symbol. -/
def listIf {c : Category} (present : Bool) (rule : Rule (Tree (.list c))) :
    Rule (Tree (.list c)) :=
  if present then rule else return .nil

/-- An optional part. -/
def optionIf {c : Category} (present : Bool) (rule : Rule (Tree c)) : Rule (Tree (.option c)) :=
  if present then return .some (← rule) else return .none

/-- Skips to where parsing can go on after a fault in what began at `before`. If nothing was taken
since, the next symbol, or the group it opens, goes first. -/
def resync (goOn : List Symbol → List Symbol) (before : View) : Rule Extent := do
  let v ← view
  let ts := if v.index = before.index then Resync.skipBalanced v.ahead else v.ahead
  advance (v.ahead.length - (goOn ts).length)
  since before.mark

/-- Takes all that is left. -/
def absorbRest : Rule Extent := do
  let v ← view
  advance v.ahead.length
  since v.mark

end Grammar

end JavaSyntax
