/-!
The kinds of tokens. Words that are reserved only in places (`var`, `record`, `sealed`, `module`,
...) are identifiers here; the grammar knows them from context.
-/

namespace JavaSyntax

inductive Kind where
  | packageKw
  | importKw
  | staticKw
  | publicKw
  | protectedKw
  | privateKw
  | abstractKw
  | finalKw
  | nativeKw
  | synchronizedKw
  | transientKw
  | volatileKw
  | strictfpKw
  | classKw
  | interfaceKw
  | enumKw
  | extendsKw
  | implementsKw
  | newKw
  | thisKw
  | superKw
  | instanceofKw
  | voidKw
  | booleanKw
  | byteKw
  | shortKw
  | intKw
  | longKw
  | charKw
  | floatKw
  | doubleKw
  | ifKw
  | elseKw
  | forKw
  | whileKw
  | doKw
  | switchKw
  | caseKw
  | defaultKw
  | assertKw
  | breakKw
  | continueKw
  | returnKw
  | throwKw
  | throwsKw
  | tryKw
  | catchKw
  | finallyKw
  | constKw
  | gotoKw
  | trueKw
  | falseKw
  | nullKw
  | assign
  | addAssign
  | subAssign
  | mulAssign
  | divAssign
  | modAssign
  | andAssign
  | orAssign
  | xorAssign
  | shlAssign
  | shrAssign
  | ushrAssign
  | plus
  | minus
  | star
  | slash
  | percent
  | increment
  | decrement
  | bang
  | tilde
  | amp
  | pipe
  | caret
  | shl
  | shr
  | ushr
  | andAnd
  | orOr
  | equal
  | notEqual
  | less
  | lessEqual
  | greater
  | greaterEqual
  | question
  | colon
  | doubleColon
  | arrow
  | lparen
  | rparen
  | lbracket
  | rbracket
  | lbrace
  | rbrace
  | semicolon
  | comma
  | dot
  | atSign
  | ellipsis
  | stringLit
  | textBlockLit
  | charLit
  | integerLit
  | floatingLit
  | identifier
deriving DecidableEq

namespace Kind

/-- The text of a token of this kind; empty for the kinds whose text varies. -/
def spelling : Kind → String
  | .packageKw => "package"
  | .importKw => "import"
  | .staticKw => "static"
  | .publicKw => "public"
  | .protectedKw => "protected"
  | .privateKw => "private"
  | .abstractKw => "abstract"
  | .finalKw => "final"
  | .nativeKw => "native"
  | .synchronizedKw => "synchronized"
  | .transientKw => "transient"
  | .volatileKw => "volatile"
  | .strictfpKw => "strictfp"
  | .classKw => "class"
  | .interfaceKw => "interface"
  | .enumKw => "enum"
  | .extendsKw => "extends"
  | .implementsKw => "implements"
  | .newKw => "new"
  | .thisKw => "this"
  | .superKw => "super"
  | .instanceofKw => "instanceof"
  | .voidKw => "void"
  | .booleanKw => "boolean"
  | .byteKw => "byte"
  | .shortKw => "short"
  | .intKw => "int"
  | .longKw => "long"
  | .charKw => "char"
  | .floatKw => "float"
  | .doubleKw => "double"
  | .ifKw => "if"
  | .elseKw => "else"
  | .forKw => "for"
  | .whileKw => "while"
  | .doKw => "do"
  | .switchKw => "switch"
  | .caseKw => "case"
  | .defaultKw => "default"
  | .assertKw => "assert"
  | .breakKw => "break"
  | .continueKw => "continue"
  | .returnKw => "return"
  | .throwKw => "throw"
  | .throwsKw => "throws"
  | .tryKw => "try"
  | .catchKw => "catch"
  | .finallyKw => "finally"
  | .constKw => "const"
  | .gotoKw => "goto"
  | .trueKw => "true"
  | .falseKw => "false"
  | .nullKw => "null"
  | .assign => "="
  | .addAssign => "+="
  | .subAssign => "-="
  | .mulAssign => "*="
  | .divAssign => "/="
  | .modAssign => "%="
  | .andAssign => "&="
  | .orAssign => "|="
  | .xorAssign => "^="
  | .shlAssign => "<<="
  | .shrAssign => ">>="
  | .ushrAssign => ">>>="
  | .plus => "+"
  | .minus => "-"
  | .star => "*"
  | .slash => "/"
  | .percent => "%"
  | .increment => "++"
  | .decrement => "--"
  | .bang => "!"
  | .tilde => "~"
  | .amp => "&"
  | .pipe => "|"
  | .caret => "^"
  | .shl => "<<"
  | .shr => ">>"
  | .ushr => ">>>"
  | .andAnd => "&&"
  | .orOr => "||"
  | .equal => "=="
  | .notEqual => "!="
  | .less => "<"
  | .lessEqual => "<="
  | .greater => ">"
  | .greaterEqual => ">="
  | .question => "?"
  | .colon => ":"
  | .doubleColon => "::"
  | .arrow => "->"
  | .lparen => "("
  | .rparen => ")"
  | .lbracket => "["
  | .rbracket => "]"
  | .lbrace => "\x7b"
  | .rbrace => "\x7d"
  | .semicolon => ";"
  | .comma => ","
  | .dot => "."
  | .atSign => "@"
  | .ellipsis => "..."
  | _ => ""

/-- The name under which a token of this kind is listed. -/
def label : Kind → String
  | .packageKw => "Package"
  | .importKw => "Import"
  | .staticKw => "Static"
  | .publicKw => "Public"
  | .protectedKw => "Protected"
  | .privateKw => "Private"
  | .abstractKw => "Abstract"
  | .finalKw => "Final"
  | .nativeKw => "Native"
  | .synchronizedKw => "Synchronized"
  | .transientKw => "Transient"
  | .volatileKw => "Volatile"
  | .strictfpKw => "Strictfp"
  | .classKw => "Class"
  | .interfaceKw => "Interface"
  | .enumKw => "Enum"
  | .extendsKw => "Extends"
  | .implementsKw => "Implements"
  | .newKw => "New"
  | .thisKw => "This"
  | .superKw => "Super"
  | .instanceofKw => "InstanceOf"
  | .voidKw => "Void"
  | .booleanKw => "Boolean"
  | .byteKw => "Byte"
  | .shortKw => "Short"
  | .intKw => "Int"
  | .longKw => "Long"
  | .charKw => "Char"
  | .floatKw => "Float"
  | .doubleKw => "Double"
  | .ifKw => "If"
  | .elseKw => "Else"
  | .forKw => "For"
  | .whileKw => "While"
  | .doKw => "Do"
  | .switchKw => "Switch"
  | .caseKw => "Case"
  | .defaultKw => "Default"
  | .assertKw => "Assert"
  | .breakKw => "Break"
  | .continueKw => "Continue"
  | .returnKw => "Return"
  | .throwKw => "Throw"
  | .throwsKw => "Throws"
  | .tryKw => "Try"
  | .catchKw => "Catch"
  | .finallyKw => "Finally"
  | .constKw => "Const"
  | .gotoKw => "Goto"
  | .trueKw => "True"
  | .falseKw => "False"
  | .nullKw => "Null"
  | .assign => "Assign"
  | .addAssign => "AddAssign"
  | .subAssign => "SubAssign"
  | .mulAssign => "MulAssign"
  | .divAssign => "DivAssign"
  | .modAssign => "ModAssign"
  | .andAssign => "AndAssign"
  | .orAssign => "OrAssign"
  | .xorAssign => "XorAssign"
  | .shlAssign => "LShiftAssign"
  | .shrAssign => "RShiftAssign"
  | .ushrAssign => "URShiftAssign"
  | .plus => "Plus"
  | .minus => "Minus"
  | .star => "Star"
  | .slash => "Slash"
  | .percent => "Percent"
  | .increment => "Inc"
  | .decrement => "Dec"
  | .bang => "Bang"
  | .tilde => "Tilde"
  | .amp => "Amp"
  | .pipe => "Pipe"
  | .caret => "Caret"
  | .shl => "LShift"
  | .shr => "RShift"
  | .ushr => "URShift"
  | .andAnd => "AndAnd"
  | .orOr => "PipePipe"
  | .equal => "Eq"
  | .notEqual => "Ne"
  | .less => "Lt"
  | .lessEqual => "Le"
  | .greater => "Gt"
  | .greaterEqual => "Ge"
  | .question => "Question"
  | .colon => "Colon"
  | .doubleColon => "DoubleColon"
  | .arrow => "Arrow"
  | .lparen => "LParen"
  | .rparen => "RParen"
  | .lbracket => "LBracket"
  | .rbracket => "RBracket"
  | .lbrace => "LBrace"
  | .rbrace => "RBrace"
  | .semicolon => "Semicolon"
  | .comma => "Comma"
  | .dot => "Dot"
  | .atSign => "At"
  | .ellipsis => "Ellipsis"
  | .stringLit => "StringLiteral"
  | .textBlockLit => "TextBlock"
  | .charLit => "CharLiteral"
  | .integerLit => "IntegerLiteral"
  | .floatingLit => "FloatingLiteral"
  | .identifier => "Identifier"

/-- The reserved words, `true`, `false` and `null` among them. -/
def keywords : List Kind := [
  .packageKw, .importKw, .staticKw, .publicKw, .protectedKw, .privateKw, .abstractKw, .finalKw,
  .nativeKw, .synchronizedKw, .transientKw, .volatileKw, .strictfpKw, .classKw, .interfaceKw,
  .enumKw, .extendsKw, .implementsKw, .newKw, .thisKw, .superKw, .instanceofKw, .voidKw, .booleanKw,
  .byteKw, .shortKw, .intKw, .longKw, .charKw, .floatKw, .doubleKw, .ifKw, .elseKw, .forKw,
  .whileKw, .doKw, .switchKw, .caseKw, .defaultKw, .assertKw, .breakKw, .continueKw, .returnKw,
  .throwKw, .throwsKw, .tryKw, .catchKw, .finallyKw, .constKw, .gotoKw, .trueKw, .falseKw, .nullKw]

/-- Operators and separators, the longest first. -/
def operators : List Kind := [
  .ushrAssign, .shlAssign, .shrAssign, .ushr, .ellipsis, .addAssign, .subAssign, .mulAssign,
  .divAssign, .modAssign, .andAssign, .orAssign, .xorAssign, .increment, .decrement, .shl, .shr,
  .andAnd, .orOr, .equal, .notEqual, .lessEqual, .greaterEqual, .doubleColon, .arrow, .assign,
  .plus, .minus, .star, .slash, .percent, .bang, .tilde, .amp, .pipe, .caret, .less, .greater,
  .question, .colon, .lparen, .rparen, .lbracket, .rbracket, .lbrace, .rbrace, .semicolon, .comma,
  .dot, .atSign]

def isKeyword (k : Kind) : Bool :=
  keywords.contains k

def isModifier : Kind → Bool
  | .publicKw | .protectedKw | .privateKw | .abstractKw | .finalKw | .nativeKw
  | .synchronizedKw | .transientKw | .volatileKw | .staticKw | .strictfpKw | .defaultKw => true
  | _ => false

/-- The primitive types and `void`. -/
def isPrimitive : Kind → Bool
  | .booleanKw | .byteKw | .shortKw | .intKw | .longKw | .charKw | .floatKw | .doubleKw
  | .voidKw => true
  | _ => false

def isLiteral : Kind → Bool
  | .stringLit | .textBlockLit | .charLit | .integerLit | .floatingLit | .trueKw | .falseKw
  | .nullKw => true
  | _ => false

def opensTypeDecl : Kind → Bool
  | .classKw | .interfaceKw | .enumKw => true
  | _ => false

end Kind

end JavaSyntax
