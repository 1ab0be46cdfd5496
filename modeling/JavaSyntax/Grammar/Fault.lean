import JavaSyntax.Literal.Basic
import JavaSyntax.Token.Kind
import JavaSyntax.Tree.Extent

/-!
What can be wrong with a sequence of tokens, with its code and message.
-/

namespace JavaSyntax

/-- What was missing. -/
inductive Wanted where
  | symbol (kind : Kind)
  | identifier
  | word (text : String)
  | directive
  | caseLabel
  | colonOrArrow
  | classLiteral

def Wanted.text : Wanted → String
  | .symbol kind => "'" ++ kind.spelling ++ "'"
  | .identifier => "<identifier>"
  | .word text => "'" ++ text ++ "'"
  | .directive => "'requires', 'exports', 'opens', 'uses', or 'provides'"
  | .caseLabel => "'case', 'default', or '\x7d'"
  | .colonOrArrow => "':' or '->'"
  | .classLiteral => "'.class'"

inductive Fault where
  | lexical (flaw : Flaw) (text : String)
  | literal (error : LiteralError)
  | expected (wanted : Wanted)
  | illegalStartOfExpr
  | illegalStartOfType
  | typeDeclExpected
  | prematureEof
  | notStatement
  | returnTypeRequired
  | trailingInput
  | loneTry
  | dimensionMissing

namespace Fault

def code : Fault → Code
  | .lexical flaw _ => flaw.code
  | .literal error => error.code
  | .expected _ => .expected
  | .illegalStartOfExpr => .illegalStartOfExpr
  | .illegalStartOfType => .illegalStartOfType
  | .typeDeclExpected => .expectedTypeDecl
  | .prematureEof => .prematureEof
  | .notStatement => .notStmt
  | .returnTypeRequired => .invalidMethDecl
  | .trailingInput => .trailingInput
  | .loneTry | .dimensionMissing => .malformed

def message : Fault → String
  | .lexical flaw text => flaw.message text
  | .literal error => error.message
  | .expected wanted => wanted.text ++ " expected"
  | .illegalStartOfExpr => "illegal start of expression"
  | .illegalStartOfType => "illegal start of type"
  | .typeDeclExpected => "class, interface, enum, or record expected"
  | .prematureEof => "reached end of file while parsing"
  | .notStatement => "not a statement"
  | .returnTypeRequired => "invalid method declaration; return type required"
  | .trailingInput => "unexpected trailing input"
  | .loneTry => "'try' without 'catch', 'finally' or resource declarations"
  | .dimensionMissing => "array dimension missing"

end Fault

/-- A fault and where it is. -/
structure SyntaxError where
  fault : Fault
  extent : Extent

end JavaSyntax
