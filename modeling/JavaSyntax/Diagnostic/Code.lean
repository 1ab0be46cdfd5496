/-!
The severities and codes of diagnostics. The key of a code is stable and is what tools match on.
-/

namespace JavaSyntax

inductive Severity where
  | error
  | warning
  | note
deriving DecidableEq

def Severity.display : Severity → String
  | .error => "error"
  | .warning => "warning"
  | .note => "note"

/-- What a diagnostic is about. -/
inductive Code where
  | illegalChar
  | unclosedStrLit
  | unclosedCharLit
  | emptyCharLit
  | unclosedComment
  | unclosedTextBlock
  | illegalTextBlockOpen
  | illegalEscChar
  | malformedFpLit
  | illegalUnderscore
  | expected
  | illegalStartOfExpr
  | illegalStartOfType
  | expectedTypeDecl
  | prematureEof
  | notStmt
  | intNumberTooLarge
  | fpNumberTooLarge
  | fpNumberTooSmall
  | invalidMethDecl
  | trailingInput
  | malformed
  | missingDeprecated
  | tooManyErrors
deriving DecidableEq

def Code.key : Code → String
  | .illegalChar => "compiler.err.illegal.char"
  | .unclosedStrLit => "compiler.err.unclosed.str.lit"
  | .unclosedCharLit => "compiler.err.unclosed.char.lit"
  | .emptyCharLit => "compiler.err.empty.char.lit"
  | .unclosedComment => "compiler.err.unclosed.comment"
  | .unclosedTextBlock => "compiler.err.unclosed.text.block"
  | .illegalTextBlockOpen => "compiler.err.illegal.text.block.open"
  | .illegalEscChar => "compiler.err.illegal.esc.char"
  | .malformedFpLit => "compiler.err.malformed.fp.lit"
  | .illegalUnderscore => "compiler.err.illegal.underscore"
  | .expected => "compiler.err.expected"
  | .illegalStartOfExpr => "compiler.err.illegal.start.of.expr"
  | .illegalStartOfType => "compiler.err.illegal.start.of.type"
  | .expectedTypeDecl => "compiler.err.expected4"
  | .prematureEof => "compiler.err.premature.eof"
  | .notStmt => "compiler.err.not.stmt"
  | .intNumberTooLarge => "compiler.err.int.number.too.large"
  | .fpNumberTooLarge => "compiler.err.fp.number.too.large"
  | .fpNumberTooSmall => "compiler.err.fp.number.too.small"
  | .invalidMethDecl => "compiler.err.invalid.meth.decl.ret.type.req"
  | .trailingInput => "compiler.err.trailing.input"
  | .malformed => "compiler.err.syntax"
  | .missingDeprecated => "compiler.warn.missing.deprecated.annotation"
  | .tooManyErrors => "compiler.note.too.many.errors"

end JavaSyntax
