import JavaSyntax.Diagnostic.Code

/-!
What can be wrong with a piece of text that is no token.
-/

namespace JavaSyntax

inductive Flaw where
  | illegalChar
  | unclosedString
  | unclosedChar
  | emptyChar
  | unclosedComment
  | unclosedTextBlock
  | textBlockOpen
deriving DecidableEq

namespace Flaw

def code : Flaw → Code
  | .illegalChar => .illegalChar
  | .unclosedString => .unclosedStrLit
  | .unclosedChar => .unclosedCharLit
  | .emptyChar => .emptyCharLit
  | .unclosedComment => .unclosedComment
  | .unclosedTextBlock => .unclosedTextBlock
  | .textBlockOpen => .illegalTextBlockOpen

/-- A code point in lower-case hexadecimal, four digits or more. -/
def hexadecimal (n : Nat) : String :=
  let digits := Nat.toDigits 16 n
  String.ofList (List.replicate (4 - digits.length) '0' ++ digits)

/-- The message for a flaw over `text`; an illegal character is named by its code point. -/
def message (flaw : Flaw) (text : String) : String :=
  match flaw with
  | .illegalChar => "illegal character: '\\u" ++ hexadecimal (text.toList.headD '\x00').toNat ++ "'"
  | .unclosedString => "unclosed string literal"
  | .unclosedChar => "unclosed character literal"
  | .emptyChar => "empty character literal"
  | .unclosedComment => "unclosed comment"
  | .unclosedTextBlock => "unclosed text block"
  | .textBlockOpen => "illegal text block open delimiter sequence, missing line terminator"

end Flaw

end JavaSyntax
