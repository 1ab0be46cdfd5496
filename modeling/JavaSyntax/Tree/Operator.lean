/-!
Modifiers and operators, with their spelling.
-/

namespace JavaSyntax

inductive Modifier where
  | isPublic
  | isProtected
  | isPrivate
  | isAbstract
  | isStatic
  | isFinal
  | isNative
  | isSynchronized
  | isTransient
  | isVolatile
  | isStrictfp
  | isDefault
  | isSealed
  | isNonSealed
deriving DecidableEq

def Modifier.spelling : Modifier → String
  | .isPublic => "public"
  | .isProtected => "protected"
  | .isPrivate => "private"
  | .isAbstract => "abstract"
  | .isStatic => "static"
  | .isFinal => "final"
  | .isNative => "native"
  | .isSynchronized => "synchronized"
  | .isTransient => "transient"
  | .isVolatile => "volatile"
  | .isStrictfp => "strictfp"
  | .isDefault => "default"
  | .isSealed => "sealed"
  | .isNonSealed => "non-sealed"

inductive BinaryOp where
  | add
  | sub
  | mul
  | div
  | mod
  | lt
  | le
  | gt
  | ge
  | eq
  | ne
  | and
  | or
  | bitAnd
  | bitOr
  | bitXor
  | shl
  | shr
  | ushr
deriving DecidableEq

def BinaryOp.spelling : BinaryOp → String
  | .add => "+"
  | .sub => "-"
  | .mul => "*"
  | .div => "/"
  | .mod => "%"
  | .lt => "<"
  | .le => "<="
  | .gt => ">"
  | .ge => ">="
  | .eq => "=="
  | .ne => "!="
  | .and => "&&"
  | .or => "||"
  | .bitAnd => "&"
  | .bitOr => "|"
  | .bitXor => "^"
  | .shl => "<<"
  | .shr => ">>"
  | .ushr => ">>>"

inductive UnaryOp where
  | plus
  | minus
  | not
  | bitNot
  | preIncrement
  | preDecrement
  | postIncrement
  | postDecrement
deriving DecidableEq

namespace UnaryOp

def spelling : UnaryOp → String
  | .plus => "+"
  | .minus => "-"
  | .not => "!"
  | .bitNot => "~"
  | .preIncrement | .postIncrement => "++"
  | .preDecrement | .postDecrement => "--"

/-- Whether the operator stands behind its operand. -/
def isTrailing : UnaryOp → Bool
  | .postIncrement | .postDecrement => true
  | _ => false

/-- Whether the operator changes its operand. -/
def isStep : UnaryOp → Bool
  | .preIncrement | .preDecrement | .postIncrement | .postDecrement => true
  | _ => false

end UnaryOp

inductive AssignOp where
  | set
  | add
  | sub
  | mul
  | div
  | mod
  | and
  | or
  | xor
  | shl
  | shr
  | ushr
deriving DecidableEq

def AssignOp.spelling : AssignOp → String
  | .set => "="
  | .add => "+="
  | .sub => "-="
  | .mul => "*="
  | .div => "/="
  | .mod => "%="
  | .and => "&="
  | .or => "|="
  | .xor => "^="
  | .shl => "<<="
  | .shr => ">>="
  | .ushr => ">>>="

end JavaSyntax
