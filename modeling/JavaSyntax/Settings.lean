/-!
What a caller can choose about parsing, and how environment variables set it.
-/

namespace JavaSyntax

structure Settings where
  /-- Go on after a fault. -/
  recover : Bool
  /-- Attach documentation comments to the tokens behind them. -/
  keepDocs : Bool
  /-- Warn about items that only their documentation calls deprecated. -/
  deprecation : Bool
  /-- The number of errors after which parsing stops. -/
  maxErrors : Nat
deriving DecidableEq

namespace Settings

def standard : Settings := ⟨true, true, true, 100⟩

/-- A limit of zero counts as one. -/
def withMaxErrors (settings : Settings) (n : Nat) : Settings :=
  { settings with maxErrors := max n 1 }

/-- The number that decimal digits write, with a plus sign in front or not, if it fits into 64
bits. -/
def count? (text : String) : Option Nat :=
  let digits := match text.toList with
    | '+' :: rest => rest
    | cs => cs
  if digits.isEmpty || !digits.all Char.isDigit then none
  else
    let n := digits.foldl (fun n c => 10 * n + (c.toNat - '0'.toNat)) 0
    if n < Nat.pow 2 64 then some n else none

/-- The standard settings as variables change them. A switch is thrown by being set at all; a limit
that is no positive number is ignored. -/
def ofEnvironment (value : String → Option String) : Settings :=
  { recover := (value "JAVAPARSE_NO_RECOVERY").isNone
    keepDocs := (value "JAVAPARSE_DROP_DOC_COMMENTS").isNone
    deprecation := (value "JAVAPARSE_NO_DEPRECATION").isNone
    maxErrors := (((value "JAVAPARSE_MAX_ERRORS").bind count?).filter (0 < ·)).getD
      standard.maxErrors }

end Settings

end JavaSyntax
