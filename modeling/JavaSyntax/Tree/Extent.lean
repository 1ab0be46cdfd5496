/-!
Places told by tokens. A tree records which tokens it was read from, not where these stand in the
text; a layout turns marks into offsets later. So the same tokens give the same tree, whatever
blanks and comments lie between them.
-/

namespace JavaSyntax

/-- A place at the edge of a token, or some bytes into one. Tokens are numbered from zero. -/
inductive Mark where
  | before (token bytes : Nat)
  | after (token : Nat)
  | eof
deriving DecidableEq

/-- The order of marks in the text. -/
def Mark.le : Mark → Mark → Bool
  | .before i a, .before j b => i < j || i == j && a ≤ b
  | .before i _, .after j => i ≤ j
  | .after i, .before j _ => i < j
  | .after i, .after j => i ≤ j
  | _, .eof => true
  | .eof, _ => false

/-- A stretch of tokens. -/
structure Extent where
  start : Mark
  stop : Mark
deriving DecidableEq

def Extent.point (m : Mark) : Extent := ⟨m, m⟩

end JavaSyntax
