/-!
The extent of texts between delimiters: string and character literals, text blocks and comments.
Every function counts the characters after the opening delimiter.
-/

namespace JavaSyntax.Enclosed

def isNewline (c : Char) : Bool := c == '\n' || c == '\r'

/-- Up to the closing quote, with a mark whether it was found. A literal stops before a line end; a
backslash takes the next character with it unless that ends the line. -/
def quoted (quote : Char) (n : Nat) : List Char → Nat × Bool
  | [] => (n, false)
  | ['\\'] => (n + 1, false)
  | '\\' :: c :: rest => if isNewline c then (n + 1, false) else quoted quote (n + 2) rest
  | c :: rest =>
    if c = quote then (n + 1, true)
    else if isNewline c then (n, false)
    else quoted quote (n + 1) rest

/-- Whether the opening delimiter of a text block is alone on its line. -/
def opensBlock (cs : List Char) : Bool :=
  (cs.dropWhile fun c => c == ' ' || c == '\t' || c == '\x0c').head?.any isNewline

/-- Up to the closing delimiter of a text block, with a mark whether it was found. -/
def block (n : Nat) : List Char → Nat × Bool
  | [] => (n, false)
  | '\\' :: _ :: rest => block (n + 2) rest
  | '"' :: '"' :: '"' :: _ => (n + 3, true)
  | _ :: rest => block (n + 1) rest

/-- Up to the end of the line. -/
def line (cs : List Char) : Nat :=
  (cs.takeWhile fun c => !isNewline c).length

/-- Up to the end of a comment, if it ends. -/
def comment (n : Nat) : List Char → Option Nat
  | [] => none
  | '*' :: '/' :: _ => some (n + 2)
  | _ :: rest => comment (n + 1) rest

end JavaSyntax.Enclosed
