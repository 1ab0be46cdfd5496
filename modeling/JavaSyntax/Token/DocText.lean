import JavaSyntax.Unicode.Class

/-!
The text of a documentation comment without its decoration.
-/

namespace JavaSyntax.DocText

/-- The parts of a text between line feeds. -/
def lines (cs : List Char) : List (List Char) :=
  cs.splitOn '\n'

/-- Strips the blanks around a line, its leading `*` and one blank after that. -/
def plain (line : List Char) : List Char :=
  match Unicode.trimStart line with
  | '*' :: ' ' :: rest => Unicode.trimEnd rest
  | '*' :: rest => Unicode.trimEnd rest
  | rest => Unicode.trimEnd rest

def dropEmpty (ls : List (List Char)) : List (List Char) :=
  ls.dropWhile List.isEmpty

/-- The plain lines between the first and the last that are not empty. -/
def ofBody (body : List Char) : String :=
  let ls := (dropEmpty (dropEmpty ((lines body).map plain)).reverse).reverse
  "\n".intercalate (ls.map String.ofList)

end JavaSyntax.DocText
