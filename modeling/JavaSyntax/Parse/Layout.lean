import JavaSyntax.Grammar.Symbol
import JavaSyntax.Token.Lexer
import JavaSyntax.Tree.Extent

/-!
Where the tokens of a parse stand in its source. A layout turns marks into byte offsets and extents
into spans, and it knows the documentation in front of a token.
-/

namespace JavaSyntax

structure Layout where
  source : Source
  tokens : Array Token

namespace Layout

def ofItems (source : Source) (items : List Item) : Layout :=
  ⟨source, (items.filterMap Item.token?).toArray⟩

/-- The byte offset of a mark; a token that is not there stands at the end. -/
def offset (layout : Layout) : Mark → Nat
  | .before i bytes => (layout.tokens[i]?.map fun t => t.start + bytes).getD layout.source.size
  | .after i => (layout.tokens[i]?.map Token.stop).getD layout.source.size
  | .eof => layout.source.size

def span (layout : Layout) (extent : Extent) : Span :=
  layout.source.spanOf (layout.offset extent.start) (layout.offset extent.stop)

/-- The documentation in front of a mark; inside a token there is none. -/
def doc (layout : Layout) : Mark → Option String
  | .before i 0 => layout.tokens[i]?.bind Token.doc
  | _ => none

/-- The documentation that a declaration keeps, if it stands in front of a token. -/
def docOf (layout : Layout) (doc : Option Mark) : Option String :=
  doc.bind layout.doc

/-- The tokens as the grammar sees them, behind a token that stopped at `last`. -/
def symbolsFrom (last : Option Nat) : List Token → List Symbol
  | [] => []
  | t :: rest => ⟨t.kind, t.text, last == some t.start⟩ :: symbolsFrom (some t.stop) rest

def symbols (layout : Layout) : List Symbol :=
  symbolsFrom none layout.tokens.toList

end Layout

end JavaSyntax
