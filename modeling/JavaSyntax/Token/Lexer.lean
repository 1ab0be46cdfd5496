import JavaSyntax.Source.Text
import JavaSyntax.Token.DocText
import JavaSyntax.Token.Enclosed
import JavaSyntax.Token.Numeral

/-!
Lexing. A text is cut into pieces: blanks, comments, documentation comments, tokens and flawed
texts. `piece` finds the piece at the start of a text and `lex` collects the tokens and the flawed
texts with their offsets.
-/

namespace JavaSyntax

/-- A token with its byte offsets and the documentation comment in front of it. -/
structure Token where
  kind : Kind
  text : String
  start : Nat
  stop : Nat
  doc : Option String
deriving DecidableEq

/-- A text that is no token, with its byte offsets. -/
structure FlawedText where
  flaw : Flaw
  text : String
  start : Nat
  stop : Nat
deriving DecidableEq

inductive Item where
  | token (token : Token)
  | flawed (text : FlawedText)
deriving DecidableEq

namespace Lexer

inductive Piece where
  | blank
  | comment
  | doc (body : List Char)
  | token (kind : Kind)
  | flaw (flaw : Flaw)
deriving DecidableEq

/-- Characters that may stand anywhere between tokens. -/
def isSkipped (c : Char) : Bool :=
  c == ' ' || c == '\t' || c == '\r' || c == '\n' || c == '\x0c' || c == '\uFEFF' || c == '\x1A'

/-- Whether a character right after a reserved word makes the word an identifier. Characters past
ASCII do, apart from three stretches of private and unassigned code points. -/
def unreserves (c : Char) : Bool :=
  128 ≤ c.toNat && !Unicode.inRanges [(0xE000, 0xEFFF), (0x40000, 0xBFFFF), (0x100000, 0x10FFFF)] c

/-- The kind of a word, given what follows it. -/
def wordKind (word rest : List Char) : Kind :=
  match Kind.keywords.find? fun k => k.spelling == String.ofList word with
  | some k => if rest.head?.any unreserves then .identifier else k
  | none => .identifier

def word (cs : List Char) : Piece × Nat :=
  let n := Numeral.run Unicode.isIdentifierPart cs
  (.token (wordKind (cs.take n) (cs.drop n)), n)

def number (cs : List Char) : Piece × Nat :=
  match Numeral.read cs with
  | .number kind n => (.token kind, n)
  | .broken n => (.flaw .illegalChar, n)

/-- A text block, after its three opening quotes. -/
def textBlock (cs : List Char) : Piece × Nat :=
  if Enclosed.opensBlock cs then
    match Enclosed.block 3 cs with
    | (n, true) => (.token .textBlockLit, n)
    | (n, false) => (.flaw .unclosedTextBlock, n)
  else (.flaw .textBlockOpen, 3 + Enclosed.line cs)

/-- A string literal, after its opening quote. -/
def string (cs : List Char) : Piece × Nat :=
  match Enclosed.quoted '"' 1 cs with
  | (n, true) => (.token .stringLit, n)
  | (n, false) => (.flaw .unclosedString, n)

/-- A character literal, after its opening quote. -/
def character (cs : List Char) : Piece × Nat :=
  if cs.head? = some '\'' then (.flaw .emptyChar, 2)
  else
    match Enclosed.quoted '\'' 1 cs with
    | (n, true) => (.token .charLit, n)
    | (n, false) => (.flaw .unclosedChar, n)

/-- A comment, after its two opening characters. A second star opens a documentation comment unless
the comment closes right after it. -/
def comment (cs : List Char) : Piece × Nat :=
  match cs with
  | '*' :: '/' :: _ => (.comment, 4)
  | '*' :: body =>
    match Enclosed.comment 3 body with
    | some n => (.doc (body.take (n - 5)), n)
    | none => (.flaw .unclosedComment, 2 + cs.length)
  | _ =>
    match Enclosed.comment 2 cs with
    | some n => (.comment, n)
    | none => (.flaw .unclosedComment, 2 + cs.length)

/-- The longest operator or separator at the start of the text. -/
def operator (cs : List Char) : Piece × Nat :=
  match Kind.operators.find? fun k => k.spelling.toList.isPrefixOf cs with
  | some k => (.token k, k.spelling.length)
  | none => (.flaw .illegalChar, 1)

/-- The piece at the start of a text that is not empty, and its length in characters. -/
def piece (c : Char) (cs : List Char) : Piece × Nat :=
  if isSkipped c then (.blank, 1)
  else if Unicode.isIdentifierStart c then word (c :: cs)
  else if c.isDigit then number (c :: cs)
  else
    match c, cs with
    | '"', '"' :: '"' :: rest => textBlock rest
    | '"', _ => string cs
    | '\'', _ => character cs
    | '/', '/' :: rest => (.comment, 2 + Enclosed.line rest)
    | '/', '*' :: rest => comment rest
    | '.', d :: _ =>
      if d.isDigit then (.token .floatingLit, Numeral.fraction (c :: cs)) else operator (c :: cs)
    | _, _ => operator (c :: cs)

/-- What finds the piece at the start of a text that is not empty, and its length in characters. -/
abbrev Cutter : Type := Char → List Char → Piece × Nat

/-- The items of a text that starts at a byte offset, as a cutter finds them, with the documentation
comment that waits for its token. A flawed text leaves the comment waiting, a later comment takes
its place. The fuel is the length of the text. -/
def items (next : Cutter) (keepDocs : Bool) : Nat → Nat → Option String → List Char → List Item
  | 0, _, _, _ => []
  | _ + 1, _, _, [] => []
  | fuel + 1, start, waiting, c :: cs =>
    let (found, n) := next c cs
    let text := (c :: cs).take n
    let rest := (c :: cs).drop n
    let stop := start + byteLength text
    match found with
    | .blank | .comment => items next keepDocs fuel stop waiting rest
    | .doc body =>
      items next keepDocs fuel stop (if keepDocs then some (DocText.ofBody body) else waiting) rest
    | .token kind =>
      .token ⟨kind, String.ofList text, start, stop, waiting⟩ ::
        items next keepDocs fuel stop none rest
    | .flaw flaw =>
      .flawed ⟨flaw, String.ofList text, start, stop⟩ ::
        items next keepDocs fuel stop waiting rest

end Lexer

/-- The tokens and flawed texts of a text, in order, as a cutter finds them. -/
def lexBy (next : Lexer.Cutter) (keepDocs : Bool) (text : String) : List Item :=
  Lexer.items next keepDocs text.toList.length 0 none text.toList

/-- The tokens and flawed texts of a text, in order. -/
def lex (keepDocs : Bool) (text : String) : List Item :=
  lexBy Lexer.piece keepDocs text

namespace Item

def token? : Item → Option Token
  | .token t => some t
  | .flawed _ => none

def flawed? : Item → Option FlawedText
  | .token _ => none
  | .flawed t => some t

end Item

end JavaSyntax
