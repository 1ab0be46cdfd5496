import JavaSyntax.Unicode.Letter
import JavaSyntax.Unicode.Extender
import JavaSyntax.Unicode.Class
import JavaSyntax.Source.Location
import JavaSyntax.Source.Text
import JavaSyntax.Number.Binary
import JavaSyntax.Number.Decimal
import JavaSyntax.Number.Shortest
import JavaSyntax.Diagnostic.Code
import JavaSyntax.Diagnostic.Basic
import JavaSyntax.Diagnostic.Budget
import JavaSyntax.Settings
import JavaSyntax.Token.Kind
import JavaSyntax.Token.Flaw
import JavaSyntax.Token.DocText
import JavaSyntax.Token.Enclosed
import JavaSyntax.Token.Numeral
import JavaSyntax.Token.Lexer
import JavaSyntax.Token.Pattern
import JavaSyntax.Literal.Basic
import JavaSyntax.Literal.Number
import JavaSyntax.Literal.Quoted
import JavaSyntax.Tree.Extent
import JavaSyntax.Tree.Operator
import JavaSyntax.Tree.Basic
import JavaSyntax.Tree.Kind
import JavaSyntax.Tree.Printer
import JavaSyntax.Grammar.Symbol
import JavaSyntax.Grammar.Fault
import JavaSyntax.Grammar.Rule
import JavaSyntax.Grammar.Types
import JavaSyntax.Grammar.Expressions
import JavaSyntax.Grammar.Statements
import JavaSyntax.Grammar.Declarations
import JavaSyntax.Parse.Layout
import JavaSyntax.Parse.State
import JavaSyntax.Parse.Run
import JavaSyntax.Parse.Session
import JavaSyntax.Parse.Job
import JavaSyntax.Fragment.Leading
import JavaSyntax.Fragment.Shape
import JavaSyntax.Fragment.Basic
import JavaSyntax.Files
import JavaSyntax.CommandLine
import JavaSyntax.Main
import JavaSyntax.Proofs.Measuring
import JavaSyntax.Proofs.Separating
import JavaSyntax.Proofs.Pieces
import JavaSyntax.Proofs.Cutting
import JavaSyntax.Proofs.Numerals
import JavaSyntax.Proofs.Quoting
import JavaSyntax.Proofs.Refusals
import JavaSyntax.Proofs.Matching
import JavaSyntax.Proofs.Erasure
import JavaSyntax.Proofs.Structure
import JavaSyntax.Proofs.Invariant
import JavaSyntax.Proofs.Contract
import JavaSyntax.Proofs.Reporting
import JavaSyntax.Proofs.Progress
import JavaSyntax.Proofs.RuleProgress
import JavaSyntax.Proofs.Termination
import JavaSyntax.Proofs.Evaluation
import JavaSyntax.Proofs.Truncation
import JavaSyntax.Proofs.Spent
import JavaSyntax.Proofs.Edges
import JavaSyntax.Proofs.Steps
import JavaSyntax.Proofs.Places
import JavaSyntax.Proofs.Buffer
import JavaSyntax.Proofs.Spelling
import JavaSyntax.Proofs.Reading
import JavaSyntax.Proofs.Soundness
import JavaSyntax.Proofs.Completeness
import JavaSyntax.Proofs.Printing
import JavaSyntax.Proofs.RoundTrip
import JavaSyntax.Proofs.Precedence
import JavaSyntax.Proofs.PrintedLiterals
import JavaSyntax.Proofs.Lexing
import JavaSyntax.Proofs.Reads
import JavaSyntax.Proofs.ReadContract
import JavaSyntax.Proofs.ReadTypes
import JavaSyntax.Proofs.ReadExpressions
import JavaSyntax.Proofs.ReadStatements
import JavaSyntax.Proofs.ReadDeclarations
import JavaSyntax.Proofs.ReadUnits
import JavaSyntax.Proofs.Offsets
import JavaSyntax.Proofs.Rounds
import JavaSyntax.Proofs.WellFormed
import JavaSyntax.Proofs.Spans
import JavaSyntax.Proofs.Dangling
import JavaSyntax.Proofs.Coverage
import JavaSyntax.Proofs.Verdict
import JavaSyntax.Proofs.Tiling
import JavaSyntax.Proofs.Locating
import JavaSyntax.Proofs.LineIndex
import JavaSyntax.Proofs.Carets
import JavaSyntax.Proofs.Joining
import JavaSyntax.Proofs.LineBreaks
import JavaSyntax.Proofs.Clipping
import JavaSyntax.Proofs.Respacing
import JavaSyntax.Proofs.LongestMatch
import JavaSyntax.Proofs.NumberPatterns
import JavaSyntax.Proofs.Departures
import JavaSyntax.Proofs.Slicing
import JavaSyntax.Proofs.Lexemes
import JavaSyntax.Proofs.TextBlocks
import JavaSyntax.Proofs.Underscores
import JavaSyntax.Proofs.WholeNumbers
import JavaSyntax.Proofs.Culprits
import JavaSyntax.Proofs.Moving
import JavaSyntax.Proofs.Alongside
import JavaSyntax.Proofs.MoveTypes
import JavaSyntax.Proofs.MoveExpressions
import JavaSyntax.Proofs.MoveStatements
import JavaSyntax.Proofs.MoveDeclarations
import JavaSyntax.Proofs.Lookaheads
import JavaSyntax.Proofs.Openings
import JavaSyntax.Proofs.Brackets
import JavaSyntax.Proofs.Cleanly
import JavaSyntax.Proofs.Following
import JavaSyntax.Proofs.Closing
import JavaSyntax.Proofs.Appending
import JavaSyntax.Proofs.Composition
import JavaSyntax.Proofs.Relayout
import JavaSyntax.Proofs.OpenTypes
import JavaSyntax.Proofs.OpenExpressions
import JavaSyntax.Proofs.Leading
import JavaSyntax.Proofs.Headings
import JavaSyntax.Proofs.HeadTypes
import JavaSyntax.Proofs.HeadExpressions
import JavaSyntax.Proofs.HeadStatements
import JavaSyntax.Proofs.HeadDeclarations
import JavaSyntax.Proofs.Deprecation
import JavaSyntax.Proofs.Documentation
import JavaSyntax.Proofs.DocComments
import JavaSyntax.Proofs.TypeSpelling
import JavaSyntax.Proofs.TypeSoundness
import JavaSyntax.Proofs.TypeReading
import JavaSyntax.Proofs.TypeGrammar
import JavaSyntax.Proofs.Phrasing
import JavaSyntax.Proofs.TypePrinting
import JavaSyntax.Proofs.TypeStretches
import JavaSyntax.Proofs.TypeSpans
import JavaSyntax.Proofs.TypeScanning
import JavaSyntax.Proofs.Succeeding
import JavaSyntax.Proofs.LocalVariables
import JavaSyntax.Proofs.HeaderPrinting
import JavaSyntax.Proofs.HeaderReading
import JavaSyntax.Proofs.Frame
