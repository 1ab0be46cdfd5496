import JavaSyntax.Parse.Run
import JavaSyntax.Settings

/-!
A parse of one source. Starting a session lexes the text and reports its flaws; each entry point
then reads what is left, so that after the first one nothing is.
-/

namespace JavaSyntax

structure Session where
  setting : Setting
  state : State

namespace Session

/-- Reports flawed texts in order. -/
def reportFlaws (source : Source) (flawed : List FlawedText) (s : State) : State :=
  flawed.foldl (fun s t => s.record source (.lexical t.flaw t.text) t.start t.stop) s

def start (settings : Settings) (source : Source) : Session :=
  let items := lex settings.keepDocs source.text
  let layout := Layout.ofItems source items
  let budget := Budget.start settings.recover settings.maxErrors
  { setting := ⟨layout, settings.deprecation⟩
    state := reportFlaws source (items.filterMap Item.flawed?) ⟨layout.symbols, 0, 0, budget, []⟩ }

/-- Enough fuel for what is ahead: rules nest only so deep before one takes a symbol. -/
def fuel (s : State) : Nat :=
  16 * (s.ahead.length + 1)

/-- Runs an entry point; `spare` is the tree if its rule fails. -/
def enter {α : Type} (session : Session) (entry : Nonterminal α) (spare : α) : α × Session :=
  match run session.setting (fuel session.state) entry false session.state with
  | some (.ok tree, s) => (tree, { session with state := s })
  | _ => (spare, session)

def unit (session : Session) : CompilationUnit × Session :=
  session.enter (.items .empty) .empty

def expression (session : Session) : Tree .expr × Session :=
  session.enter .wholeExpr (.erroneousExpr (.point .eof))

def typeUse (session : Session) : Tree .expr × Session :=
  session.enter .wholeType (.erroneousExpr (.point .eof))

def layout (session : Session) : Layout :=
  session.setting.layout

def diagnostics (session : Session) : List Diagnostic :=
  session.state.log

/-- How many errors were reported. -/
def errorCount (session : Session) : Nat :=
  session.state.budget.count

end Session

end JavaSyntax
