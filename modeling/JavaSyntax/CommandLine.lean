import JavaSyntax.Files
import JavaSyntax.Tree.Printer

/-!
The command line. Results go to standard output and reports to standard error; the exit code is zero
if there was no error.
-/

namespace JavaSyntax

inductive Command where
  | parse (paths : List String) (showTree : Bool)
  | expression (text : String)
  | typeUse (text : String)
  | declaration (text : String)
  | lex (path : String) (locations : Bool)
  | check (path : String)
deriving DecidableEq

/-- A command and whether parsing stops at the first error. -/
structure Invocation where
  command : Command
  noRecovery : Bool
deriving DecidableEq

namespace Invocation

/-- Options and operands apart; what follows `--` is an operand. -/
def sort : List String → List String × List String
  | [] => ([], [])
  | arg :: rest =>
    if arg = "--" then ([], rest)
    else
      let (options, operands) := sort rest
      if arg.startsWith "-" && arg != "-" then (arg :: options, operands)
      else (options, arg :: operands)

def command? (options : List String) : List String → Option Command
  | "parse" :: path :: paths =>
    some (.parse (path :: paths) (options.contains "-t" || options.contains "--tree"))
  | ["expr", text] => some (.expression text)
  | ["type-use", text] => some (.typeUse text)
  | ["decl", text] => some (.declaration text)
  | ["lex", path] => some (.lex path (options.contains "-l" || options.contains "--locations"))
  | ["check", path] => some (.check path)
  | _ => none

/-- The options that a command knows. -/
def optionsOf : Command → List String
  | .parse _ _ => ["--no-recovery", "-t", "--tree"]
  | .lex _ _ => ["--no-recovery", "-l", "--locations"]
  | _ => ["--no-recovery"]

def ofArguments? (args : List String) : Option Invocation :=
  let (options, operands) := sort args
  match command? options operands with
  | some command =>
    if options.all (optionsOf command).contains then
      some ⟨command, options.contains "--no-recovery"⟩
    else none
  | none => none

end Invocation

/-- What a run leaves behind. -/
structure Output where
  out : String
  err : String
  code : Nat
deriving DecidableEq

namespace Output

def line (text : String) : Output := ⟨text ++ "\n", "", 0⟩

def complaint (text : String) : Output := ⟨"", text ++ "\n", 1⟩

/-- One run after another. -/
def append (a b : Output) : Output :=
  ⟨a.out ++ b.out, a.err ++ b.err, max a.code b.code⟩

instance : Append Output := ⟨append⟩

def nothing : Output := ⟨"", "", 0⟩

def all (outputs : List Output) : Output :=
  outputs.foldl append nothing

/-- A run that could not go on, with the cause if there is one below it. -/
def failed (message : String) (cause : Option ReadError) : Output :=
  let below := cause.elim "" fun c => s!"\n\nCaused by:\n    {c.message}"
  complaint (s!"Error: {message}" ++ below)

def ofFailure (failure : Failure) : Output :=
  failed failure.message <|
    match failure with
    | .unreadable _ cause => some cause
    | _ => none

/-- The diagnostics of a parse; only errors make the run fail. -/
def report {α : Type} (p : Parsed α) : Output :=
  ⟨"", if p.diagnostics.isEmpty then "" else p.rendered ++ "\n", if p.hasError then 1 else 0⟩

end Output

namespace Command

/-- A tree and its diagnostics. -/
def display {α : Type} (print : α → String) : Except Failure (Parsed α) → Output
  | .error failure => .ofFailure failure
  | .ok parsed => .line (print parsed.tree) ++ .report parsed

/-- Parses files in turn; one that cannot be read ends the run. -/
def parseAll {m : Type → Type} [Monad m] (disk : Disk m) (settings : Settings) (showTree : Bool) :
    List String → m Output
  | [] => return .nothing
  | path :: rest => do
    match Fragment.file settings path (← disk.read path) with
    | .error failure => return .ofFailure failure
    | .ok parsed =>
      let tree := if showTree then Output.line parsed.tree.print else .nothing
      return tree ++ .report parsed ++ (← parseAll disk settings showTree rest)

/-- Parses files and counts them and those with errors. -/
def checkAll {m : Type → Type} [Monad m] (disk : Disk m) (settings : Settings)
    (total failed : Nat) : List String → m Output
  | [] => return .line s!"Parsed {total} Java files, {failed} with errors"
  | path :: rest => do
    match Fragment.file settings path (← disk.read path) with
    | .error failure => return .ofFailure failure
    | .ok parsed =>
      let failed := if parsed.hasError then failed + 1 else failed
      return .report parsed ++ (← checkAll disk settings (total + 1) failed rest)

def tokenLine (source : Source) (locations : Bool) (t : Token) : Output :=
  if locations then
    .line s!"{t.kind.label} '{t.text}' at {(source.locationAt t.start).display}"
  else .line s!"{t.kind.label}: '{t.text}'"

def flawLine (source : Source) (t : FlawedText) : Output :=
  .complaint s!"{source.name}:{(source.locationAt t.start).display}: error: {t.flaw.message t.text}"

/-- Lists the tokens of a text, then its flaws. -/
def tokens (locations : Bool) (path : String) : Except ReadError String → Output
  | .error cause => .failed s!"cannot read {path}" (some cause)
  | .ok text =>
    let source := Source.ofText path text
    let items := JavaSyntax.lex true text
    .all ((items.filterMap Item.token?).map (tokenLine source locations)) ++
      .all ((items.filterMap Item.flawed?).map (flawLine source))

def run {m : Type → Type} [Monad m] (disk : Disk m) (settings : Settings) : Command → m Output
  | .parse paths showTree => parseAll disk settings showTree paths
  | .expression text => return display (Tree.print · 0) (Fragment.expression settings text)
  | .typeUse text => return display (Tree.print · 0) (Fragment.typeUse settings text)
  | .declaration text => return display (Tree.print · 0) (Fragment.declaration settings text)
  | .lex path locations => return tokens locations path (← disk.read path)
  | .check path => do
    let paths ← disk.filesUnder path
    checkAll disk settings 0 0 (paths.filter fun p => Path.extension? p == some "java")

end Command

def usage : String :=
  "usage: [--no-recovery] parse [-t] FILE... | expr TEXT | type-use TEXT | decl TEXT | " ++
    "lex [-l] FILE | check PATH"

/-- Runs the command line with the values of environment variables. The command line alone says
whether parsing goes on after an error. -/
def commandLine {m : Type → Type} [Monad m] (disk : Disk m) (environment : String → Option String)
    (args : List String) : m Output :=
  match Invocation.ofArguments? args with
  | some invocation =>
    let settings := { Settings.ofEnvironment environment with recover := !invocation.noRecovery }
    invocation.command.run disk settings
  | none =>
    return ⟨"", usage ++ "\n", 2⟩

end JavaSyntax
