import JavaSyntax.Diagnostic.Basic
import JavaSyntax.Diagnostic.Budget
import JavaSyntax.Grammar.Rule
import JavaSyntax.Parse.Layout

/-!
The state of a parse and what each step of a rule does to it. Symbols are only ever taken from the
front, and diagnostics only ever added at the end.
-/

namespace JavaSyntax

/-- What stays the same during a parse. -/
structure Setting where
  layout : Layout
  /-- Whether to warn about items that only their documentation calls deprecated. -/
  deprecation : Bool

structure State where
  ahead : List Symbol
  index : Nat
  taken : Nat
  budget : Budget
  log : List Diagnostic

namespace State

def view (s : State) (inLabels : Bool) : View :=
  ⟨s.ahead, s.index, s.taken, !s.budget.halted, inLabels⟩

/-- Takes the next `n` symbols. -/
def advance (s : State) (n : Nat) : State :=
  if n = 0 then s
  else { s with ahead := s.ahead.drop n, index := s.index + min n s.ahead.length, taken := 0 }

/-- What is left of a symbol without its first angle bracket. -/
def afterAngle : Kind → Option Kind
  | .shr => some .greater
  | .ushr => some .shr
  | .greaterEqual => some .assign
  | .shrAssign => some .greaterEqual
  | .ushrAssign => some .shrAssign
  | _ => none

/-- Takes the first angle bracket of the next symbol and leaves the others. -/
def splitAngle (s : State) : State :=
  match s.ahead with
  | [] => s
  | t :: rest =>
    match afterAngle t.kind with
    | none => s
    | some kind => { s with ahead := ⟨kind, kind.spelling, false⟩ :: rest, taken := s.taken + 1 }

/-- What is logged once the limit of errors is reached. -/
def limitNote (span : Span) (name : String) : Diagnostic :=
  ⟨.note, .tooManyErrors, "too many errors; parsing stopped", span, name⟩

/-- Logs a fault between two offsets, if the budget admits it. -/
def record (s : State) (source : Source) (fault : Fault) (start stop : Nat) : State :=
  let span := source.spanOf start stop
  if s.budget.admits span.start.offset then
    let budget := s.budget.charge span.start.offset
    let found : Diagnostic := ⟨.error, fault.code, fault.message, span, source.name⟩
    let notes := if budget.hitLimit then [limitNote span source.name] else []
    { s with budget := budget, log := s.log ++ found :: notes }
  else s

def report (s : State) (layout : Layout) (error : SyntaxError) : State :=
  s.record layout.source error.fault (layout.offset error.extent.start)
    (layout.offset error.extent.stop)

/-- Whether a word occurs in a text. -/
def mentions (word : List Char) : List Char → Bool
  | [] => word.isEmpty
  | c :: cs => word.isPrefixOf (c :: cs) || mentions word cs

/-- Whether the documentation of a token calls its item deprecated. -/
def saysDeprecated (layout : Layout) (doc : Option Mark) : Bool :=
  (layout.docOf doc).any fun text => mentions "@deprecated".toList text.toList

/-- Warns about an item that only its documentation calls deprecated. -/
def deprecation (s : State) (setting : Setting) (doc : Option Mark) (name : Extent) : State :=
  if setting.deprecation && saysDeprecated setting.layout doc && !s.budget.halted then
    let warning : Diagnostic :=
      ⟨.warning, .missingDeprecated, "deprecated item is not annotated with @Deprecated",
        setting.layout.span name, setting.layout.source.name⟩
    { s with log := s.log ++ [warning] }
  else s

end State

end JavaSyntax
