import JavaSyntax.Grammar.Declarations
import JavaSyntax.Parse.State

/-!
Running the grammar. `exec` runs one rule, given what a call of a nonterminal does; `run` ties the
knot, with fuel for the depth of calls.
-/

namespace JavaSyntax

/-- A value or a fault with the state behind it; nothing if the fuel ran out. -/
abbrev Outcome (α : Type) : Type := Option (Except SyntaxError α × State)

/-- What calling a nonterminal does. The flag says whether labels of a switch are being read. -/
abbrev Caller : Type 1 := {β : Type} → Nonterminal β → Bool → State → Outcome β

def exec (setting : Setting) (caller : Caller) (inLabels : Bool) {α : Type} :
    Rule α → State → Outcome α
  | .done value, s => some (.ok value, s)
  | .fail error, s => some (.error error, s)
  | .look rest, s => exec setting caller inLabels (rest (s.view inLabels)) s
  | .advance n rest, s => exec setting caller inLabels rest (s.advance n)
  | .splitAngle rest, s => exec setting caller inLabels rest s.splitAngle
  | .report error rest, s => exec setting caller inLabels rest (s.report setting.layout error)
  | .deprecation doc name rest, s =>
    exec setting caller inLabels rest (s.deprecation setting doc name)
  | .call nonterminal asLabels rest, s =>
    match caller nonterminal (inLabels || asLabels) s with
    | none => none
    | some (result, s) => exec setting caller inLabels (rest result) s

def run (setting : Setting) : Nat → {β : Type} → Nonterminal β → Bool → State → Outcome β
  | 0, _, _, _, _ => none
  | fuel + 1, _, nonterminal, inLabels, s =>
    exec setting (run setting fuel) inLabels (Grammar.rule nonterminal) s

end JavaSyntax
