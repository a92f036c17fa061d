import QueryMarkup.Diagnostic.Kind
import QueryMarkup.Text.Range

/-!
A diagnostic is a finding with its place in the text, its message, and hints and
a fix for the reader.
-/
namespace QueryMarkup

/-- A change of the text that would mend a finding. -/
structure Fix where
  replacement : String
  description : String
  deriving DecidableEq

structure Diagnostic where
  kind : DiagnosticKind
  range : Text.Range
  message : String
  fix : Option Fix := none
  hints : List String := []
  deriving DecidableEq

/-- A diagnostic as an editor shows it. -/
structure Marker where
  start : Nat
  stop : Nat
  severity : Severity
  message : String
  deriving DecidableEq

namespace Diagnostic

/-- A finding with a final message and the hint of its kind. -/
def new (kind : DiagnosticKind) (range : Text.Range) (message : String) : Diagnostic :=
  { kind, range, message, hints := kind.hint?.toList }

/-- A finding with the message of its kind, around a detail if one is given. -/
def report (kind : DiagnosticKind) (range : Text.Range) (detail : Option String := none) :
    Diagnostic :=
  new kind range (kind.message detail)

def severity (d : Diagnostic) : Severity := d.kind.severity

def isError (d : Diagnostic) : Bool := d.severity == .error

def isWarning (d : Diagnostic) : Bool := d.severity == .warning

def withHint (d : Diagnostic) (hint : String) : Diagnostic := { d with hints := d.hints ++ [hint] }

def withFix (d : Diagnostic) (fix : Fix) : Diagnostic := { d with fix := some fix }

def marker (d : Diagnostic) : Marker := ⟨d.range.start, d.range.stop, d.severity, d.message⟩

/-- The diagnostic on one line, with offsets for its place. -/
def line (d : Diagnostic) : String :=
  let fix := (d.fix.map fun f => s!" (fix: {f.description})").getD ""
  let hints := String.join (d.hints.map fun h => s!" (hint: {h})")
  s!"{d.severity.name} at {d.range.start}..{d.range.stop}: {d.message}" ++ fix ++ hints

end Diagnostic

end QueryMarkup
