import QueryMarkup.Diagnostic.Basic
import QueryMarkup.Text.Position

/-!
Diagnostics with one line each, for tools that read line by line.
-/
namespace QueryMarkup.Diagnostic

/-- The line of a diagnostic: its place as exactly as it is known, severity and message.
Without a text and a name for it, everything there is to say goes on the line. -/
def compactLine (source path : Option String) (d : Diagnostic) : String :=
  let name := (path.map (· ++ ":")).getD ""
  match source with
  | some text =>
    let position := Text.positionOf text d.range.start
    s!"{name}{position.line}:{position.column}: {d.severity.name}: {d.message}\n"
  | none =>
    if path.isSome then s!"{name}{d.range.start}: {d.severity.name}: {d.message}\n"
    else d.line ++ "\n"

end QueryMarkup.Diagnostic
