import QueryMarkup.Diagnostic.Compact
import QueryMarkup.Diagnostic.Snippet

/-!
Diagnostics as text for a reader: drawn into the source where there is one, or
one line each.
-/
namespace QueryMarkup.Diagnostics

/-- How diagnostics are printed. -/
structure Printer where
  /-- The text that the ranges point into. -/
  source : Option String := none
  /-- The name of the text. -/
  path : Option String := none
  colored : Bool := false
  /-- One line for each diagnostic. -/
  compact : Bool := false

def Printer.print (printer : Printer) (ds : List Diagnostic) : String :=
  match printer.source, printer.compact with
  | some source, false =>
    "\n".intercalate (ds.map fun d => (d.draw source printer.path).write printer.colored)
  | source, _ => String.join (ds.map fun d => d.compactLine source printer.path)

end QueryMarkup.Diagnostics
