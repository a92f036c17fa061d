/-!
Which columns of a long line are drawn. A line that fits is drawn whole, except
that a deep indentation is shortened. Of a longer line the window shows, in order
of preference, everything from its first character up to the end of the label,
the marker with its label, or the marker alone.
-/
namespace QueryMarkup.Diagnostic

/-- The columns that matter for a line: its indentation, its end, where the marker starts
and ends, and where the label ends. -/
structure Extent where
  indent : Nat
  line : Nat
  marked : Nat
  unmarked : Nat
  labelled : Nat

/-- The columns from `start` up to `stop`. -/
structure Window where
  start : Nat
  stop : Nat
  deriving DecidableEq

namespace Window

/-- Columns kept free around what must be seen. -/
def clearance : Nat := 6

/-- Indentation beyond this many columns is shortened. -/
def deepIndent : Nat := 20

/-- How far a deep indentation reaches into the window. -/
def keptIndent : Nat := 16

/-- The window of a line in a drawing with room for `width` columns. Blanks under the marker
are no indentation. -/
def of (width : Nat) (e : Extent) : Window :=
  let indent := min e.indent e.marked - clearance
  let first := e.marked - clearance
  let last := e.unmarked + clearance
  let label := e.labelled + clearance
  let start := if deepIndent < indent then indent - keptIndent else 0
  let window : Window :=
    if max e.line start - start ≤ width then ⟨start, max e.line start⟩
    else if label - indent ≤ width then ⟨indent, indent + width⟩
    else if label - first ≤ width then
      let start := first - (width - (label - first)) / 2
      ⟨start, start + width⟩
    else if last - first ≤ width then
      let start := first - (width - (last - first)) / 5 * 2
      ⟨start, start + width⟩
    else ⟨first, last⟩
  if e.line - window.start ≤ width then { window with stop := e.line } else window

end Window

end QueryMarkup.Diagnostic
