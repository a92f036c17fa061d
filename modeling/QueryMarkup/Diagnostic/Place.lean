import QueryMarkup.Diagnostic.Basic
import QueryMarkup.Text.Line
import QueryMarkup.Text.Position
import QueryMarkup.Text.Width

/-!
Where a diagnostic is drawn: the line that its range starts in, and the parts of
the line before, under and after the marker. A marker stays within its line.
-/
namespace QueryMarkup.Diagnostic

structure Place where
  line : Text.Line
  /-- The character of the line where the marker starts, counted from zero. Behind the line
  break it counts one more than the line has. -/
  character : Nat
  before : List Char
  marked : List Char
  after : List Char
  /-- The number of the line that the range ends in. -/
  lastLine : Nat

/-- The bytes that are marked: within the text, and one byte when the range is empty. -/
def markedBytes (range : Text.Range) (limit : Nat) : Nat × Nat :=
  let start := min range.start limit
  let stop := min range.stop limit
  if start = stop then (start, min (start + 1) limit) else (start, stop)

namespace Place

def of (source : List Char) (range : Text.Range) : Place :=
  let (start, stop) := markedBytes range (Text.byteLength source)
  let line := Text.lineAt source start
  let before := Text.fitting line.content (start - line.start)
  let behind := Text.byteLength line.content < start - line.start
  let rest := line.content.drop before.length
  let marked := Text.fitting rest (stop - start)
  { line, before, marked
    character := before.length + if behind then 1 else 0
    after := rest.drop marked.length
    lastLine := (Text.fitting source stop).count '\n' + 1 }

def position (place : Place) : Text.Position := ⟨place.line.number, place.character + 1⟩

/-- The column where the marker starts. -/
def start (place : Place) : Nat := Text.width place.before

/-- The column where the marker ends. A marker takes a column at least. -/
def stop (place : Place) : Nat := place.start + max 1 (Text.width place.marked)

end Place

end QueryMarkup.Diagnostic
