import QueryMarkup.Text.Range

/-!
The lines of a text. A line break ends a line, and a carriage return before it
belongs to it. The break at the end of a text starts no further line, but an empty
text has one line.
-/
namespace QueryMarkup.Text

/-- A line, counted from one, with the bytes from its first character to the end of its
line break. -/
structure Line where
  number : Nat := 1
  start : Nat := 0
  stop : Nat := 0
  content : List Char := []
  deriving DecidableEq

/-- The parts of a text between line breaks as lines, from a number and an offset on. -/
def linesFrom (number start : Nat) : List (List Char) → List Line
  | [] => []
  | [last] => if last.isEmpty then [] else [⟨number, start, start + byteLength last, last⟩]
  | part :: rest =>
    let stop := start + byteLength part + 1
    let content := if part.getLast? = some '\r' then part.dropLast else part
    ⟨number, start, stop, content⟩ :: linesFrom (number + 1) stop rest

def linesOf (source : List Char) : List Line := linesFrom 1 0 (source.splitOn '\n')

/-- The line that an offset is in. Past the end it is the last one. -/
def lineAt (source : List Char) (offset : Nat) : Line :=
  let lines := linesOf source
  ((lines.find? fun line => offset < line.stop) <|> lines.getLast?).getD {}

end QueryMarkup.Text
