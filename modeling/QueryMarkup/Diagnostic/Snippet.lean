import QueryMarkup.Diagnostic.Glyph
import QueryMarkup.Diagnostic.Patch
import QueryMarkup.Diagnostic.Row
import QueryMarkup.Diagnostic.Window

/-!
Diagnostics drawn into the text: the line they are about with a marker under it,
then hints, then the line before and after a fix. The margin at the left is as wide
as the longest line number, and a rule divides it from the text.
-/
namespace QueryMarkup.Diagnostic

/-- The columns that a drawing has. -/
def drawingWidth : Nat := 140

/-- The margin, the rule and a blank stand left of the text. -/
def textColumn (margin : Nat) : Nat := margin + 3

/-- A row with nothing but the rule. -/
def rule (margin : Nat) : Row := Row.blank (margin + 1) ++ Row.ofString "|" .gutter

/-- A line number, right in the margin. -/
def lineNumber (margin number : Nat) : Row :=
  let digits := (toString number).toList
  Row.ofChars (List.replicate (margin - digits.length) ' ' ++ digits) .gutter

/-- A line with its number, a sign beside it and what stands right of that. -/
def numbered (margin number : Nat) (sign : Row) (content : Row) : Row :=
  ((lineNumber margin number).put (margin + 1) sign).put (textColumn margin) content

/-- The text in rows behind a head, later lines below the first one. -/
def headed (head : Row) (text : List Char) (style : Style) : Drawing :=
  (text.splitOn '\n').mapIdx fun i part =>
    (if i = 0 then head else Row.blank head.length) ++ Row.ofChars part style

/-- The rows that name severity and message. -/
def titleRows (d : Diagnostic) : Drawing :=
  headed (Row.ofString d.severity.name (.severity d.severity) ++ Row.ofString ": " .emphasis)
    (drawn d.message.toList) .emphasis

/-- The row that names the text, the line and the column. -/
def locationRow (margin : Nat) (name : String) (position : Text.Position) : Row :=
  Row.blank margin ++ Row.ofString "--> " .gutter ++
    Row.ofString s!"{name}:{position.line}:{position.column}"

def hintRows (margin : Nat) (hint : String) : Drawing :=
  headed (Row.blank (margin + 1) ++ Row.ofString "= " .gutter ++ Row.ofString "help" .emphasis ++
    Row.ofString ": ") hint.toList .plain

/-! ## The marker -/

/-- The columns of the blanks that a line starts with. An empty line has none. -/
def indentOf (line : List Char) : Nat :=
  if Text.isAllBlank line then 0
  else
    let blanks := line.takeWhile Text.isBlank
    blanks.length + 3 * blanks.count '\t'

/-- The columns of a line and of the marker under it with its label. -/
def extentOf (place : Place) (message : String) : Extent :=
  { indent := indentOf place.line.content
    line := Text.width place.line.content
    marked := place.start
    unmarked := place.stop
    labelled := place.stop + Text.width message.toList + 1 }

/-- The part of a line in a window. What is cut off is marked within the window. -/
def cutLine (window : Window) (line : List Char) : Row :=
  let shown := Text.takeColumns (window.stop - window.start) (Text.dropColumns window.start line)
  let row := Row.ofChars shown
  let row := if window.start = 0 then row else row.put 0 Row.ellipsis
  if Text.width line ≤ window.stop then row
  else row.put (shown.length - Row.ellipsis.length) Row.ellipsis

/-- The line of the text, and under it the marker with the message. Of a marker that would
take more than two drawings the middle is left out. -/
def markedRows (margin : Nat) (place : Place) (d : Diagnostic) : Drawing :=
  let room := drawingWidth - textColumn margin
  let window := Window.of room (extentOf place d.message)
  let start := textColumn margin + (place.start - window.start)
  let stop := textColumn margin + (place.stop - window.start)
  let style := Style.severity d.severity
  let line := numbered margin place.line.number (Row.ofString "|" .gutter)
    (cutLine window (drawn place.line.content))
  let marks := Row.ofChars (List.replicate (stop - start) '^') style
  let marker := ((rule margin).put start marks).put (stop + 1) (Row.ofString d.message style)
  if 2 * room < stop - start then
    let kept := room / 3
    [line, marker].map fun row => row.elide (start + kept) (stop - kept)
  else [line, marker]

/-! ## The fix -/

/-- The column of a character of a drawn line. -/
def drawnColumn (line : List Char) (character : Nat) : Nat :=
  character + 3 * (line.take character).count '\t'

/-- Shows a part of a drawn line as new. -/
def markNew (margin : Nat) (line : List Char) (part : Nat × Nat) (row : Row) : Row :=
  if part.1 = part.2 then row
  else
    row.restyle (textColumn margin + drawnColumn line part.1)
      (textColumn margin + drawnColumn line part.2) .addition

/-- A line after a fix, with a sign at the side. -/
def patchedRow (margin number : Nat) (sign : Row) (line : List Char) (part : Nat × Nat) : Row :=
  markNew margin line part (numbered margin number sign (Row.ofChars (drawn line)))

/-- The row of a line that goes. -/
def removedRow (margin : Nat) (p : Patch) : Row :=
  numbered margin p.line.number (Row.ofString "- " .removal) (Row.ofChars (drawn p.line.content))

/-- What was there is marked as removed, over as many columns as it has bytes when drawn. -/
def markRemoved (margin : Nat) (p : Patch) (row : Row) : Row :=
  let start := textColumn margin + Text.width p.before
  row.restyle start (start + Text.byteLength (drawn p.removed)) .removal

/-- The line before a fix and the one after it, if that is not blank. -/
def comparisonRows (margin : Nat) (p : Patch) (line : List Char) (part : Nat × Nat) : Drawing :=
  let old := removedRow margin p
  if Text.isAllBlank line then [markRemoved margin p (markNew margin line part old)]
  else
    [markRemoved margin p old,
      patchedRow margin p.line.number (Row.ofString "+ " .addition) line part]

/-- Signs under what a fix puts in: what replaces something has another one than what is only
added. Blanks around a text have none. -/
def underlineRow (margin : Nat) (p : Patch) : Row :=
  let blank := Text.isAllBlank p.inserted
  let core := if blank then p.inserted else Text.trim p.inserted
  let lead := if blank then 0
    else Text.byteLength p.inserted - Text.byteLength (Text.trimStart p.inserted)
  let sign := if p.removesText then '~' else '+'
  let signs := if p.removed = p.inserted then [] else List.replicate (Text.width core) sign
  (rule margin).put (textColumn margin + Text.width p.before + lead) (Row.ofChars signs .addition)

/-- The sign of one of several lines: a line that is new from its first to its last character
has another one than a line that is new in part. -/
def lineSign (line : List Char) (part : Nat × Nat) : Row :=
  if part = (0, Text.byteLength line) then Row.ofString "+ " .addition
  else if part = (0, 0) then Row.ofString "|" .gutter
  else Row.ofString "~ " .addition

/-- The rows that show what a fix does. -/
def patchRows (margin : Nat) (p : Patch) : Drawing :=
  let number := p.line.number
  let bar := Row.ofString "| " .gutter
  match p.lines.zip p.newParts with
  | [] =>
    let gone := numbered margin number (Row.ofString "- " .removal)
      (Row.ofChars (drawn p.line.content) .removal)
    if p.view = .comparison then [rule margin, gone, rule margin] else [gone, rule margin]
  | [(line, part)] =>
    rule margin :: match p.view with
      | .comparison => comparisonRows margin p line part ++ [rule margin]
      | .newLines =>
        [patchedRow margin number (Row.ofString "+ " .addition) line part, rule margin]
      | .underlined => [patchedRow margin number bar line part, underlineRow margin p]
      | .result => [patchedRow margin number bar line part, rule margin]
  | several =>
    rule margin :: several.mapIdx (fun i (line, part) =>
      patchedRow margin (number + i) (lineSign line part) line part) ++ [rule margin]

/-- The description of a fix and what it does. -/
def fixRows (margin : Nat) (p : Patch) (description : String) : Drawing :=
  headed (Row.ofString "help" .help ++ Row.ofString ": ") description.toList .plain ++
    patchRows margin p

/-! ## The drawing -/

/-- The drawing of a diagnostic. -/
def draw (source : String) (path : Option String) (d : Diagnostic) : Drawing :=
  let place := Place.of source.toList d.range
  let patch := d.fix.map fun fix => (Patch.of place fix.replacement.toList, fix.description)
  let patched := (patch.map fun (p, _) => p.lastLine).getD 0
  let margin := (toString (max place.lastLine patched)).length
  let location := path.toList.map fun name => locationRow margin name place.position
  let hints := d.hints.flatMap (hintRows margin)
  let marked := titleRows d ++ location ++ rule margin :: markedRows margin place d
  let explained := if hints.isEmpty then marked else marked ++ rule margin :: hints
  match patch with
  | none => explained
  | some (p, description) =>
    let separated := if hints.isEmpty then explained ++ [rule margin] else explained
    separated ++ fixRows margin p description

end QueryMarkup.Diagnostic
