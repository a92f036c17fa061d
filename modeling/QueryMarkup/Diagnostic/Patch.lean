import QueryMarkup.Diagnostic.Place
import QueryMarkup.Text.Blank

/-!
A fix as a change of one line: what stays before it, what goes, what comes in its
place and what stays after it. What the old and the new text share is taken to
stay where it is, so that a fix that only adds something is seen as an addition.
-/
namespace QueryMarkup.Diagnostic

structure Patch where
  /-- The line that changes. -/
  line : Text.Line
  /-- The character of the line where the change starts, counted from zero. -/
  character : Nat
  before : List Char
  removed : List Char
  inserted : List Char
  after : List Char

/-- How a fix is shown. -/
inductive PatchView where
  /-- The line before and the line after. -/
  | comparison
  /-- Whole lines that are put in. -/
  | newLines
  /-- The new line with signs under what is new. -/
  | underlined
  /-- The new text alone. -/
  | result
  deriving DecidableEq

/-- What has to be put into an old text to get a new one: the part that stays in front of it,
and what is put in. It is put behind the old text if it can be, or else before it, or else
as far inside as the two agree. -/
def insertion? (old new : List Char) : Option (List Char × List Char) :=
  let shared := ((old.zip new).takeWhile fun (a, b) => a == b).length
  let kept := if shared < old.length ∧ old.isSuffixOf new then 0 else shared
  if (old.drop kept).isSuffixOf (new.drop kept) then
    some (old.take kept, (new.drop kept).take (new.length - old.length))
  else none

/-- The text without the line breaks at its end. -/
def dropLastBreaks (cs : List Char) : List Char := (cs.reverse.dropWhile (· = '\n')).reverse

namespace Patch

def of (place : Place) (replacement : List Char) : Patch :=
  match insertion? place.marked replacement with
  | some (kept, added) =>
    { line := place.line, character := place.character + kept.length
      before := place.before ++ kept, removed := [], inserted := added
      after := place.marked.drop kept.length ++ place.after }
  | none =>
    { line := place.line, character := place.character
      before := place.before, removed := place.marked, inserted := replacement
      after := place.after }

/-- The text in place of the line. When what is put in ends a line, the rest is not shown. -/
def text (p : Patch) : List Char :=
  let rest := if p.inserted.getLast? = some '\n' then [] else p.after
  dropLastBreaks (p.before ++ p.inserted ++ rest)

/-- The lines in place of the line. A carriage return before a line break belongs to it. -/
def lines (p : Patch) : List (List Char) :=
  if p.text.isEmpty then []
  else
    let parts := p.text.splitOn '\n'
    parts.mapIdx fun i part =>
      if i + 1 < parts.length ∧ part.getLast? = some '\r' then part.dropLast else part

def isMultiline (p : Patch) : Bool := 1 < p.lines.length

/-- Something else than blanks goes. -/
def removesText (p : Patch) : Bool := !Text.isAllBlank p.removed

/-- Something else than blanks goes, and is not found again in what comes. -/
def losesText (p : Patch) : Bool :=
  p.removesText &&
    (Text.isAllBlank p.inserted ||
      (insertion? (Text.trim p.removed) (Text.trim p.inserted)).isNone)

def view (p : Patch) : PatchView :=
  let whole := Text.trim p.inserted = Text.trim p.text
  if p.losesText ∧ ¬p.isMultiline then .comparison
  else if p.inserted.getLast? = some '\n' ∧ whole then .newLines
  else if ¬whole ∧ ¬p.isMultiline then .underlined
  else .result

/-- The number of the last line that is shown. -/
def lastLine (p : Patch) : Nat :=
  match p.view with
  | .comparison | .underlined => p.line.number
  | .newLines | .result => p.line.number + p.text.count '\n'

/-- The characters that are new in each line, from the first one up to the second. A tab
counts as four. -/
def newParts (p : Patch) : List (Nat × Nat) :=
  (p.inserted.splitOn '\n').mapIdx fun i part =>
    let start := if i = 0 then p.character else 0
    (start, start + part.length + 3 * part.count '\t')

end Patch

end QueryMarkup.Diagnostic
