import QueryMarkup.Diagnostic.Kind

/-!
A row of a drawing: characters with the style of each. Characters are put on a
row at a column, styles over a range of columns. A row is written plainly or with
terminal colours, one switch for each run of one style.
-/
namespace QueryMarkup.Diagnostic

/-- How a character of a drawing looks. -/
inductive Style where
  | plain
  /-- The colour of a severity. -/
  | severity (severity : Severity)
  | emphasis
  /-- Line numbers and rules at the side. -/
  | gutter
  | help
  | addition
  | removal
  deriving DecidableEq

/-- What switches a terminal to a style. -/
def Style.code : Style → String
  | plain => ""
  | severity .error => "\x1b[1m\x1b[91m"
  | severity .warning => "\x1b[1m\x1b[33m"
  | emphasis => "\x1b[1m"
  | gutter => "\x1b[1m\x1b[94m"
  | help => "\x1b[1m\x1b[96m"
  | addition => "\x1b[92m"
  | removal => "\x1b[91m"

structure Cell where
  char : Char := ' '
  style : Style := .plain
  deriving DecidableEq

abbrev Row := List Cell

abbrev Drawing := List Row

namespace Row

/-- Characters in one style. -/
def ofChars (cs : List Char) (style : Style := .plain) : Row := cs.map (⟨·, style⟩)

/-- A text in one style. -/
def ofString (text : String) (style : Style := .plain) : Row := ofChars text.toList style

def blank (n : Nat) : Row := List.replicate n {}

/-- Puts cells on a row from a column on, over what is there. Blanks fill the row up to it. -/
def put (row : Row) (column : Nat) (cells : Row) : Row :=
  if cells.isEmpty then row
  else row.take column ++ blank (column - row.length) ++ cells ++ row.drop (column + cells.length)

/-- Gives the cells from `start` up to `stop` a style. -/
def restyle (row : Row) (start stop : Nat) (style : Style) : Row :=
  row.mapIdx fun i cell => if start ≤ i ∧ i < stop then { cell with style } else cell

/-- What stands for the part of a line that is left out. -/
def ellipsis : Row := ofString "..." .gutter

/-- Leaves out the cells from `start` up to `stop`, if the row has them. -/
def elide (row : Row) (start stop : Nat) : Row :=
  if stop ≤ row.length then row.take start ++ ellipsis ++ row.drop stop else row

/-- A run of one style as it is written. The style is switched off after it. -/
def writeRun (colored : Bool) (run : Row) : String :=
  let text := String.ofList (run.map (·.char))
  match run.head?.map (·.style) with
  | some style => if colored ∧ style ≠ .plain then style.code ++ text ++ "\x1b[0m" else text
  | none => ""

def write (colored : Bool) (row : Row) : String :=
  String.join ((row.splitBy fun a b => a.style = b.style).map (writeRun colored))

end Row

def Drawing.write (colored : Bool) (drawing : Drawing) : String :=
  "\n".intercalate (drawing.map (Row.write colored))

end QueryMarkup.Diagnostic
