import QueryMarkup.Text.Range

/-!
Lines and columns. Both count from one; a column counts characters. An offset
inside a character has the position of that character, and one past the end the
position of the end.
-/
namespace QueryMarkup.Text

/-- A place in a text, ordered by line and then by column. -/
structure Position where
  line : Nat
  column : Nat
  deriving DecidableEq

/-- The place reached after reading `before`. -/
def Position.after (before : List Char) : Position where
  line := before.count '\n' + 1
  column := (before.reverse.takeWhile (· ≠ '\n')).length + 1

def positionOf (source : String) (offset : Nat) : Position :=
  Position.after (fitting source.toList offset)

end QueryMarkup.Text
