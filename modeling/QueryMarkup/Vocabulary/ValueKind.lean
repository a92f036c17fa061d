import QueryMarkup.Text.Integer

/-!
What an attribute is declared to hold. Values are always strings; the declared
kind says which of them are accepted.
-/
namespace QueryMarkup

inductive ValueKind where
  | text
  | bool
  | number
  | choice (values : List String)
  deriving DecidableEq

namespace ValueKind

/-- Whether a non-empty value is of this kind. -/
def accepts : ValueKind → String → Bool
  | text, _ => true
  | bool, value => value == "true" || value == "false"
  | number, value => (Text.readSigned64 value.toList).isSome
  | choice values, value => values.contains value

/-- How messages name the kind. -/
def describe : ValueKind → String
  | text => "text"
  | bool => "`true` or `false`"
  | number => "an integer"
  | choice values => "one of " ++ ", ".intercalate (values.map fun v => s!"`{v}`")

end ValueKind

end QueryMarkup
