import QueryMarkup.Text.Range

/-!
Tokens of markup. A token is a kind and a byte range; its text is read from the
source when it is needed.
-/
namespace QueryMarkup

inductive TokenKind where
  /-- `<` -/
  | startTag
  /-- `</` -/
  | startCloseTag
  /-- The first name after `<` or `</`. -/
  | tagName
  | attributeName
  | equals
  /-- A quoted value with its quotes. -/
  | attributeValue
  /-- `>` -/
  | endTag
  /-- `/>` -/
  | selfCloseEndTag
  | text
  | whitespace
  | comment
  /-- A run of characters that fits no other token. -/
  | error
  deriving DecidableEq

/-- Tokens that carry no content. -/
def TokenKind.isTrivia (kind : TokenKind) : Bool := kind == whitespace || kind == comment

structure Token where
  kind : TokenKind
  span : Text.Range
  deriving DecidableEq

end QueryMarkup
