import QueryMarkup.Markup.Token
import QueryMarkup.Text.Blank

/-!
Markup text to tokens. There are two contexts, the content of elements and the
inside of a tag. Every text has tokens: their lexemes, put together, are the
text, and what fits no token is covered by error tokens, never two in a row.
-/
namespace QueryMarkup.Markup

open Text

/-- Where the next token stands. -/
inductive Context where
  | content
  /-- Inside a tag; `nameNext` says that the next name is the tag's. -/
  | tag (nameNext : Bool)
  deriving DecidableEq

/-- A token before it has a place: its kind and its characters. -/
structure Lexeme where
  kind : TokenKind
  chars : List Char
  deriving DecidableEq

def isNameStart (c : Char) : Bool :=
  ('A' ≤ c && c ≤ 'Z') || ('a' ≤ c && c ≤ 'z') || c == '_' || c == ':'

def isNameChar (c : Char) : Bool :=
  isNameStart c || ('0' ≤ c && c ≤ '9') || c == '.' || c == '-'

/-- The blanks that may stand inside a tag. -/
def isTagBlank (c : Char) : Bool := c == ' ' || c == '\t' || c == '\r' || c == '\n'

/-- The length of a comment's remainder, after its `<!--`, up to and with its `-->`.
Two hyphens in a row end the comment or spoil it. -/
def commentTail : List Char → Option Nat
  | '-' :: '-' :: '>' :: _ => some 3
  | '-' :: '-' :: _ => none
  | '-' :: _ :: rest => (commentTail rest).map (· + 2)
  | '-' :: [] => none
  | _ :: rest => (commentTail rest).map (· + 1)
  | [] => none

/-- The length of the comment that starts the text, if one does. -/
def commentLength : List Char → Option Nat
  | '<' :: '!' :: '-' :: '-' :: rest => (commentTail rest).map (· + 4)
  | _ => none

/-- The length of the quoted value that starts the text with the quote `q`. A quote
that is never closed takes the rest of the text and is an error. -/
def quotedLength (q : Char) (rest : List Char) : TokenKind × Nat :=
  let inner := (rest.takeWhile (· ≠ q)).length
  if inner < rest.length then (.attributeValue, inner + 2) else (.error, inner + 1)

/-- Kind and length of the first token, and the context after it. -/
structure Step where
  kind : TokenKind
  length : Nat
  context : Context

/-- The first token of element content. -/
def contentStep (cs : List Char) : Step :=
  match cs with
  | '<' :: '/' :: _ => ⟨.startCloseTag, 2, .tag true⟩
  | '<' :: _ =>
    match commentLength cs with
    | some n => ⟨.comment, n, .content⟩
    | none => ⟨.startTag, 1, .tag true⟩
  | _ =>
    let run := cs.takeWhile (· ≠ '<')
    ⟨if isAllBlank run then .whitespace else .text, run.length, .content⟩

/-- The first token inside a tag. -/
def tagStep (nameNext : Bool) (cs : List Char) : Step :=
  match cs with
  | '>' :: _ => ⟨.endTag, 1, .content⟩
  | '/' :: '>' :: _ => ⟨.selfCloseEndTag, 2, .content⟩
  | '=' :: _ => ⟨.equals, 1, .tag false⟩
  | '<' :: '/' :: _ => ⟨.startCloseTag, 2, .tag true⟩
  | '<' :: _ => ⟨.startTag, 1, .tag true⟩
  | [] => ⟨.error, 0, .tag false⟩
  | c :: rest =>
    if c = '"' ∨ c = '\'' then
      let (kind, n) := quotedLength c rest
      ⟨kind, n, .tag false⟩
    else if isTagBlank c then
      ⟨.whitespace, (rest.takeWhile isTagBlank).length + 1, .tag nameNext⟩
    else if isNameStart c then
      ⟨if nameNext then .tagName else .attributeName,
        (rest.takeWhile isNameChar).length + 1, .tag false⟩
    else ⟨.error, 1, .tag false⟩

def step : Context → List Char → Step
  | .content, cs => contentStep cs
  | .tag nameNext, cs => tagStep nameNext cs

/-- Takes tokens off the text until it is empty. A token has at least one character. -/
def lexemesFrom (context : Context) (cs : List Char) : List Lexeme :=
  match cs with
  | [] => []
  | c :: rest =>
    let s := step context (c :: rest)
    ⟨s.kind, c :: rest.take (s.length - 1)⟩ :: lexemesFrom s.context (rest.drop (s.length - 1))
termination_by cs.length
decreasing_by
  simp only [List.length_drop, List.length_cons]
  omega

/-- Joins error lexemes that stand side by side. -/
def joinErrors : List Lexeme → List Lexeme
  | [] => []
  | a :: rest =>
    match joinErrors rest with
    | b :: more =>
      if a.kind = .error ∧ b.kind = .error then ⟨.error, a.chars ++ b.chars⟩ :: more
      else a :: b :: more
    | [] => [a]

def lexemes (cs : List Char) : List Lexeme := joinErrors (lexemesFrom .content cs)

/-- Gives lexemes their places, the first starting at `start`. -/
def place (start : Nat) : List Lexeme → List Token
  | [] => []
  | l :: rest =>
    let span := Range.ofLength start (byteLength l.chars)
    ⟨l.kind, span⟩ :: place span.stop rest

def lex (source : String) : List Token := place 0 (lexemes source.toList)

end QueryMarkup.Markup
