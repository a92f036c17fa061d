import QueryMarkup.Json.Basic
import QueryMarkup.Text.Reference

/-!
JSON text to values. The reader takes a value off the front of a text and
returns the rest; a whole text is one value with blanks around it.
-/
namespace QueryMarkup.JsonValue

def isJsonBlank (c : Char) : Bool := c == ' ' || c == '\n' || c == '\t' || c == '\r'

def skipBlanks (cs : List Char) : List Char := cs.dropWhile isJsonBlank

def isHexDigit (c : Char) : Bool := ((Text.digitValue c).map fun d => decide (d < 16)).getD false

def isDecimalDigit (c : Char) : Bool := decide ('0' ≤ c) && decide (c ≤ '9')

/-- The characters that stand for something after a backslash, `u` apart. -/
def simpleEscapes : List Char := ['"', '\\', '/', 'b', 'f', 'n', 'r', 't']

/-- Reads a string up to its closing quote. -/
def readString : List Char → Option (List Char × List Char)
  | [] => none
  | '"' :: rest => some ([], rest)
  | '\\' :: 'u' :: a :: b :: c :: d :: rest =>
    if [a, b, c, d].all isHexDigit then
      (readString rest).map fun (raw, rest) => ('\\' :: 'u' :: a :: b :: c :: d :: raw, rest)
    else none
  | '\\' :: c :: rest =>
    if simpleEscapes.contains c then
      (readString rest).map fun (raw, rest) => ('\\' :: c :: raw, rest)
    else none
  | c :: rest =>
    if c.toNat < 0x20 ∨ c = '\\' then none
    else (readString rest).map fun (raw, rest) => (c :: raw, rest)

/-- Reads one or more digits. -/
def readDigits (cs : List Char) : Option (List Char × List Char) :=
  let digits := cs.takeWhile isDecimalDigit
  if digits.isEmpty then none else some (digits, cs.drop digits.length)

/-- Reads the whole part of a number. A zero stands alone. -/
def readWhole : List Char → Option (List Char × List Char)
  | '0' :: rest =>
    match rest with
    | c :: _ => if isDecimalDigit c then none else some (['0'], rest)
    | [] => some (['0'], rest)
  | cs => readDigits cs

/-- Reads the decimal places of a number, if it has any. -/
def readFraction : List Char → Option (List Char × List Char)
  | '.' :: rest => (readDigits rest).map fun (digits, rest) => ('.' :: digits, rest)
  | cs => some ([], cs)

/-- Reads the exponent of a number, if it has one. -/
def readExponent : List Char → Option (List Char × List Char)
  | c :: rest =>
    if c = 'e' ∨ c = 'E' then
      match rest with
      | '+' :: rest => (readDigits rest).map fun (digits, rest) => (c :: '+' :: digits, rest)
      | '-' :: rest => (readDigits rest).map fun (digits, rest) => (c :: '-' :: digits, rest)
      | rest => (readDigits rest).map fun (digits, rest) => (c :: digits, rest)
    else some ([], c :: rest)
  | [] => some ([], [])

def readNumber (cs : List Char) : Option (JsonValue × List Char) := do
  let (sign, rest) := match cs with
    | '-' :: rest => (['-'], rest)
    | rest => ([], rest)
  let (whole, rest) ← readWhole rest
  let (fraction, rest) ← readFraction rest
  let (exponent, rest) ← readExponent rest
  return (number (sign ++ whole ++ fraction ++ exponent), rest)

mutual

/-- Reads a value. Each call takes one from the fuel, and each reads a character. -/
def readValue : Nat → List Char → Option (JsonValue × List Char)
  | 0, _ => none
  | fuel + 1, cs =>
    match skipBlanks cs with
    | '\x7b' :: rest =>
      match skipBlanks rest with
      | '\x7d' :: rest => some (object [], rest)
      | rest => (readMembers fuel rest).map fun (members, rest) => (object members, rest)
    | '[' :: rest =>
      match skipBlanks rest with
      | ']' :: rest => some (array [], rest)
      | rest => (readItems fuel rest).map fun (items, rest) => (array items, rest)
    | '"' :: rest => (readString rest).map fun (raw, rest) => (string raw, rest)
    | 't' :: 'r' :: 'u' :: 'e' :: rest => some (bool true, rest)
    | 'f' :: 'a' :: 'l' :: 's' :: 'e' :: rest => some (bool false, rest)
    | 'n' :: 'u' :: 'l' :: 'l' :: rest => some (null, rest)
    | rest => readNumber rest

/-- Reads the items of an array, at least one, with the closing bracket. -/
def readItems : Nat → List Char → Option (List JsonValue × List Char)
  | 0, _ => none
  | fuel + 1, cs => do
    let (item, rest) ← readValue fuel cs
    match skipBlanks rest with
    | ',' :: rest => (readItems fuel rest).map fun (items, rest) => (item :: items, rest)
    | ']' :: rest => some ([item], rest)
    | _ => none

/-- Reads the members of an object, at least one, with the closing brace. -/
def readMembers : Nat → List Char → Option (List (List Char × JsonValue) × List Char)
  | 0, _ => none
  | fuel + 1, cs =>
    match skipBlanks cs with
    | '"' :: rest => do
      let (name, rest) ← readString rest
      let ':' :: rest := skipBlanks rest | none
      let (value, rest) ← readValue fuel rest
      match skipBlanks rest with
      | ',' :: rest =>
        (readMembers fuel rest).map fun (members, rest) => ((name, value) :: members, rest)
      | '\x7d' :: rest => some ([(name, value)], rest)
      | _ => none
    | _ => none

end

/-- Reads a whole text. No value takes more calls than twice its length. -/
def read? (text : String) : Option JsonValue := do
  let cs := text.toList
  let (value, rest) ← readValue (2 * cs.length + 2) cs
  if (skipBlanks rest).isEmpty then some value else none

/-- The code of four hexadecimal digits. -/
def hexCode (digits : List Char) : Nat := (Text.readNatural 16 digits).getD 0

/-- The characters that a written string stands for. Codes above the first plane come in
pairs; half a pair stands for nothing. -/
def unescape : List Char → Option (List Char)
  | [] => some []
  | '\\' :: 'u' :: a :: b :: c :: d :: rest =>
    let high := hexCode [a, b, c, d]
    if 0xD800 ≤ high ∧ high < 0xDC00 then
      match rest with
      | '\\' :: 'u' :: e :: f :: g :: h :: rest =>
        let low := hexCode [e, f, g, h]
        if 0xDC00 ≤ low ∧ low < 0xE000 then do
          let ch ← Text.charOfCode (0x10000 + (high - 0xD800) * 0x400 + (low - 0xDC00))
          (unescape rest).map (ch :: ·)
        else none
      | _ => none
    else do
      let ch ← Text.charOfCode high
      (unescape rest).map (ch :: ·)
  | '\\' :: c :: rest =>
    let ch := match c with
      | 'b' => '\x08'
      | 'f' => '\x0c'
      | 'n' => '\n'
      | 'r' => '\r'
      | 't' => '\t'
      | c => c
    (unescape rest).map (ch :: ·)
  | c :: rest => (unescape rest).map (c :: ·)

/-- The value of a number that is written with digits alone, if it is at most `limit`. -/
def natural? (limit : Nat) : JsonValue → Option Nat
  | number raw => do
    let n ← if raw.all isDecimalDigit then Text.readNatural 10 raw else none
    if n ≤ limit then some n else none
  | _ => none

end QueryMarkup.JsonValue
