/-!
JSON values and their indented text. Numbers and strings are kept as they are
written, so reading loses nothing and judges nothing beyond the grammar.
-/
namespace QueryMarkup

inductive JsonValue where
  | null
  | bool (value : Bool)
  /-- A number with its digits as written. -/
  | number (raw : List Char)
  /-- A string with what stands between its quotes as written. -/
  | string (raw : List Char)
  | array (items : List JsonValue)
  | object (members : List (List Char × JsonValue))

namespace JsonValue

/-- How a character stands in a written string. -/
def escapeChar (c : Char) : List Char :=
  if c = '"' then ['\\', '"']
  else if c = '\\' then ['\\', '\\']
  else if c.toNat < 0x20 then
    let digits := Nat.toDigits 16 c.toNat
    ['\\', 'u'] ++ List.replicate (4 - digits.length) '0' ++ digits
  else [c]

def ofString (s : String) : JsonValue := string (s.toList.flatMap escapeChar)

def ofNat (n : Nat) : JsonValue := number (toString n).toList

def ofOption {α : Type _} (f : α → JsonValue) : Option α → JsonValue
  | none => null
  | some a => f a

/-- An object with plain names. -/
def record (members : List (String × JsonValue)) : JsonValue :=
  object (members.map fun (name, value) => (name.toList.flatMap escapeChar, value))

/-- A line break and the indentation of a level, two blanks each. -/
def newline (level : Nat) : String := "\n" ++ String.ofList (List.replicate (2 * level) ' ')

def quoted (raw : List Char) : String := "\"" ++ String.ofList raw ++ "\""

mutual

/-- The text of a value, its items and members each on a line of their own. -/
def pretty (level : Nat) : JsonValue → String
  | null => "null"
  | bool true => "true"
  | bool false => "false"
  | number raw => String.ofList raw
  | string raw => quoted raw
  | array [] => "[]"
  | array items => "[" ++ ",".intercalate (prettyItems (level + 1) items) ++ newline level ++ "]"
  | object [] => "\x7b\x7d"
  | object members =>
    "\x7b" ++ ",".intercalate (prettyMembers (level + 1) members) ++ newline level ++ "\x7d"

def prettyItems (level : Nat) : List JsonValue → List String
  | [] => []
  | item :: rest => (newline level ++ pretty level item) :: prettyItems level rest

def prettyMembers (level : Nat) : List (List Char × JsonValue) → List String
  | [] => []
  | (name, value) :: rest =>
    (newline level ++ quoted name ++ ": " ++ pretty level value) :: prettyMembers level rest

end

end JsonValue

end QueryMarkup
