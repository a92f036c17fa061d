import QueryMarkup.Json.Reader
import QueryMarkup.Settings.Basic

/-!
Settings from JSON: an object that names some of them, or an array of the first
of them in order. What is not given keeps its default. Other members of an
object are ignored, but a setting must not be given twice.
-/
namespace QueryMarkup.Settings

/-- One setting, with the largest value it can hold. -/
structure Field where
  name : String
  limit : Nat
  store : Settings → Nat → Settings

/-- All settings, in the order that an array gives them. -/
def fields : List Field :=
  [⟨"debounce_ms", 0xFFFFFFFFFFFFFFFF, fun s n => { s with debounceMs := n }⟩,
    ⟨"diagnostic_proximity", 0xFFFFFFFF, fun s n => { s with proximity := n }⟩,
    ⟨"indent_width", 0xFFFFFFFFFFFFFFFF, fun s n => { s with indentWidth := n }⟩,
    ⟨"recursion_fuel", 0xFFFFFFFF, fun s n => { s with nestingLimit := n }⟩]

/-- Stores the members of an object one after the other. `seen` are the settings given before. -/
def readMembers (s : Settings) (seen : List String) : List (List Char × JsonValue) → Option Settings
  | [] => some s
  | (raw, value) :: rest => do
    let name := String.ofList (← JsonValue.unescape raw)
    match fields.find? (·.name == name) with
    | none => readMembers s seen rest
    | some field =>
      if seen.contains name then none
      else readMembers (field.store s (← value.natural? field.limit)) (name :: seen) rest

/-- Stores the items of an array into the settings in order. -/
def readItems (s : Settings) : List Field → List JsonValue → Option Settings
  | _, [] => some s
  | [], _ :: _ => none
  | field :: fields, item :: rest => do
    readItems (field.store s (← item.natural? field.limit)) fields rest

def ofJson? : JsonValue → Option Settings
  | .object members => readMembers {} [] members
  | .array items => readItems {} fields items
  | _ => none

/-- The settings in a text, if it is JSON of the right form. -/
def read? (text : String) : Option Settings := (JsonValue.read? text).bind ofJson?

end QueryMarkup.Settings
