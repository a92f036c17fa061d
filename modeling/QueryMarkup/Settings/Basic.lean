/-!
The settings of the engine and which of them are sensible.
-/
namespace QueryMarkup

structure Settings where
  /-- How long the tree must be quiet before it is written, in milliseconds. -/
  debounceMs : Nat := 30
  /-- Diagnostics that start at most this far apart are not shown together. -/
  proximity : Nat := 12
  /-- Blanks for each level of nesting. -/
  indentWidth : Nat := 2
  /-- How many elements may be nested in each other. -/
  nestingLimit : Nat := 256
  deriving DecidableEq

inductive SettingsError where
  | noNesting
  | wideIndent (width : Nat)
  | longDebounce (ms : Nat)
  deriving DecidableEq

def SettingsError.message : SettingsError → String
  | noNesting => "invalid configuration: recursion_fuel must be at least 1"
  | wideIndent width => s!"invalid configuration: indent_width {width} is larger than 16"
  | longDebounce ms => s!"invalid configuration: debounce_ms {ms} is longer than 10s"

/-- Accepts the settings or names the first that is not sensible. -/
def Settings.validate (s : Settings) : Except SettingsError Unit :=
  if s.nestingLimit = 0 then .error .noNesting
  else if 16 < s.indentWidth then .error (.wideIndent s.indentWidth)
  else if 10000 < s.debounceMs then .error (.longDebounce s.debounceMs)
  else .ok ()

end QueryMarkup
