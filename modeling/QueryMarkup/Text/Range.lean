/-!
Byte ranges of a text in UTF-8, half open, and the part of a text that a range
names. A range that leaves the text or cuts a character names nothing.
-/
namespace QueryMarkup.Text

/-- A half-open byte range. -/
structure Range where
  start : Nat
  stop : Nat
  start_le_stop : start ≤ stop := by omega
  deriving DecidableEq

instance : Inhabited Range := ⟨⟨0, 0, Nat.le_refl 0⟩⟩

namespace Range

def ofLength (start length : Nat) : Range := ⟨start, start + length, Nat.le_add_right _ _⟩

def length (r : Range) : Nat := r.stop - r.start

/-- The least range that contains both. -/
def cover (a b : Range) : Range where
  start := min a.start b.start
  stop := max a.stop b.stop
  start_le_stop := by have := a.start_le_stop; omega

end Range

/-- The number of bytes that a text takes in UTF-8. -/
def byteLength (cs : List Char) : Nat := cs.foldr (fun c n => c.utf8Size + n) 0

/-- Splits a text after `n` bytes, if that is a boundary between characters. -/
def splitAtByte : List Char → Nat → Option (List Char × List Char)
  | cs, 0 => some ([], cs)
  | [], _ + 1 => none
  | c :: cs, n + 1 =>
    if c.utf8Size ≤ n + 1 then
      (splitAtByte cs (n + 1 - c.utf8Size)).map fun (before, after) => (c :: before, after)
    else none

/-- The part of a text that a range names, if both ends are boundaries inside it. -/
def slice? (cs : List Char) (r : Range) : Option (List Char) := do
  let (_, rest) ← splitAtByte cs r.start
  let (part, _) ← splitAtByte rest r.length
  return part

/-- The part of a string that a range names, empty when it names nothing. -/
def slice (s : String) (r : Range) : String :=
  String.ofList ((slice? s.toList r).getD [])

/-- Writes `insert` over a range; a range that names nothing changes nothing. -/
def splice (s : String) (r : Range) (insert : String) : String :=
  let replaced := do
    let (before, rest) ← splitAtByte s.toList r.start
    let (_, after) ← splitAtByte rest r.length
    return String.ofList (before ++ insert.toList ++ after)
  replaced.getD s

/-- The longest part from the start of a text that fits into `n` bytes. -/
def fitting : List Char → Nat → List Char
  | [], _ => []
  | c :: cs, n => if c.utf8Size ≤ n then c :: fitting cs (n - c.utf8Size) else []

end QueryMarkup.Text
