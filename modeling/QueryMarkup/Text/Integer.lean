/-!
Integers in text: an optional sign and one or more digits, within a bound.
-/
namespace QueryMarkup.Text

/-- The value of an ASCII digit, letters of either case going on from ten. -/
def digitValue (c : Char) : Option Nat :=
  if '0' ≤ c ∧ c ≤ '9' then some (c.toNat - '0'.toNat)
  else if 'a' ≤ c ∧ c ≤ 'f' then some (c.toNat - 'a'.toNat + 10)
  else if 'A' ≤ c ∧ c ≤ 'F' then some (c.toNat - 'A'.toNat + 10)
  else none

/-- Goes on reading digits after a number with value `acc`. -/
def readDigits (radix : Nat) (acc : Nat) : List Char → Option Nat
  | [] => some acc
  | c :: cs => do
    let d ← digitValue c
    if d < radix then readDigits radix (acc * radix + d) cs else none

/-- One or more digits and nothing else. -/
def readNatural (radix : Nat) : List Char → Option Nat
  | [] => none
  | cs => readDigits radix 0 cs

/-- A natural number at most `limit`; a plus sign may stand before it. -/
def readUnsigned (radix limit : Nat) (cs : List Char) : Option Nat := do
  let n ← match cs with
    | '+' :: digits => readNatural radix digits
    | digits => readNatural radix digits
  if n ≤ limit then some n else none

/-- A decimal integer that fits into 64 bits with a sign. -/
def readSigned64 (cs : List Char) : Option Int := do
  let n : Int ← match cs with
    | '+' :: digits => (readNatural 10 digits).map Int.ofNat
    | '-' :: digits => (readNatural 10 digits).map fun n => -(n : Int)
    | digits => (readNatural 10 digits).map Int.ofNat
  if -0x8000000000000000 ≤ n ∧ n < 0x8000000000000000 then some n else none

end QueryMarkup.Text
