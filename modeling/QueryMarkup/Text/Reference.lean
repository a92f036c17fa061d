import QueryMarkup.Text.Integer

/-!
Character references. The five characters with a meaning in markup are written
as named references; reading knows these names and the decimal and hexadecimal
references, and keeps everything else as it stands.
-/
namespace QueryMarkup.Text

/-- The written form of one character. -/
def encodeChar : Char → List Char
  | '&' => ['&', 'a', 'm', 'p', ';']
  | '<' => ['&', 'l', 't', ';']
  | '>' => ['&', 'g', 't', ';']
  | '"' => ['&', 'q', 'u', 'o', 't', ';']
  | '\'' => ['&', 'a', 'p', 'o', 's', ';']
  | c => [c]

def encodeChars (cs : List Char) : List Char := cs.flatMap encodeChar

/-- The character with a code, if the code is a Unicode scalar value. -/
def charOfCode (n : Nat) : Option Char :=
  if h : n.isValidChar then some (Char.ofNatAux n h) else none

/-- The character that a reference names, given what stands between `&` and `;`. -/
def resolveReference : List Char → Option Char
  | ['a', 'm', 'p'] => some '&'
  | ['l', 't'] => some '<'
  | ['g', 't'] => some '>'
  | ['q', 'u', 'o', 't'] => some '"'
  | ['a', 'p', 'o', 's'] => some '\''
  | '#' :: 'x' :: digits => (readUnsigned 16 0xFFFFFFFF digits).bind charOfCode
  | '#' :: digits => (readUnsigned 10 0xFFFFFFFF digits).bind charOfCode
  | _ => none

/-- The reference whose name starts the text, after its `&`, and the text after its `;`. -/
def takeReference (cs : List Char) : Option (Char × List Char) :=
  match cs.dropWhile (· ≠ ';') with
  | [] => none
  | _ :: rest => (resolveReference (cs.takeWhile (· ≠ ';'))).map (·, rest)

/-- What follows a reference is shorter than the text that it starts. -/
theorem length_lt_of_takeReference {cs rest : List Char} {c : Char}
    (h : takeReference cs = some (c, rest)) : rest.length < cs.length := by
  unfold takeReference at h
  split at h
  · simp at h
  · rename_i d tail hd
    obtain ⟨e, _, he⟩ := Option.map_eq_some_iff.1 h
    have := (List.dropWhile_suffix (l := cs) (· ≠ ';')).length_le
    rw [hd] at this
    cases he
    simp only [List.length_cons] at this
    omega

/-- Replaces each complete reference by its character, from left to right and once. -/
def decodeChars : List Char → List Char
  | [] => []
  | c :: cs =>
    if c = '&' then
      match _h : takeReference cs with
      | some (d, rest) => d :: decodeChars rest
      | none => '&' :: decodeChars cs
    else c :: decodeChars cs
termination_by cs => cs.length
decreasing_by
  · exact Nat.lt_succ_of_lt (length_lt_of_takeReference ‹_›)
  · simp
  · simp

def encode (s : String) : String := String.ofList (encodeChars s.toList)

def decode (s : String) : String := String.ofList (decodeChars s.toList)

end QueryMarkup.Text
