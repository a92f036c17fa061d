import QueryMarkup.Proofs.Text.Reference
import QueryMarkup.Text.Range

/-!
# Boundaries

A range names a part of a text exactly when both of its ends are boundaries between
characters. So ranges that are put together from such ends name something again.
-/
namespace QueryMarkup.Text

/-- A text can be cut behind so many bytes. -/
def IsBoundary (cs : List Char) (n : Nat) : Prop :=
  ∃ before after, cs = before ++ after ∧ byteLength before = n

section
variable {cs before after part : List Char} {n : Nat} {r : Range}

theorem byteLength_cons (c : Char) (cs : List Char) :
    byteLength (c :: cs) = c.utf8Size + byteLength cs := rfl

theorem byteLength_append (a b : List Char) : byteLength (a ++ b) = byteLength a + byteLength b := by
  induction a with
  | nil => simp [byteLength]
  | cons c a ih => rw [List.cons_append, byteLength_cons, byteLength_cons, ih, Nat.add_assoc]

/-- A string has as many bytes as its characters take. -/
theorem utf8ByteSize_eq (s : String) : s.utf8ByteSize = byteLength s.toList := by
  have listed (cs : List Char) : (String.ofList cs).utf8ByteSize = byteLength cs := by
    induction cs with
    | nil => rfl
    | cons c cs ih =>
      rw [String.ofList_cons, String.utf8ByteSize_append, String.utf8ByteSize_singleton, ih]
      rfl
  have whole := listed s.toList
  rwa [String.ofList_toList] at whole

theorem splitAtByte_append (a b : List Char) : splitAtByte (a ++ b) (byteLength a) = some (a, b) := by
  induction a with
  | nil => simp [byteLength, splitAtByte]
  | cons c a ih =>
    have pos := c.utf8Size_pos
    obtain ⟨n, hn⟩ : ∃ n, c.utf8Size + byteLength a = n + 1 := ⟨_, (Nat.succ_pred_eq_of_pos (by omega)).symm⟩
    have fits : c.utf8Size ≤ n + 1 := by omega
    have left : n + 1 - c.utf8Size = byteLength a := by omega
    rw [byteLength_cons, hn, List.cons_append, splitAtByte, if_pos fits, left, ih]
    rfl

theorem byteLength_eq_zero : byteLength cs = 0 ↔ cs = [] := by
  cases cs with
  | nil => simp [byteLength]
  | cons c cs =>
    have pos := c.utf8Size_pos
    constructor
    · intro none
      rw [byteLength_cons] at none
      omega
    · intro none
      cases none

theorem splitAtByte_eq_some :
    splitAtByte cs n = some (before, after) ↔ cs = before ++ after ∧ byteLength before = n := by
  constructor
  · intro h
    induction cs generalizing n before with
    | nil =>
      cases n with
      | zero =>
        cases h
        exact ⟨rfl, rfl⟩
      | succ n => cases h
    | cons c cs ih =>
      cases n with
      | zero =>
        cases h
        exact ⟨rfl, rfl⟩
      | succ n =>
        rw [splitAtByte] at h
        split at h
        · rename_i fits
          obtain ⟨⟨front, back⟩, inner, e⟩ := Option.map_eq_some_iff.mp h
          cases e
          obtain ⟨rfl, length⟩ := ih inner
          exact ⟨rfl, by rw [byteLength_cons]; omega⟩
        · cases h
  · rintro ⟨rfl, rfl⟩
    exact splitAtByte_append before after

/-- A range names a part of a text that starts where the range starts and is as long. -/
theorem slice?_eq_some : slice? cs r = some part ↔ ∃ before after,
    cs = before ++ (part ++ after) ∧ byteLength before = r.start ∧ byteLength part = r.length := by
  unfold slice?
  simp only [bind, Option.bind_eq_some_iff, Prod.exists, pure, Option.some.injEq]
  constructor
  · rintro ⟨before, rest, first, named, after, second, rfl⟩
    obtain ⟨rfl, start⟩ := splitAtByte_eq_some.mp first
    obtain ⟨rfl, length⟩ := splitAtByte_eq_some.mp second
    exact ⟨before, after, rfl, start, length⟩
  · rintro ⟨before, after, rfl, start, length⟩
    exact ⟨before, part ++ after, splitAtByte_eq_some.mpr ⟨rfl, start⟩, part, after,
      splitAtByte_eq_some.mpr ⟨rfl, length⟩, rfl⟩

/-- Of two boundaries the first lies inside the part before the second. -/
theorem exists_between {m : Nat} (start : IsBoundary cs m) (stop : IsBoundary cs n) (le : m ≤ n) :
    ∃ before part after, cs = before ++ (part ++ after) ∧ byteLength before = m ∧
      byteLength (before ++ part) = n := by
  obtain ⟨before, rest, rfl, rfl⟩ := start
  obtain ⟨front, after, split, rfl⟩ := stop
  rcases List.append_eq_append_iff.mp split with ⟨part, rfl, rfl⟩ | ⟨part, rfl, rfl⟩
  · exact ⟨before, part, after, rfl, rfl, rfl⟩
  · rw [byteLength_append] at le
    obtain rfl := byteLength_eq_zero.mp (show byteLength part = 0 by omega)
    exact ⟨front, [], rest, by simp, by simp, by simp⟩

end

namespace Range

variable {text word : String} {r r' : Range}

/-- The range lies in the text and cuts no character. -/
def Within (r : Range) (text : String) : Prop := (slice? text.toList r).isSome = true

/-- The range names a word in the text. -/
def Names (r : Range) (text word : String) : Prop := slice? text.toList r = some word.toList

theorem within_iff :
    r.Within text ↔ IsBoundary text.toList r.start ∧ IsBoundary text.toList r.stop := by
  have ordered := r.start_le_stop
  rw [Within, Option.isSome_iff_exists]
  constructor
  · rintro ⟨part, named⟩
    obtain ⟨before, after, split, start, length⟩ := slice?_eq_some.mp named
    constructor
    · exact ⟨before, part ++ after, split, start⟩
    · refine ⟨before ++ part, after, by rw [split, List.append_assoc], ?_⟩
      rw [byteLength_append, start, length, Range.length]
      omega
  · rintro ⟨start, stop⟩
    obtain ⟨before, part, after, split, first, last⟩ := exists_between start stop ordered
    rw [byteLength_append] at last
    refine ⟨part, slice?_eq_some.mpr ⟨before, after, split, first, ?_⟩⟩
    rw [Range.length]
    omega

theorem Names.within (h : r.Names text word) : r.Within text := by
  rw [Within, h]
  rfl

theorem Names.slice_eq (h : r.Names text word) : slice text r = word := by
  rw [slice, h, Option.getD_some, String.ofList_toList]

theorem Within.names (h : r.Within text) : r.Names text (slice text r) := by
  obtain ⟨part, named⟩ := Option.isSome_iff_exists.mp h
  rw [Names, slice, named, Option.getD_some, String.toList_ofList]

/-- What covers two ranges inside a text has its ends where these have theirs. -/
theorem Within.cover (h : r.Within text) (h' : r'.Within text) : (r.cover r').Within text := by
  obtain ⟨start, stop⟩ := within_iff.mp h
  obtain ⟨start', stop'⟩ := within_iff.mp h'
  apply within_iff.mpr
  constructor
  · change IsBoundary _ (min r.start r'.start)
    rcases Nat.le_total r.start r'.start with le | le
    · rwa [Nat.min_eq_left le]
    · rwa [Nat.min_eq_right le]
  · change IsBoundary _ (max r.stop r'.stop)
    rcases Nat.le_total r.stop r'.stop with le | le
    · rwa [Nat.max_eq_right le]
    · rwa [Nat.max_eq_left le]

/-- A range as long as `part` names it behind `before`. -/
theorem names_append (before part after : List Char) :
    (ofLength (byteLength before) (byteLength part)).Names
      (String.ofList (before ++ (part ++ after))) (String.ofList part) := by
  rw [Names, String.toList_ofList, String.toList_ofList]
  refine slice?_eq_some.mpr ⟨before, after, rfl, rfl, ?_⟩
  simp [Range.length, ofLength]

/-- What is left of a named text between blanks has its place behind the first of them. -/
theorem Within.trimmed (h : r.Within text) :
    let chars := (slice text r).toList
    (ofLength (r.start + (byteLength chars - byteLength (trimStart chars)))
      (byteLength (trim chars))).Within text := by
  obtain ⟨before, after, split, start, -⟩ := slice?_eq_some.mp h.names
  intro chars
  obtain ⟨blanks, behind, parts⟩ : ∃ blanks behind, chars = blanks ++ trimStart chars ∧
      trimStart chars = trim chars ++ behind := by
    have kept : trim chars <+: trimStart chars := by
      rw [trim, trimEnd, ← List.reverse_suffix, List.reverse_reverse]
      exact List.dropWhile_suffix isBlank
    obtain ⟨behind, e⟩ := kept
    exact ⟨chars.takeWhile isBlank, behind, List.takeWhile_append_dropWhile.symm, e.symm⟩
  have lead : byteLength chars - byteLength (trimStart chars) = byteLength blanks := by
    have whole := congrArg byteLength parts.1
    rw [byteLength_append] at whole
    omega
  have whole : text = String.ofList ((before ++ blanks) ++ (trim chars ++ (behind ++ after))) := by
    have same : text.toList = before ++ (chars ++ after) := split
    rw [parts.1, parts.2] at same
    rw [← String.ofList_toList (s := text), same]
    simp only [List.append_assoc]
  have named := names_append (before ++ blanks) (trim chars) (behind ++ after)
  rw [← whole, byteLength_append, start] at named
  rw [lead]
  exact named.within

end Range

end QueryMarkup.Text
