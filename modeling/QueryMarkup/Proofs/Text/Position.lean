import Mathlib.Data.List.Induction
import Mathlib.Data.Prod.Lex
import Mathlib.Data.Set.Function
import QueryMarkup.Proofs.Text.Boundary
import QueryMarkup.Text.Position

/-!
# Positions

A boundary of a text is counted into a line and a column, and the line and the column lead back to
the boundary and to no other (`positionOf_exact`). The order of the positions is the order of the
offsets; what lies between two boundaries has the position of the first.
-/
namespace QueryMarkup.Text

section
variable {cs : List Char} {m n : Nat}

/-! ## What fits -/

theorem fitting_zero (cs : List Char) : fitting cs 0 = [] := by
  cases cs with
  | nil => rfl
  | cons c cs => exact if_neg (Nat.not_le.mpr c.utf8Size_pos)

/-- What comes first fits first. -/
theorem fitting_append (before after : List Char) (n : Nat) :
    fitting (before ++ after) (byteLength before + n) = before ++ fitting after n := by
  induction before with
  | nil =>
    rw [List.nil_append, List.nil_append]
    exact congrArg (fitting after) (Nat.zero_add n)
  | cons c before ih =>
    have fits : c.utf8Size ≤ c.utf8Size + byteLength before + n := by omega
    have left : c.utf8Size + byteLength before + n - c.utf8Size = byteLength before + n := by omega
    rw [byteLength_cons, List.cons_append, fitting, if_pos fits, left, ih, List.cons_append]

theorem fitting_byteLength (before after : List Char) :
    fitting (before ++ after) (byteLength before) = before := by
  have cut := fitting_append before after 0
  rwa [Nat.add_zero, fitting_zero, List.append_nil] at cut

theorem byteLength_fitting_le (cs : List Char) (n : Nat) : byteLength (fitting cs n) ≤ n := by
  induction cs generalizing n with
  | nil => exact Nat.zero_le n
  | cons c cs ih =>
    rw [fitting]
    split
    · rename_i fits
      have others := ih (n - c.utf8Size)
      rw [byteLength_cons]
      omega
    · exact Nat.zero_le n

/-- With more room more fits. -/
theorem fitting_extends (cs : List Char) (le : m ≤ n) : fitting cs m <+: fitting cs n := by
  induction cs generalizing m n with
  | nil => exact List.prefix_rfl
  | cons c cs ih =>
    rw [fitting]
    split
    · rename_i fits
      rw [fitting, if_pos (fits.trans le)]
      exact List.cons_prefix_cons.mpr ⟨rfl, ih (Nat.sub_le_sub_right le _)⟩
    · exact List.nil_prefix

theorem IsBoundary.byteLength_fitting (h : IsBoundary cs n) : byteLength (fitting cs n) = n := by
  obtain ⟨before, after, rfl, rfl⟩ := h
  rw [fitting_byteLength]

end

/-! ## Reading on -/

namespace Position

/-- Positions are ordered by line, and on one line by column. -/
instance : LinearOrder Position :=
  LinearOrder.lift' (fun p => toLex (p.line, p.column)) fun p q same => by
    obtain ⟨line, column⟩ := Prod.mk.inj same
    cases p
    cases q
    cases line
    cases column
    rfl

theorem lt_iff {p q : Position} :
    p < q ↔ p.line < q.line ∨ p.line = q.line ∧ p.column < q.column :=
  Prod.Lex.toLex_lt_toLex

/-- The position behind a character that is read at `p`. -/
def step (p : Position) (c : Char) : Position :=
  if c = '\n' then ⟨p.line + 1, 1⟩ else ⟨p.line, p.column + 1⟩

theorem lt_step (p : Position) (c : Char) : p < p.step c := by
  rw [lt_iff, step]
  split
  · exact .inl (Nat.lt_succ_self p.line)
  · exact .inr ⟨rfl, Nat.lt_succ_self p.column⟩

theorem after_concat (before : List Char) (c : Char) :
    after (before ++ [c]) = (after before).step c := by
  by_cases broken : c = '\n'
  · subst broken
    simp [after, step]
  · simp [after, step, broken, List.count_append]

theorem after_append (before more : List Char) :
    after (before ++ more) = more.foldl step (after before) := by
  induction more using List.reverseRecOn with
  | nil => rw [List.append_nil, List.foldl_nil]
  | append_singleton more c ih =>
    rw [← List.append_assoc, after_concat, ih, List.foldl_append, List.foldl_cons,
      List.foldl_nil]

theorem le_foldl_step (p : Position) (more : List Char) : p ≤ more.foldl step p := by
  induction more generalizing p with
  | nil => exact le_rfl
  | cons c more ih => exact (p.lt_step c).le.trans (ih (p.step c))

section
variable {part whole : List Char}

theorem after_le_after (h : part <+: whole) : after part ≤ after whole := by
  obtain ⟨more, rfl⟩ := h
  rw [after_append]
  exact le_foldl_step _ more

theorem after_lt_after (h : part <+: whole) (short : byteLength part < byteLength whole) :
    after part < after whole := by
  obtain ⟨more, rfl⟩ := h
  cases more with
  | nil =>
    rw [List.append_nil] at short
    exact absurd short (Nat.lt_irrefl _)
  | cons c more =>
    rw [after_append]
    exact ((after part).lt_step c).trans_le (le_foldl_step _ more)

end

end Position

/-! ## Leading back -/

/-- What is left of a text behind its first `n` line breaks, if it has as many. -/
def skipBreaks : Nat → List Char → Option (List Char)
  | 0, cs => some cs
  | _ + 1, [] => none
  | n + 1, c :: cs => if c = '\n' then skipBreaks n cs else skipBreaks (n + 1) cs

/-- What is left of a text behind its first `n` characters, if it has as many and no line break is
among them. -/
def skipColumns : Nat → List Char → Option (List Char)
  | 0, cs => some cs
  | _ + 1, [] => none
  | n + 1, c :: cs => if c = '\n' then none else skipColumns n cs

/-- What is left of a text at a position: the line breaks before the line are skipped, and then the
characters before the column. -/
def rest? (cs : List Char) : Position → Option (List Char)
  | ⟨line + 1, column + 1⟩ => (skipBreaks line cs).bind (skipColumns column)
  | _ => none

/-- The offset that a position leads to. -/
def offsetOf? (source : String) (p : Position) : Option Nat :=
  (rest? source.toList p).map fun rest => byteLength source.toList - byteLength rest

section
variable {cs rest : List Char} {n : Nat} {p : Position}

theorem skipBreaks_add (m n : Nat) (cs : List Char) :
    skipBreaks (m + n) cs = (skipBreaks m cs).bind (skipBreaks n) := by
  fun_induction skipBreaks m cs with
  | case1 cs => rw [Nat.zero_add, Option.bind_some]
  | case2 m =>
    rw [Nat.succ_add]
    rfl
  | case3 m cs ih =>
    rw [Nat.succ_add, skipBreaks, if_pos rfl]
    exact ih
  | case4 m c cs plain ih =>
    rw [Nat.succ_add] at ih ⊢
    rw [skipBreaks, if_neg plain]
    exact ih

theorem skipColumns_add (m n : Nat) (cs : List Char) :
    skipColumns (m + n) cs = (skipColumns m cs).bind (skipColumns n) := by
  fun_induction skipColumns m cs with
  | case1 cs => rw [Nat.zero_add, Option.bind_some]
  | case2 m =>
    rw [Nat.succ_add]
    rfl
  | case3 m cs =>
    rw [Nat.succ_add, skipColumns, if_pos rfl]
    rfl
  | case4 m c cs plain ih =>
    rw [Nat.succ_add, skipColumns, if_neg plain]
    exact ih

/-- Where the columns of a line come to a line break, the next line begins behind it. -/
theorem skipBreaks_one (h : skipColumns n cs = some ('\n' :: rest)) :
    skipBreaks 1 cs = some rest := by
  fun_induction skipColumns n cs with
  | case1 cs =>
    cases h
    rw [skipBreaks, if_pos rfl, skipBreaks]
  | case2 => cases h
  | case3 => cases h
  | case4 n c cs plain ih =>
    rw [skipBreaks, if_neg plain]
    exact ih h

/-- Only a position that counts from one leads anywhere. -/
theorem exists_of_rest? (h : rest? cs p = some rest) : ∃ line column row,
    p = ⟨line + 1, column + 1⟩ ∧ skipBreaks line cs = some row ∧
      skipColumns column row = some rest := by
  obtain ⟨_ | line, _ | column⟩ := p
  · cases h
  · cases h
  · cases h
  · obtain ⟨row, lines, columns⟩ := Option.bind_eq_some_iff.mp h
    exact ⟨line, column, row, rfl, lines, columns⟩

/-- The next position is behind the next character. -/
theorem rest?_step {c : Char} (h : rest? cs p = some (c :: rest)) :
    rest? cs (p.step c) = some rest := by
  obtain ⟨line, column, row, rfl, lines, columns⟩ := exists_of_rest? h
  rw [Position.step]
  split
  · rename_i broken
    cases broken
    change (skipBreaks (line + 1) cs).bind (skipColumns 0) = some rest
    rw [skipBreaks_add, lines, Option.bind_some, skipBreaks_one columns, Option.bind_some,
      skipColumns]
  · rename_i plain
    change (skipBreaks line cs).bind (skipColumns (column + 1)) = some rest
    rw [lines, Option.bind_some, skipColumns_add, columns, Option.bind_some, skipColumns,
      if_neg plain, skipColumns]

theorem rest?_after (before rest : List Char) :
    rest? (before ++ rest) (Position.after before) = some rest := by
  -- from the back: what is read last is the next character of a shorter part
  induction before using List.reverseRecOn generalizing rest with
  | nil =>
    change (skipBreaks 0 rest).bind (skipColumns 0) = some rest
    rw [skipBreaks, Option.bind_some, skipColumns]
  | append_singleton before c ih =>
    rw [Position.after_concat, List.append_assoc]
    exact rest?_step (ih (c :: rest))

/-- Reading over line breaks ends at the start of a line, wherever on a line it began; where there
are none to read over, it has to begin there. -/
theorem exists_of_skipBreaks (h : skipBreaks n cs = some rest) :
    ∃ lines, cs = lines ++ rest ∧ ∀ p : Position, 0 < n ∨ p.column = 1 →
      lines.foldl Position.step p = ⟨p.line + n, 1⟩ := by
  fun_induction skipBreaks n cs with
  | case1 cs =>
    cases h
    refine ⟨[], rfl, ?_⟩
    intro p start
    have first : p.column = 1 := by omega
    rw [← first]
    rfl
  | case2 => cases h
  | case3 n cs ih =>
    obtain ⟨lines, split, read⟩ := ih h
    refine ⟨'\n' :: lines, congrArg (List.cons '\n') split, ?_⟩
    intro p _
    have count : p.line + 1 + n = p.line + (n + 1) := by omega
    rw [List.foldl_cons, Position.step, if_pos rfl, read _ (.inr rfl), count]
  | case4 n c cs plain ih =>
    obtain ⟨lines, split, read⟩ := ih h
    refine ⟨c :: lines, congrArg (List.cons c) split, ?_⟩
    intro p _
    rw [List.foldl_cons, Position.step, if_neg plain, read _ (.inl n.succ_pos)]

theorem exists_of_skipColumns (h : skipColumns n cs = some rest) :
    ∃ row, cs = row ++ rest ∧ ∀ p : Position,
      row.foldl Position.step p = ⟨p.line, p.column + n⟩ := by
  fun_induction skipColumns n cs with
  | case1 cs =>
    cases h
    exact ⟨[], rfl, fun p => rfl⟩
  | case2 => cases h
  | case3 => cases h
  | case4 n c cs plain ih =>
    obtain ⟨row, split, read⟩ := ih h
    refine ⟨c :: row, congrArg (List.cons c) split, ?_⟩
    intro p
    have count : p.column + 1 + n = p.column + (n + 1) := by omega
    rw [List.foldl_cons, Position.step, if_neg plain, read, count]

/-- What is left at a position is behind the text that has the position behind it. -/
theorem rest?_eq_some :
    rest? cs p = some rest ↔ ∃ before, cs = before ++ rest ∧ Position.after before = p := by
  constructor
  · intro h
    obtain ⟨line, column, row, rfl, broken, reached⟩ := exists_of_rest? h
    obtain ⟨lines, rfl, down⟩ := exists_of_skipBreaks broken
    obtain ⟨before, rfl, along⟩ := exists_of_skipColumns reached
    refine ⟨lines ++ before, (List.append_assoc ..).symm, ?_⟩
    have start : Position.after lines = ⟨1 + line, 1⟩ :=
      (Position.after_append [] lines).trans (down ⟨1, 1⟩ (.inr rfl))
    rw [Position.after_append, start, along, Nat.add_comm 1, Nat.add_comm 1]
  · rintro ⟨before, rfl, rfl⟩
    exact rest?_after before rest

end

/-! ## Positions of a text -/

section
variable {source : String} {offset later : Nat}

theorem positionOf_byteLength {before after : List Char} (h : source.toList = before ++ after) :
    positionOf source (byteLength before) = Position.after before := by
  rw [positionOf, h, fitting_byteLength]

theorem offsetOf?_eq_some {p : Position} : offsetOf? source p = some offset ↔
    IsBoundary source.toList offset ∧ positionOf source offset = p := by
  rw [offsetOf?, Option.map_eq_some_iff]
  constructor
  · rintro ⟨rest, left, rfl⟩
    obtain ⟨before, split, reached⟩ := rest?_eq_some.mp left
    have cut : byteLength source.toList - byteLength rest = byteLength before := by
      rw [split, byteLength_append, Nat.add_sub_cancel_right]
    rw [cut, positionOf_byteLength split]
    exact ⟨⟨before, rest, split, rfl⟩, reached⟩
  · rintro ⟨⟨before, rest, split, rfl⟩, rfl⟩
    refine ⟨rest, rest?_eq_some.mpr ⟨before, split, (positionOf_byteLength split).symm⟩, ?_⟩
    rw [split, byteLength_append, Nat.add_sub_cancel_right]

theorem positionOf_mono (source : String) : Monotone (positionOf source) := fun _ _ le =>
  Position.after_le_after (fitting_extends source.toList le)

/-- A boundary is behind all that come earlier, also where these cut a character. -/
theorem positionOf_lt_iff (boundary : IsBoundary source.toList later) :
    positionOf source offset < positionOf source later ↔ offset < later := by
  constructor
  · exact (positionOf_mono source).reflect_lt
  · intro earlier
    apply Position.after_lt_after (fitting_extends source.toList earlier.le)
    rw [boundary.byteLength_fitting]
    exact (byteLength_fitting_le source.toList offset).trans_lt earlier

/-- What does not reach the end of a character has the position of its start. -/
theorem positionOf_inside {before after : List Char} {c : Char} {inside : Nat}
    (h : source.toList = before ++ c :: after) (short : inside < c.utf8Size) :
    positionOf source (byteLength before + inside) = positionOf source (byteLength before) := by
  have cut : fitting (c :: after) inside = [] := if_neg (Nat.not_le.mpr short)
  rw [positionOf_byteLength h, positionOf, h, fitting_append, cut, List.append_nil]

theorem positionOf_end (source : String) (beyond : Nat) :
    positionOf source (source.utf8ByteSize + beyond) = Position.after source.toList := by
  have whole := fitting_append source.toList [] beyond
  rw [List.append_nil] at whole
  rw [positionOf, utf8ByteSize_eq, whole]
  exact congrArg Position.after (List.append_nil _)

end

/-- The position of a boundary is the one that leads back to it. So different boundaries have
different positions, and the later one the larger. What is inside a character has the position of
its start, and what is beyond the end the position of the end. -/
theorem positionOf_exact (source : String) :
    (∀ offset p, offsetOf? source p = some offset ↔
      IsBoundary source.toList offset ∧ positionOf source offset = p) ∧
    Set.InjOn (positionOf source) {offset | IsBoundary source.toList offset} ∧
    (∀ offset later, IsBoundary source.toList later →
      (positionOf source offset < positionOf source later ↔ offset < later)) ∧
    (∀ before c after inside, source.toList = before ++ c :: after → inside < c.utf8Size →
      positionOf source (byteLength before + inside) = positionOf source (byteLength before)) ∧
    ∀ beyond, positionOf source (source.utf8ByteSize + beyond) =
      positionOf source source.utf8ByteSize := by
  refine ⟨fun offset p => offsetOf?_eq_some, ?distinct, fun offset later => positionOf_lt_iff,
    fun before c after inside => positionOf_inside, ?past⟩
  case distinct =>
    intro offset boundary other boundary' same
    have back := offsetOf?_eq_some.mpr ⟨boundary, same⟩
    exact Option.some.inj (back.symm.trans (offsetOf?_eq_some.mpr ⟨boundary', rfl⟩))
  case past =>
    intro beyond
    rw [positionOf_end]
    exact (positionOf_end source 0).symm

/-- An accented letter takes two bytes, and a line break is behind it. -/
theorem positionOf_exact_accented : let source := "é\nb"
    IsBoundary source.toList 2 ∧ IsBoundary source.toList 3 ∧
    offsetOf? source ⟨2, 1⟩ = some 3 ∧ positionOf source 2 ≠ positionOf source 3 ∧
    positionOf source 1 < positionOf source 3 ∧ positionOf source 1 = positionOf source 0 ∧
    positionOf source 9 = positionOf source 4 := by
  intro source
  have row : IsBoundary source.toList 2 := ⟨['é'], ['\n', 'b'], by decide, by decide⟩
  have next : IsBoundary source.toList 3 := ⟨['é', '\n'], ['b'], by decide, by decide⟩
  have there : positionOf source 3 = ⟨2, 1⟩ := by decide
  obtain ⟨back, distinct, ordered, inside, past⟩ := positionOf_exact source
  refine ⟨row, next, (back 3 ⟨2, 1⟩).mpr ⟨next, there⟩, ?_, (ordered 1 3 next).mpr (by decide),
    inside [] 'é' ['\n', 'b'] 1 (by decide) (by decide), past 5⟩
  intro same
  exact absurd (distinct row next same) (by decide)

end QueryMarkup.Text
