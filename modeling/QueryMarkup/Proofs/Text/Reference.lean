import Mathlib.Data.List.TakeWhile
import QueryMarkup.Text.Blank
import QueryMarkup.Text.Reference

/-!
# References and the characters they stand for

What is written with references is read back as it was, holds none of the characters that
end a text or a quoted value, and begins and ends with a blank only where the text does.
-/
namespace QueryMarkup.Text

/-! ## Reading what was written -/

theorem takeReference_append {name : List Char} {c : Char} (ends : ';' ∉ name)
    (names : resolveReference name = some c) (rest : List Char) :
    takeReference (name ++ ';' :: rest) = some (c, rest) := by
  have inside : ∀ x ∈ name, decide (x ≠ ';') = true := fun x hx =>
    decide_eq_true fun (e : x = ';') => ends (e ▸ hx)
  rw [takeReference, List.dropWhile_append_of_pos inside, List.takeWhile_append_of_pos inside]
  simp [names]

/-- A reference is read as the character that it names. -/
theorem decodeChars_reference {name : List Char} {c : Char} (ends : ';' ∉ name)
    (names : resolveReference name = some c) (rest : List Char) :
    decodeChars ('&' :: (name ++ ';' :: rest)) = c :: decodeChars rest := by
  rw [decodeChars, if_pos rfl]
  split
  · rename_i e
    rw [takeReference_append ends names] at e
    cases e
    rfl
  · rename_i e
    rw [takeReference_append ends names] at e
    cases e

theorem decodeChars_plain {c : Char} (h : c ≠ '&') (rest : List Char) :
    decodeChars (c :: rest) = c :: decodeChars rest := by
  rw [decodeChars, if_neg h]

/-- A character is written as itself or as a reference that names it. -/
theorem encodeChar_cases (c : Char) :
    encodeChar c = [c] ∧ c ≠ '&' ∧ c ≠ '<' ∧ c ≠ '"' ∨
      ∃ name, encodeChar c = '&' :: (name ++ [';']) ∧ resolveReference name = some c ∧
        ';' ∉ name ∧ '<' ∉ name ∧ '"' ∉ name := by
  unfold encodeChar
  split
  · exact .inr ⟨['a', 'm', 'p'], by decide⟩
  · exact .inr ⟨['l', 't'], by decide⟩
  · exact .inr ⟨['g', 't'], by decide⟩
  · exact .inr ⟨['q', 'u', 'o', 't'], by decide⟩
  · exact .inr ⟨['a', 'p', 'o', 's'], by decide⟩
  · rename_i amp lt _ quot _
    exact .inl ⟨rfl, amp, lt, quot⟩

theorem decodeChars_encodeChar (c : Char) (rest : List Char) :
    decodeChars (encodeChar c ++ rest) = c :: decodeChars rest := by
  rcases encodeChar_cases c with ⟨e, plain, -⟩ | ⟨name, e, names, ends, -⟩
  · rw [e]
    exact decodeChars_plain plain rest
  · rw [e, List.cons_append, List.append_assoc]
    exact decodeChars_reference ends names rest

@[simp] theorem encodeChars_cons (c : Char) (cs : List Char) :
    encodeChars (c :: cs) = encodeChar c ++ encodeChars cs := List.flatMap_cons

/-- What is written with references is read back as it was. -/
@[simp] theorem decodeChars_encodeChars (cs : List Char) : decodeChars (encodeChars cs) = cs := by
  induction cs with
  | nil => simp [encodeChars, decodeChars]
  | cons c cs ih => rw [encodeChars_cons, decodeChars_encodeChar, ih]

theorem decodeChars_eq_nil {cs : List Char} (h : decodeChars cs = []) : cs = [] := by
  cases cs with
  | nil => rfl
  | cons c cs =>
    rw [decodeChars] at h
    split at h
    · split at h <;> cases h
    · cases h

theorem decode_encode (s : String) : decode (encode s) = s := by
  simp [decode, encode]

/-! ## Characters that are not left -/

theorem not_mem_encodeChars (cs : List Char) : '<' ∉ encodeChars cs ∧ '"' ∉ encodeChars cs := by
  have each (c : Char) : '<' ∉ encodeChar c ∧ '"' ∉ encodeChar c := by
    rcases encodeChar_cases c with ⟨e, -, lt, quot⟩ | ⟨name, e, -, -, lt, quot⟩
    · rw [e]
      simp [lt.symm, quot.symm]
    · rw [e]
      simp [lt, quot]
  constructor
  · intro h
    obtain ⟨c, -, hc⟩ := List.mem_flatMap.mp h
    exact (each c).1 hc
  · intro h
    obtain ⟨c, -, hc⟩ := List.mem_flatMap.mp h
    exact (each c).2 hc

theorem encodeChars_eq_nil {cs : List Char} : encodeChars cs = [] ↔ cs = [] := by
  constructor
  · intro h
    rw [← decodeChars_encodeChars cs, h]
    simp [decodeChars]
  · rintro rfl
    rfl

/-! ## Blanks at the ends -/

theorem trimStart_eq_nil {cs : List Char} : trimStart cs = [] ↔ isAllBlank cs = true := by
  simp [trimStart, isAllBlank]

/-- Only blank texts have nothing left when they are trimmed. -/
theorem trim_eq_nil {cs : List Char} : trim cs = [] ↔ isAllBlank cs = true := by
  rw [← trimStart_eq_nil, trim, trimEnd, List.reverse_eq_nil_iff]
  constructor
  · intro h
    have blank : ∀ c ∈ trimStart cs, isBlank c = true := by simpa using h
    cases hs : trimStart cs with
    | nil => rfl
    | cons c rest =>
      have first := List.head?_dropWhile_not isBlank cs
      rw [trimStart] at hs
      rw [hs] at first
      have := blank c (by rw [trimStart, hs]; exact List.mem_cons_self)
      simp [this] at first
  · intro h
    rw [h]
    rfl

theorem isEmpty_trim {cs : List Char} (shown : isAllBlank cs = false) :
    (trim cs).isEmpty = false := by
  rw [List.isEmpty_eq_false_iff]
  intro none
  rw [trim_eq_nil.mp none] at shown
  cases shown

/-- No blank stands at either end. -/
def Tight (cs : List Char) : Prop :=
  (∀ c ∈ cs.head?, isBlank c = false) ∧ ∀ c ∈ cs.getLast?, isBlank c = false

theorem trimStart_of_head {cs : List Char} (h : ∀ c ∈ cs.head?, isBlank c = false) :
    trimStart cs = cs := by
  cases cs with
  | nil => rfl
  | cons c cs => simp [trimStart, h c rfl]

theorem trimEnd_append {cs blanks : List Char} (last : ∀ c ∈ cs.getLast?, isBlank c = false)
    (blank : ∀ c ∈ blanks, isBlank c = true) : trimEnd (cs ++ blanks) = cs := by
  have front := @trimStart_of_head cs.reverse (by rwa [List.head?_reverse])
  have skip : ∀ c ∈ blanks.reverse, isBlank c = true := fun c hc => blank c (List.mem_reverse.mp hc)
  rw [trimStart] at front
  rw [trimEnd, List.reverse_append, List.dropWhile_append_of_pos skip, front, List.reverse_reverse]

/-- Blanks behind a tight text are all that trimming takes. -/
theorem Tight.trim_append {cs blanks : List Char} (h : Tight cs)
    (blank : ∀ c ∈ blanks, isBlank c = true) : trim (cs ++ blanks) = cs := by
  cases cs with
  | nil =>
    have nothing : trimStart blanks = [] := List.dropWhile_eq_nil_iff.mpr blank
    rw [trim, List.nil_append, nothing]
    rfl
  | cons c cs =>
    rw [trim, trimStart_of_head (by simpa using h.1), trimEnd_append h.2 blank]

theorem tight_trim (cs : List Char) : Tight (trim cs) := by
  have first : ∀ c ∈ (trimStart cs).head?, isBlank c = false := by
    intro c hc
    have := List.head?_dropWhile_not isBlank cs
    rw [trimStart] at hc
    rw [Option.mem_def.mp hc] at this
    simpa using this
  have kept : trim cs <+: trimStart cs := by
    rw [trim, trimEnd, ← List.reverse_suffix, List.reverse_reverse]
    exact List.dropWhile_suffix isBlank
  refine ⟨fun c hc => ?_, fun c hc => ?_⟩
  · obtain ⟨rest, e⟩ := kept
    refine first c ?_
    rw [← e, List.head?_append, Option.mem_def.mp hc]
    rfl
  · have := List.head?_dropWhile_not isBlank (trimStart cs).reverse
    rw [trim, trimEnd, List.getLast?_reverse] at hc
    rw [Option.mem_def.mp hc] at this
    simpa using this

theorem trim_eq_self_iff {cs : List Char} : trim cs = cs ↔ Tight cs := by
  constructor
  · intro h
    exact h ▸ tight_trim cs
  · intro h
    have := @Tight.trim_append cs [] h (by simp)
    rwa [List.append_nil] at this

/-- Blanks before a text are dropped. -/
theorem trim_append_of_blank {blanks : List Char} (blank : ∀ c ∈ blanks, isBlank c = true)
    (cs : List Char) : trim (blanks ++ cs) = trim cs := by
  rw [trim, trimStart, List.dropWhile_append_of_pos blank]
  rfl

/-- Trimming takes blanks from both ends. -/
theorem exists_trim (cs : List Char) : ∃ before after, cs = before ++ (trim cs ++ after) ∧
    (∀ c ∈ before, isBlank c = true) ∧ ∀ c ∈ after, isBlank c = true := by
  refine ⟨cs.takeWhile isBlank, ((trimStart cs).reverse.takeWhile isBlank).reverse, ?_, ?_, ?_⟩
  · have back := congrArg List.reverse
      (@List.takeWhile_append_dropWhile _ isBlank (trimStart cs).reverse)
    rw [List.reverse_append, List.reverse_reverse] at back
    rw [trim, trimEnd, back, trimStart, List.takeWhile_append_dropWhile]
  · exact fun c hc => List.mem_takeWhile_imp hc
  · exact fun c hc => List.mem_takeWhile_imp (List.mem_reverse.mp hc)

/-- Blanks are written as they are. -/
theorem encodeChars_of_blank {cs : List Char} (blank : ∀ c ∈ cs, isBlank c = true) :
    encodeChars cs = cs := by
  induction cs with
  | nil => rfl
  | cons c cs ih =>
    obtain ⟨here, later⟩ := List.forall_mem_cons.mp blank
    have plain : encodeChar c = [c] := by
      unfold encodeChar
      split
      iterate 5 exact absurd here (by decide)
      rfl
    rw [encodeChars_cons, plain, ih later]
    rfl

/-- References begin and end with characters that are no blanks. -/
theorem Tight.encodeChars {cs : List Char} (h : Tight cs) : Tight (encodeChars cs) := by
  have amp : isBlank '&' = false := by decide
  have semicolon : isBlank ';' = false := by decide
  constructor
  · cases cs with
    | nil => simp [Text.encodeChars]
    | cons c cs =>
      rw [encodeChars_cons]
      rcases encodeChar_cases c with ⟨e, -⟩ | ⟨name, e, -⟩
      · simpa [e] using h.1
      · simpa [e] using amp
  · rcases List.eq_nil_or_concat cs with rfl | ⟨front, c, rfl⟩
    · simp [Text.encodeChars]
    · rw [List.concat_eq_append] at h ⊢
      have split : Text.encodeChars (front ++ [c]) = Text.encodeChars front ++ encodeChar c := by
        simp [Text.encodeChars]
      rw [split]
      rcases encodeChar_cases c with ⟨e, -⟩ | ⟨name, e, -⟩
      · simpa [e] using h.2
      · rw [e, ← List.cons_append, ← List.append_assoc, List.getLast?_append]
        simpa using semicolon

/-- Trimming a written text, with any blanks behind it, is writing the trimmed text. -/
theorem trim_encodeChars_append (cs : List Char) {blanks : List Char}
    (blank : ∀ c ∈ blanks, isBlank c = true) :
    trim (encodeChars cs ++ blanks) = encodeChars (trim cs) := by
  obtain ⟨before, after, split, front, back⟩ := exists_trim cs
  have written : encodeChars cs = before ++ (encodeChars (trim cs) ++ after) := by
    have apart (xs ys : List Char) : encodeChars (xs ++ ys) = encodeChars xs ++ encodeChars ys :=
      List.flatMap_append
    have parts := congrArg encodeChars split
    rwa [apart, apart, encodeChars_of_blank front, encodeChars_of_blank back] at parts
  have behind : ∀ c ∈ after ++ blanks, isBlank c = true :=
    List.forall_mem_append.mpr ⟨back, blank⟩
  rw [written, List.append_assoc, List.append_assoc, trim_append_of_blank front]
  exact (tight_trim cs).encodeChars.trim_append behind

end QueryMarkup.Text
