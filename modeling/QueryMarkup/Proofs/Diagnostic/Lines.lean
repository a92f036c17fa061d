import Mathlib.Algebra.GroupWithZero.Nat
import Mathlib.Data.List.Basic
import QueryMarkup.Diagnostic.Printer

/-!
# The lines of compact diagnostics

A diagnostic with a place in a text is printed as its place, its severity and its message, and then
a line break. Whatever else breaks the line is in the message (`Diagnostics.breaks_print`).
-/
namespace QueryMarkup

/-- How many line breaks a text has. -/
def breaks (s : String) : Nat := s.toList.count '\n'

/-- No line break is in the text. -/
def OneLine (s : String) : Prop := '\n' ∉ s.toList

instance (s : String) : Decidable (OneLine s) := inferInstanceAs (Decidable ('\n' ∉ s.toList))

theorem oneLine_iff {s : String} : OneLine s ↔ breaks s = 0 := List.count_eq_zero.symm

theorem breaks_append (s r : String) : breaks (s ++ r) = breaks s + breaks r := by
  rw [breaks, String.toList_append, List.count_append]
  rfl

theorem breaks_join (parts : List String) : breaks (String.join parts) = (parts.map breaks).sum := by
  rw [breaks, String.toList_join, List.count_flatMap]
  rfl

theorem OneLine.append {s r : String} (hs : OneLine s) (hr : OneLine r) : OneLine (s ++ r) := by
  rw [OneLine, String.toList_append, List.mem_append, not_or]
  exact ⟨hs, hr⟩

theorem OneLine.intercalate {sep : String} (hs : OneLine sep) {parts : List String}
    (h : ∀ s ∈ parts, OneLine s) : OneLine (sep.intercalate parts) := by
  induction parts with
  | nil => exact List.not_mem_nil
  | cons s parts ih =>
    obtain ⟨here, later⟩ := List.forall_mem_cons.mp h
    cases parts with
    | nil =>
      rw [String.intercalate_singleton]
      exact here
    | cons r parts =>
      rw [String.intercalate_cons_cons]
      exact (here.append hs).append (ih later)

/-- Numbers are written with digits. -/
theorem oneLine_toString (n : Nat) : OneLine (toString n) := by
  intro broken
  have digits : '\n' ∈ Nat.toDigits 10 n := Nat.toList_repr ▸ broken
  have digit := Nat.isDigit_of_mem_toDigits (by decide) (by decide) digits
  cases digit

theorem Severity.oneLine_name (severity : Severity) : OneLine severity.name := by
  cases severity <;> decide

section
variable {path : Option String}

/-- The place and the severity are on one line, so only the message has line breaks of its own. -/
theorem Diagnostic.breaks_compactLine (plain : ∀ name ∈ path, OneLine name) (text : String)
    (d : Diagnostic) : breaks (d.compactLine (some text) path) = breaks d.message + 1 := by
  have named : breaks ((path.map (· ++ ":")).getD "") = 0 := by
    cases path with
    | none => rfl
    | some name =>
      have own : breaks name = 0 := oneLine_iff.mp (plain name rfl)
      change breaks (name ++ ":") = 0
      rw [breaks_append, own]
      rfl
  have number (n : Nat) : breaks (toString n) = 0 := oneLine_iff.mp (oneLine_toString n)
  have severity : breaks d.severity.name = 0 := oneLine_iff.mp d.severity.oneLine_name
  have signs : breaks ":" = 0 ∧ breaks ": " = 0 ∧ breaks "\n" = 1 := by decide
  obtain ⟨colon, blank, last⟩ := signs
  change breaks (_ ++ _ ++ _ ++ _ ++ _ ++ _ ++ _ ++ _ ++ _) = _
  have written (s : String) : toString s = s := rfl
  simp only [breaks_append, number, written, named, colon, blank, severity, last, Nat.zero_add]

namespace Diagnostics

/-- A compact printer that has the text prints as many lines as there are diagnostics, and beside
these as many as their messages break into. -/
theorem breaks_print (plain : ∀ name ∈ path, OneLine name) (text : String) (colored : Bool)
    (ds : List Diagnostic) : let printer : Printer := ⟨some text, path, colored, true⟩
    breaks (printer.print ds) = ds.length + (ds.map fun d => breaks d.message).sum := by
  change breaks (String.join (ds.map fun d => d.compactLine (some text) path)) = _
  rw [breaks_join, List.map_map]
  induction ds with
  | nil => rfl
  | cons d ds ih =>
    rw [List.map_cons, List.map_cons, List.sum_cons, List.sum_cons, ih, Function.comp_apply,
      d.breaks_compactLine plain text, List.length_cons]
    omega

end Diagnostics

end

end QueryMarkup
