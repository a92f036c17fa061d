import Mathlib.Data.List.Pairwise
import QueryMarkup.Proofs.Sync.Reading

/-!
# What deduplication hides

Of the diagnostics that start close together the most important one is shown. Whatever is
not shown starts close to something that is shown and no less important, so an error is
hidden only by a warning of a more important kind.
-/
namespace QueryMarkup

theorem DiagnosticKind.getElem?_priority (kind : DiagnosticKind) : all[kind.priority]? = some kind := by
  cases kind <;> rfl

theorem DiagnosticKind.priority_injective {k l : DiagnosticKind} (h : k.priority = l.priority) :
    k = l := by
  have same := getElem?_priority k
  rw [h, getElem?_priority l] at same
  exact (Option.some.inj same).symm

theorem Diagnostic.isError_eq_not_isWarning (d : Diagnostic) : d.isError = !d.isWarning := by
  rw [isError, isWarning]
  cases d.severity <;> rfl

/-- A warning and an error are of different kinds. -/
theorem Diagnostic.kind_ne {w e : Diagnostic} (warning : w.isWarning = true) (error : e.isError = true) :
    w.kind ≠ e.kind := by
  intro same
  have severity : w.isWarning = e.isWarning := by
    simp only [isWarning, Diagnostic.severity, same]
  rw [isError_eq_not_isWarning, ← severity, warning] at error
  cases error

namespace Diagnostics

variable {proximity : Nat}

/-! ## The order of importance -/

theorem prior_iff {a b : Numbered} : prior a b = true ↔ a.1.kind.priority < b.1.kind.priority ∨
    a.1.kind.priority = b.1.kind.priority ∧ (a.1.range.start < b.1.range.start ∨
      a.1.range.start = b.1.range.start ∧ a.2 ≤ b.2) := by
  simp [prior]

theorem prior_trans (a b c : Numbered) (hab : prior a b = true) (hbc : prior b c = true) :
    prior a c = true := by
  rw [prior_iff] at hab hbc ⊢
  omega

theorem prior_total (a b : Numbered) : (prior a b || prior b a) = true := by
  rw [Bool.or_eq_true, prior_iff, prior_iff]
  omega

theorem clash_comm (a b : Diagnostic) : clash proximity a b = clash proximity b a := Bool.and_comm _ _

/-! ## One diagnostic after the other -/

section
variable {kept ds : List Numbered} {d : Numbered}

theorem subset_keep (proximity : Nat) (kept : List Numbered) (d : Numbered) :
    kept ⊆ keep proximity kept d := by
  unfold keep
  split
  · exact List.Subset.refl kept
  · exact List.subset_append_left kept [d]

theorem subset_foldl_keep (proximity : Nat) (kept ds : List Numbered) :
    kept ⊆ ds.foldl (keep proximity) kept := by
  induction ds generalizing kept with
  | nil => exact List.Subset.refl kept
  | cons d ds ih => exact List.Subset.trans (subset_keep proximity kept d) (ih _)

/-- Only what is offered is kept. -/
theorem mem_of_mem_foldl_keep {k : Numbered} (h : k ∈ ds.foldl (keep proximity) kept) :
    k ∈ kept ∨ k ∈ ds := by
  induction ds generalizing kept with
  | nil => exact .inl h
  | cons d ds ih =>
    rcases ih h with hk | hk
    · unfold keep at hk
      split at hk
      · exact .inl hk
      · rcases List.mem_append.mp hk with hk | hk
        · exact .inl hk
        · exact .inr (List.mem_singleton.mp hk ▸ List.mem_cons_self)
    · exact .inr (List.mem_cons_of_mem d hk)

/-- No two of some diagnostics start close together. -/
def Apart (proximity : Nat) (kept : List Numbered) : Prop :=
  kept.Pairwise fun a b => clash proximity a.1 b.1 = false

theorem Apart.keep (h : Apart proximity kept) (d : Numbered) : Apart proximity (keep proximity kept d) := by
  unfold Diagnostics.keep
  split
  · exact h
  · rename_i free
    refine List.pairwise_append.mpr ⟨h, List.pairwise_singleton _ _, fun k hk e he => ?_⟩
    rw [List.mem_singleton.mp he, Bool.eq_false_iff]
    exact fun near => free (List.any_eq_true.mpr ⟨k, hk, near⟩)

theorem Apart.foldl (h : Apart proximity kept) (ds : List Numbered) :
    Apart proximity (ds.foldl (Diagnostics.keep proximity) kept) := by
  induction ds generalizing kept with
  | nil => exact h
  | cons d ds ih => exact ih (h.keep d)

/-- What is offered is kept, unless it clashes with something kept before. -/
theorem keep_covers (proximity : Nat) (kept : List Numbered) (d : Numbered) :
    d ∈ keep proximity kept d ∨ ∃ k ∈ kept, clash proximity k.1 d.1 = true := by
  unfold keep
  split
  · rename_i near
    exact .inr (List.any_eq_true.mp near)
  · exact .inl (List.mem_append_right kept List.mem_cons_self)

/-- Where the more important comes first, whatever is dropped clashes with something kept
that is at least as important. -/
theorem foldl_keep_covers (sorted : ds.Pairwise fun a b => prior a b = true)
    (first : ∀ k ∈ kept, ∀ d ∈ ds, prior k d = true) :
    ∀ d ∈ ds, d ∈ ds.foldl (keep proximity) kept ∨
      ∃ k ∈ ds.foldl (keep proximity) kept, clash proximity k.1 d.1 = true ∧ prior k d = true := by
  induction ds generalizing kept with
  | nil => simp
  | cons d ds ih =>
    obtain ⟨least, sorted⟩ := List.pairwise_cons.mp sorted
    have stays := subset_foldl_keep proximity (keep proximity kept d) ds
    have next : ∀ k ∈ keep proximity kept d, ∀ e ∈ ds, prior k e = true := by
      intro k hk e he
      rcases @mem_of_mem_foldl_keep proximity kept [d] k hk with hk | hk
      · exact first k hk e (List.mem_cons_of_mem d he)
      · exact List.mem_singleton.mp hk ▸ least e he
    refine List.forall_mem_cons.mpr ⟨?_, ih sorted next⟩
    rcases keep_covers proximity kept d with here | ⟨k, hk, near⟩
    · exact .inl (stays here)
    · exact .inr ⟨k, stays (subset_keep proximity kept d hk), near, first k hk d List.mem_cons_self⟩

end

/-! ## What is shown -/

/-- What deduplication keeps, the most important first. -/
def shown (proximity : Nat) (ds : List Diagnostic) : List Numbered :=
  (ds.zipIdx.mergeSort prior).foldl (keep proximity) []

section
variable {ds : List Diagnostic} {d e : Diagnostic}

theorem mem_deduplicated : d ∈ deduplicated proximity ds ↔ ∃ n, (d, n) ∈ shown proximity ds := by
  have perm := List.mergeSort_perm (shown proximity ds) inOrder
  constructor
  · intro h
    obtain ⟨k, hk, rfl⟩ := List.mem_map.mp h
    exact ⟨k.2, perm.mem_iff.mp hk⟩
  · rintro ⟨n, hn⟩
    exact List.mem_map.mpr ⟨(d, n), perm.mem_iff.mpr hn, rfl⟩

theorem deduplicated_subset (proximity : Nat) (ds : List Diagnostic) : deduplicated proximity ds ⊆ ds := by
  intro d hd
  obtain ⟨n, hn⟩ := mem_deduplicated.mp hd
  rcases mem_of_mem_foldl_keep hn with none | offered
  · cases none
  · exact List.fst_mem_of_mem_zipIdx (List.mem_mergeSort.mp offered)

/-- Two shown diagnostics of different kinds do not start close together. -/
theorem not_clash_of_shown (hd : d ∈ deduplicated proximity ds) (he : e ∈ deduplicated proximity ds)
    (kinds : d.kind ≠ e.kind) : clash proximity d e = false := by
  obtain ⟨n, hn⟩ := mem_deduplicated.mp hd
  obtain ⟨m, hm⟩ := mem_deduplicated.mp he
  have none : Apart proximity [] := .nil
  have apart : Apart proximity (shown proximity ds) := none.foldl _
  have symm : Std.Symm fun a b : Numbered => clash proximity a.1 b.1 = false :=
    ⟨fun a b h => clash_comm b.1 a.1 ▸ h⟩
  exact apart.forall hn hm fun same => kinds (congrArg (fun k : Numbered => k.1.kind) same)

/-- What is not shown starts close to something that is shown and no less important. -/
theorem deduplicated_covers (h : d ∈ ds) : d ∈ deduplicated proximity ds ∨
    ∃ k ∈ deduplicated proximity ds, clash proximity k d = true ∧
      k.kind.priority ≤ d.kind.priority := by
  obtain ⟨n, hn⟩ := List.mem_iff_getElem?.mp h
  have offered : (d, n) ∈ ds.zipIdx.mergeSort prior :=
    List.mem_mergeSort.mpr (List.mk_mem_zipIdx_iff_getElem?.mpr hn)
  have sorted := List.pairwise_mergeSort prior_trans prior_total ds.zipIdx
  rcases @foldl_keep_covers proximity [] _ sorted (by simp) (d, n) offered with
    here | ⟨k, hk, near, least⟩
  · exact .inl (mem_deduplicated.mpr ⟨n, here⟩)
  · refine .inr ⟨k.1, mem_deduplicated.mpr ⟨k.2, hk⟩, near, ?_⟩
    rcases prior_iff.mp least with lt | ⟨eq, -⟩
    · exact Nat.le_of_lt lt
    · exact Nat.le_of_eq eq

/-- A warning of a more important kind is shown close to where a diagnostic starts. -/
def Hidden (proximity : Nat) (ds : List Diagnostic) (d : Diagnostic) : Prop :=
  ∃ w ∈ deduplicated proximity ds,
    w.isWarning = true ∧ clash proximity w d = true ∧ w.kind.suppresses d.kind = true

/-- Errors are left after deduplication exactly when not all of them are hidden by warnings. -/
theorem hasErrors_deduplicated_iff (proximity : Nat) (ds : List Diagnostic) :
    hasErrors (deduplicated proximity ds) = true ↔
      ∃ e ∈ ds, e.isError = true ∧ ¬ Hidden proximity ds e := by
  rw [hasErrors, List.any_eq_true]
  constructor
  · rintro ⟨e, he, error⟩
    refine ⟨e, deduplicated_subset proximity ds he, error, ?_⟩
    rintro ⟨w, hw, warning, near, -⟩
    -- the warning and the error would both be shown
    rw [not_clash_of_shown hw he (Diagnostic.kind_ne warning error)] at near
    cases near
  · rintro ⟨e, he, error, seen⟩
    rcases deduplicated_covers he with here | ⟨k, hk, near, least⟩
    · exact ⟨e, here, error⟩
    · cases severity : k.isError with
      | true => exact ⟨k, hk, severity⟩
      | false =>
        rw [k.isError_eq_not_isWarning, Bool.not_eq_false'] at severity
        have less : k.kind.priority < e.kind.priority := Nat.lt_of_le_of_ne least fun same =>
          Diagnostic.kind_ne severity error (DiagnosticKind.priority_injective same)
        exact absurd ⟨k, hk, severity, near, decide_eq_true less⟩ seen

/-- Where there is an error, an error or a warning is shown. -/
theorem shows_of_isError {e : Diagnostic} (he : e ∈ ds) (error : e.isError = true) :
    hasErrors (deduplicated proximity ds) = true ∨ hasWarnings (deduplicated proximity ds) = true := by
  by_cases hidden : Hidden proximity ds e
  · obtain ⟨w, hw, warning, -, -⟩ := hidden
    exact .inr (List.any_eq_true.mpr ⟨w, hw, warning⟩)
  · exact .inl ((hasErrors_deduplicated_iff proximity ds).mpr ⟨e, he, error, hidden⟩)

end

end Diagnostics

/-! ## The check of a document -/

namespace Session

/-- All that is found about a text: by reading it, and by the checks of the nodes that stand
in it. -/
def found (s : Session) : List Diagnostic :=
  s.parseDiagnostics ++ s.tree.nodes.flatMap nodeDiagnostics

end Session

namespace Document

open Diagnostics

theorem check_eq (text : String) (settings : Settings) :
    check text settings = deduplicated settings.proximity (opened text settings).found := by
  rw [check, Session.diagnostics, opened, Session.settings_reparse]
  rfl

/-- Of some diagnostics an error is left after deduplication exactly when a warning of a more
important kind does not hide every error. So a document in which something is wrong passes
the check exactly when such warnings hide all of its errors, and never where warnings count. -/
theorem isValid_check_iff :
    (∀ proximity ds, hasErrors (deduplicated proximity ds) = true ↔
        ∃ e ∈ ds, e.isError = true ∧ ¬ Hidden proximity ds e) ∧
      ∀ text settings, let found := (opened text settings).found
        (isValid (check text settings) false = false ↔
          ∃ e ∈ found, e.isError = true ∧ ¬ Hidden settings.proximity found e) ∧
        ((∃ e ∈ found, e.isError = true) → isValid (check text settings) true = false) := by
  refine ⟨hasErrors_deduplicated_iff, fun text settings => ⟨?_, ?_⟩⟩
  · rw [isValid, check_eq, Bool.false_and, Bool.not_false, Bool.and_true, Bool.not_eq_false',
      hasErrors_deduplicated_iff]
  · rintro ⟨e, he, error⟩
    rw [isValid, check_eq, Bool.true_and]
    rcases @shows_of_isError settings.proximity _ e he error with shown | shown
    · rw [shown]
      rfl
    · rw [shown, Bool.not_true, Bool.and_false]

/-- A text where none is allowed hides that the name of its element is missing. -/
theorem isValid_check_hidden :
    let text := "<fetch><entity>x</entity></fetch>"
    hasErrors (opened text {}).found = true ∧
      hasErrors (deduplicated ({} : Settings).proximity (opened text {}).found) = false ∧
      isValid (check text {}) false = true := by
  intro text
  have found : (opened text {}).found =
      [.report .unexpectedText ⟨15, 16, by decide⟩,
        .new .missingAttribute ⟨8, 14, by decide⟩ "`name` is required"] := by decide +kernel
  have sorted : (opened text {}).found.zipIdx.mergeSort prior = (opened text {}).found.zipIdx := by
    rw [found]
    exact List.mergeSort_of_pairwise (by decide)
  have shown : deduplicated ({} : Settings).proximity (opened text {}).found =
      [.report .unexpectedText ⟨15, 16, by decide⟩] := by
    rw [deduplicated, sorted, found]
    exact congrArg _ (List.mergeSort_singleton _)
  refine ⟨?_, ?_, ?_⟩
  · rw [found]
    decide
  · rw [shown]
    decide
  · rw [check_eq, shown]
    decide

end Document

end QueryMarkup
