import Mathlib.Data.List.Sort
import QueryMarkup.Proofs.Diagnostic.Suppression

/-!
# What is shown is a cover

Of diagnostics that start close together a cover takes no two, and whatever it leaves out
starts close to something more important that it takes. There is only one cover, because what
it does with a diagnostic is settled by the more important ones: a diagnostic that is left out
leaves nothing else out. Deduplication shows the cover in source order.
-/
namespace QueryMarkup.Diagnostics

/-- How far apart two diagnostics start. -/
def gap (a b : Diagnostic) : Nat :=
  (a.range.start - b.range.start) + (b.range.start - a.range.start)

/-- `a` is more important than `b`: its kind comes earlier, or else it starts earlier, or else it
was reported earlier. -/
def Outranks (a b : Numbered) : Prop :=
  a.1.kind.priority < b.1.kind.priority ∨ a.1.kind.priority = b.1.kind.priority ∧
    (a.1.range.start < b.1.range.start ∨ a.1.range.start = b.1.range.start ∧ a.2 < b.2)

/-- Some of the reports: no two that start close together, and next to every report that is not
taken a more important one. -/
structure Cover (proximity : Nat) (ds : List Diagnostic) (chosen : Set Numbered) : Prop where
  part : ∀ d ∈ chosen, d ∈ ds.zipIdx
  apart : ∀ a ∈ chosen, ∀ b ∈ chosen, a ≠ b → proximity < gap a.1 b.1
  covers : ∀ d ∈ ds.zipIdx, d ∉ chosen → ∃ k ∈ chosen, gap k.1 d.1 ≤ proximity ∧ Outranks k d

section
variable {proximity : Nat} {ds : List Diagnostic} {chosen other : Set Numbered}

theorem clash_iff {a b : Diagnostic} : clash proximity a b = true ↔ gap a b ≤ proximity := by
  simp only [clash, gap, Bool.and_eq_true, decide_eq_true_eq]
  omega

theorem clash_eq_false_iff {a b : Diagnostic} : clash proximity a b = false ↔ proximity < gap a b := by
  rw [← Bool.not_eq_true, clash_iff, Nat.not_le]

theorem outranks_wellFounded : WellFounded Outranks := by
  have lex : WellFounded (Prod.Lex Nat.lt (Prod.Lex Nat.lt Nat.lt)) :=
    Nat.lt_wfRel.wf.prod_lex (Nat.lt_wfRel.wf.prod_lex Nat.lt_wfRel.wf)
  refine Subrelation.wf ?_
    (InvImage.wf (fun d : Numbered => (d.1.kind.priority, d.1.range.start, d.2)) lex)
  rintro a b (kind | ⟨kind, start | ⟨start, number⟩⟩)
  · exact .left _ _ kind
  · simp only [InvImage, kind]
    exact .right _ (.left _ _ start)
  · simp only [InvImage, kind, start]
    exact .right _ (.right _ number)

/-! ## There is one cover -/

/-- What one cover takes another one takes, as far as they agree about all that is more important. -/
theorem Cover.mem_of_mem (h : Cover proximity ds chosen) (h' : Cover proximity ds other) {d : Numbered}
    (agree : ∀ k, Outranks k d → (k ∈ chosen ↔ k ∈ other)) (hd : d ∈ chosen) : d ∈ other := by
  by_contra absent
  obtain ⟨k, hk, near, rank⟩ := h'.covers d (h.part d hd) absent
  have distinct : k ≠ d := by
    rintro rfl
    unfold Outranks at rank
    omega
  have far := h.apart k ((agree k rank).mpr hk) d hd distinct
  omega

theorem Cover.unique (h : Cover proximity ds chosen) (h' : Cover proximity ds other) : chosen = other := by
  ext d
  -- what outranks a diagnostic settles whether it is taken
  induction d using outranks_wellFounded.induction with
  | _ d agree =>
    constructor
    · exact h.mem_of_mem h' agree
    · exact h'.mem_of_mem h fun k rank => (agree k rank).symm

/-- Diagnostics that all start far apart are their own cover. -/
theorem cover_of_gaps (far : ds.Pairwise fun a b => a.range.start + proximity < b.range.start) :
    Cover proximity ds {d | d ∈ ds.zipIdx} where
  part := fun _ hd => hd
  apart := by
    have numbered : ds.zipIdx.Pairwise fun a b => proximity < gap a.1 b.1 := by
      rw [← List.pairwise_map (f := Prod.fst) (R := fun a b => proximity < gap a b), List.zipIdx_map_fst]
      apply far.imp
      intro a b rises
      unfold gap
      omega
    intro a ha b hb distinct
    have symm : Std.Symm fun a b : Numbered => proximity < gap a.1 b.1 :=
      ⟨fun a b h => by unfold gap at h ⊢; omega⟩
    exact numbered.forall ha hb distinct
  covers := fun _ hd absent => absurd hd absent

end

/-! ## Deduplication shows it -/

section
variable (proximity : Nat) (ds : List Diagnostic)

/-- The cover in source order. -/
def kept : List Numbered := (shown proximity ds).mergeSort inOrder

variable {proximity ds}

theorem deduplicated_eq_kept : deduplicated proximity ds = (kept proximity ds).map (·.1) := rfl

theorem mem_kept {d : Numbered} : d ∈ kept proximity ds ↔ d ∈ shown proximity ds := List.mem_mergeSort

theorem apart_shown : Apart proximity (shown proximity ds) := by
  have none : Apart proximity [] := .nil
  exact none.foldl _

theorem shown_subset : shown proximity ds ⊆ ds.zipIdx := by
  intro d hd
  rcases mem_of_mem_foldl_keep hd with none | offered
  · cases none
  · exact List.mem_mergeSort.mp offered

/-- Two reports with the same number are the same. -/
theorem eq_of_number {a b : Numbered} (ha : a ∈ ds.zipIdx) (hb : b ∈ ds.zipIdx) (same : a.2 = b.2) :
    a = b := by
  obtain ⟨a, n⟩ := a
  obtain ⟨b, m⟩ := b
  rw [List.mk_mem_zipIdx_iff_getElem?] at ha hb
  obtain rfl : n = m := same
  rw [ha] at hb
  exact congrArg (·, n) (Option.some.inj hb)

theorem cover_shown : Cover proximity ds {d | d ∈ shown proximity ds} where
  part := fun d hd => shown_subset hd
  apart := by
    intro a ha b hb distinct
    have symm : Std.Symm fun a b : Numbered => clash proximity a.1 b.1 = false :=
      ⟨fun a b h => clash_comm b.1 a.1 ▸ h⟩
    exact clash_eq_false_iff.mp (apart_shown.forall ha hb distinct)
  covers := by
    intro d hd absent
    have sorted := List.pairwise_mergeSort prior_trans prior_total ds.zipIdx
    rcases @foldl_keep_covers proximity [] _ sorted (by simp) d (List.mem_mergeSort.mpr hd) with
      here | ⟨k, hk, near, least⟩
    · exact absurd here absent
    · refine ⟨k, hk, clash_iff.mp near, ?_⟩
      have number : k.2 ≠ d.2 := by
        intro same
        rw [eq_of_number (shown_subset hk) hd same] at hk
        exact absent hk
      have least := prior_iff.mp least
      unfold Outranks
      omega

theorem nodup_shown : (shown proximity ds).Nodup := by
  apply apart_shown.imp
  rintro a b far rfl
  have gap := clash_eq_false_iff.mp far
  simp [Diagnostics.gap] at gap

theorem nodup_kept : (kept proximity ds).Nodup :=
  (List.mergeSort_perm _ inOrder).nodup_iff.mpr nodup_shown

theorem inOrder_iff {a b : Numbered} : inOrder a b = true ↔ a.1.range.start < b.1.range.start ∨
    a.1.range.start = b.1.range.start ∧ a.2 ≤ b.2 := by
  simp [inOrder]

/-- What is shown starts one behind the other, further apart than the proximity. -/
theorem pairwise_kept :
    (kept proximity ds).Pairwise fun a b => a.1.range.start + proximity < b.1.range.start := by
  have sorted : (kept proximity ds).Pairwise fun a b => inOrder a b = true := by
    apply List.pairwise_mergeSort
    · intro a b c hab hbc
      rw [inOrder_iff] at hab hbc ⊢
      omega
    · intro a b
      rw [Bool.or_eq_true, inOrder_iff, inOrder_iff]
      omega
  refine (sorted.and nodup_kept).imp_of_mem fun {a b} ha hb h => ?_
  obtain ⟨order, distinct⟩ := h
  have far := cover_shown.apart a (mem_kept.mp ha) b (mem_kept.mp hb) distinct
  rw [inOrder_iff] at order
  unfold gap at far
  omega

theorem pairwise_deduplicated : (deduplicated proximity ds).Pairwise fun a b =>
    a.range.start + proximity < b.range.start := List.pairwise_map.mpr pairwise_kept

/-- Diagnostics that start one behind the other and far apart are shown as they are. -/
theorem deduplicated_of_gaps (far : ds.Pairwise fun a b => a.range.start + proximity < b.range.start) :
    deduplicated proximity ds = ds := by
  have all : {d | d ∈ shown proximity ds} = {d | d ∈ ds.zipIdx} := cover_shown.unique (cover_of_gaps far)
  have same : kept proximity ds = ds.zipIdx := by
    have irrefl : Std.Irrefl fun a b : Numbered => a.1.range.start + proximity < b.1.range.start :=
      ⟨fun a => by omega⟩
    have antisymm : Std.Antisymm fun a b : Numbered => a.1.range.start + proximity < b.1.range.start :=
      ⟨fun a b hab hba => by omega⟩
    apply pairwise_kept.eq_of_mem_iff
    · rwa [← List.pairwise_map (f := Prod.fst)
        (R := fun a b : Diagnostic => a.range.start + proximity < b.range.start), List.zipIdx_map_fst]
    · intro d
      rw [mem_kept]
      exact Set.ext_iff.mp all d
  rw [deduplicated_eq_kept, same, List.zipIdx_map_fst]

end

/-- What is shown are some of the reports, one behind the other and further apart than the
proximity. They are the only cover of the reports, so a report is left out exactly where a more
important one that is shown starts close to it, and nothing more is left out the second time. -/
theorem deduplicated_cover (proximity : Nat) (ds : List Diagnostic) :
    (deduplicated proximity ds).Subperm ds ∧
      (deduplicated proximity ds).Pairwise (fun a b => a.range.start + proximity < b.range.start) ∧
      (∃ kept : List Numbered, deduplicated proximity ds = kept.map (·.1) ∧ kept.Nodup ∧
        Cover proximity ds {d | d ∈ kept} ∧
        ∀ chosen, Cover proximity ds chosen → chosen = {d | d ∈ kept}) ∧
      deduplicated proximity (deduplicated proximity ds) = deduplicated proximity ds := by
  have members : {d | d ∈ kept proximity ds} = {d | d ∈ shown proximity ds} :=
    Set.ext fun d => mem_kept
  refine ⟨?_, pairwise_deduplicated, ⟨kept proximity ds, deduplicated_eq_kept, nodup_kept, ?_, ?_⟩,
    deduplicated_of_gaps pairwise_deduplicated⟩
  · obtain ⟨part, perm, sublist⟩ : (kept proximity ds).Subperm ds.zipIdx :=
      List.subperm_of_subset nodup_kept fun d hd => shown_subset (mem_kept.mp hd)
    have first := sublist.map Prod.fst
    rw [List.zipIdx_map_fst] at first
    exact ⟨part.map Prod.fst, perm.map Prod.fst, first⟩
  · rw [members]
    exact cover_shown
  · intro chosen cover
    rw [members]
    exact cover.unique cover_shown

end QueryMarkup.Diagnostics
