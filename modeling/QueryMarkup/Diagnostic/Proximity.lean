import QueryMarkup.Diagnostic.Basic

/-!
Diagnostics that would overlap when they are shown. Of those that start close to
each other only the most important is kept: the one with the earlier kind, then
the earlier start, then the earlier report.
-/
namespace QueryMarkup.Diagnostics

/-- A diagnostic with its place among the reports. -/
abbrev Numbered := Diagnostic × Nat

/-- `a` is at least as important as `b`. -/
def prior (a b : Numbered) : Bool :=
  let ka := a.1.kind.priority
  let kb := b.1.kind.priority
  decide (ka < kb) || ka == kb &&
    (decide (a.1.range.start < b.1.range.start) ||
      a.1.range.start == b.1.range.start && decide (a.2 ≤ b.2))

/-- `a` starts before `b`, or at the same place and was reported no later. -/
def inOrder (a b : Numbered) : Bool :=
  decide (a.1.range.start < b.1.range.start) ||
    a.1.range.start == b.1.range.start && decide (a.2 ≤ b.2)

/-- The starts of two diagnostics are at most `proximity` apart. -/
def clash (proximity : Nat) (a b : Diagnostic) : Bool :=
  decide (a.range.start ≤ b.range.start + proximity) &&
    decide (b.range.start ≤ a.range.start + proximity)

/-- Adds a diagnostic to those that are kept, unless it clashes with one of them. -/
def keep (proximity : Nat) (kept : List Numbered) (d : Numbered) : List Numbered :=
  if kept.any fun k => clash proximity k.1 d.1 then kept else kept ++ [d]

/-- The diagnostics that are shown, in source order. -/
def deduplicated (proximity : Nat) (ds : List Diagnostic) : List Diagnostic :=
  let kept := (ds.zipIdx.mergeSort prior).foldl (keep proximity) []
  (kept.mergeSort inOrder).map (·.1)

def hasErrors (ds : List Diagnostic) : Bool := ds.any (·.isError)

def hasWarnings (ds : List Diagnostic) : Bool := ds.any (·.isWarning)

end QueryMarkup.Diagnostics
