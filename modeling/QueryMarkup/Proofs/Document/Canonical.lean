import QueryMarkup.Proofs.Document.Settling
import QueryMarkup.Proofs.Document.Wellformed
import QueryMarkup.Proofs.Markup.Places
import QueryMarkup.Proofs.Tree.Preorder

/-!
# Canonical form

What is written of a text is determined by its content: under each element its children sorted
by their kinds, each with its attributes sorted as in the table. Contents that are alike are
written in the same way.
-/
namespace QueryMarkup

open Markup

/-! ## Attributes in order -/

theorem filter_eraseDups (p : String → Bool) (l : List String) :
    l.eraseDups.filter p = (l.filter p).eraseDups := by
  induction size : l.length using Nat.strong_induction_on generalizing l with
  | _ n ih =>
    cases l with
    | nil => rfl
    | cons x l =>
      have fewer : (l.filter fun y => !y == x).length < n := by
        have := List.length_filter_le (fun y => !y == x) l
        rw [← size, List.length_cons]
        omega
      rw [List.eraseDups_cons, List.filter_cons, ih _ fewer _ rfl, List.filter_filter,
        List.filter_cons]
      split
      · rw [List.eraseDups_cons, List.filter_filter]
        simp only [Bool.and_comm]
      · rename_i out
        congr 1
        refine List.filter_congr fun y _ => ?_
        by_cases same : y = x <;> simp [same, out]

namespace Markup.StartTag

/-- What the attribute of a name holds when the element keeps some texts. -/
def value (start : StartTag) (texts : List String) (name : String) : String :=
  if name = contentName then " ".intercalate texts
  else (Entry.lastValue? (start.names.zip start.values) name).getD ""

/-- What is written of an element on a level, with the texts that are directly in it. -/
def sketch (start : StartTag) (texts : List String) (level : Nat) : Sketch :=
  let kind := Kind.ofTag start.tag
  let names := kind.arrange (start.names ++ if kind.keeps texts = [] then [] else [contentName])
  ⟨kind, start.tag, level,
    (names.map fun name => (name, start.value (kind.keeps texts) name)).filter fun p => !p.2.isEmpty⟩

end Markup.StartTag

namespace Markup.Opening

variable {o o' : Opening}

end Markup.Opening

/-! ## What is written of a content -/

/-- What is written of siblings, each given by its kind and what is written of it: they are
sorted by their kinds, and the sort is stable. -/
def inOrder (blocks : List (Kind × List Sketch)) : List Sketch :=
  (blocks.mergeSort fun x y => decide (x.1.rank ≤ y.1.rank)).flatMap (·.2)

namespace Markup

/-- What is written of the elements directly in a content, one by one. -/
def Content.blocks (level : Nat) : Content → List (Kind × List Sketch)
  | .nil => []
  | .text _ rest => rest.blocks level
  | .leaf start rest =>
    (.ofTag (String.ofList start.tag), [(start.start true).sketch [] level]) :: rest.blocks level
  | .element start content _ rest =>
    (.ofTag (String.ofList start.tag),
      (start.start false).sketch content.texts level :: inOrder (content.blocks (level + 1))) ::
      rest.blocks level

namespace Content

end Content

/-- The children of an element are those that its content has, in order. -/
theorem Branch.Stands.children {b : Branch} {items : List (Option Nat × Item)} {number : Nat}
    {around : Option Nat} (h : b.Stands items number around) :
    childrenOf (elementsOf items) number = ((b.content.kids (number + 1)).mergeSort fun x y =>
      decide (x.2.kind.rank ≤ y.2.kind.rank)).map (·.1) := by
  rw [childrenOf, h.inside,
    ← List.map_mergeSort (r := fun x y => decide (x.2.kind.rank ≤ y.2.kind.rank)), List.map_map]
  · rfl
  · exact fun _ _ _ _ => rfl

end Markup

/-- Lists that correspond are put together to the same. -/
theorem flatMap_congr_map {α β γ δ : Type} {f : α → γ} {g : β → γ} {F : α → List δ} {G : β → List δ}
    {xs : List α} {ys : List β} (same : xs.map f = ys.map g)
    (each : ∀ x ∈ xs, ∀ y ∈ ys, f x = g y → F x = G y) : xs.flatMap F = ys.flatMap G := by
  induction xs generalizing ys with
  | nil =>
    rw [List.map_nil, eq_comm, List.map_eq_nil_iff] at same
    rw [same]
    rfl
  | cons x xs ih =>
    cases ys with
    | nil => cases same
    | cons y ys =>
      obtain ⟨first, rest⟩ := List.cons.inj same
      rw [List.flatMap_cons, List.flatMap_cons, each x List.mem_cons_self y List.mem_cons_self first,
        ih rest fun x hx y hy => each x (List.mem_cons_of_mem _ hx) y (List.mem_cons_of_mem _ hy)]

section
variable {done : List (Option Nat × Item)} {stack : List Nat} {b : Builder} {t : Tree}

end

/-! ## Contents that are alike -/

section
variable {α : Type} {rank : α → Nat}

end

namespace Markup

namespace Content.Alike

variable {c c' : Content}

end Content.Alike

end Markup

namespace Document

section
variable {t t' : Tree} {source : String} {settings : Settings}

end

end Document

end QueryMarkup
