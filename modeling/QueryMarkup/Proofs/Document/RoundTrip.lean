import QueryMarkup.Proofs.Document.Authored
import QueryMarkup.Proofs.Document.Writable

/-!
# Writing and reading again

A tree that was made by hand comes back when its markup is read: the same elements on the
same levels with the same attributes, and so the same markup.
-/
namespace QueryMarkup

open Markup

namespace Tree

variable {desk : Option Desk} {t : Tree}

theorem Authored.writable (h : Authored desk t) : t.Writable where
  sound := h.reached.sound
  current := h.reached.current
  legible := by
    intro x hx
    obtain ⟨n, hn, rfl⟩ := List.mem_map.mp hx
    obtain ⟨known, named, -⟩ := h.presentable.entries n.entry (List.mem_map_of_mem hn)
    refine (h.reached.current.fitted n hn).legible (Kind.isName_of_tag? known)
      (Kind.ofTag_of_tag? known).1 fun a ha => ?_
    exact named a.base (List.mem_map_of_mem ha)
  nonempty := fun none => h.presentable.nonempty (by rw [entries, none]; rfl)

/-- The elements are known, and their texts have no blanks at their ends. -/
theorem Authored.tight (h : Authored desk t) :
    ∀ x ∈ t.sketches, x.kind ≠ .unknown ∧ ∀ v ∈ x.value? contentName, Text.Tight v.toList := by
  intro x hx
  obtain ⟨n, hn, rfl⟩ := List.mem_map.mp hx
  obtain ⟨known, -, tight⟩ := h.presentable.entries n.entry (List.mem_map_of_mem hn)
  exact ⟨(Kind.ofTag_of_tag? known).2, Node.tight_sketch tight⟩

end Tree

namespace Document

/-- The markup of a tree that was made by hand, whatever the indentation, is read as a tree
with the same kinds, tags, levels and attributes in the same order, which has the same
markup. Nothing is reported but names that are not declared and parents that are not allowed. -/
theorem parse_render {desk : Option Desk} {t : Tree} (h : Tree.Authored desk t) (width : Nat)
    (settings : Settings) (fits : ∀ n ∈ t.nodes, n.level < settings.nestingLimit) (into : Tree) :
    let text := (render t width).text
    let read := parse into text settings
    read.1.nodes.map (fun n => (n.kind, n.tag, n.level, n.pairs)) =
        t.nodes.map (fun n => (n.kind, n.tag, n.level, n.pairs)) ∧
      (render read.1 width).text = text ∧
      ∀ d ∈ read.2, d.kind = .unknownAttribute ∨ d.kind = .invalidParent := by
  intro text read
  have levels : ∀ x ∈ t.sketches, x.level < settings.nestingLimit := by
    intro x hx
    obtain ⟨n, hn, rfl⟩ := List.mem_map.mp hx
    exact fits n hn
  obtain ⟨again, sketches, faults⟩ := parse_again h.writable width settings levels into
  have same : read.1.sketches = t.sketches :=
    sketches.trans (Sketch.map_trimmed_eq h.writable.legible fun x hx => (h.tight x hx).2)
  refine ⟨?_, render_eq again h.writable same width, fun d hd => ?_⟩
  · have said := congrArg (List.map fun x : Sketch => (x.kind, x.tag, x.level, x.pairs)) same
    rwa [Tree.sketches, Tree.sketches, List.map_map, List.map_map] at said
  · obtain ⟨before, x, after, split, misplaced | ⟨undeclared, -⟩⟩ := faults d hd
    · obtain ⟨i, hi, kind⟩ := List.mem_map.mp misplaced
      obtain ⟨y, hy, rfl⟩ := List.mem_map.mp (split ▸ List.mem_append_right before List.mem_cons_self)
      rcases Builder.kind_of_checkPlacement i hi with ⟨-, unknown⟩ | place
      · exact absurd unknown (h.tight y hy).1
      · exact .inr (kind ▸ place)
    · exact .inl undeclared

/-- A text and an undeclared name with characters that markup has to hide, in a node that
stands where it may not, and a second element on a higher level. -/
theorem parse_render_run :
    let t := (((((((Tree.new none).reset.edit (.add .value (some ⟨0⟩))).edit
      (.setAttribute ⟨2⟩ "#text" "a <b> & 'c'")).edit (.setAttribute ⟨2⟩ "x-y" "\"")).edit
      (.add .filter (some ⟨2⟩))).edit (.toggle ⟨2⟩)).edit (.setAttribute ⟨1⟩ "name" "")).edit
      (.add .linkEntity (some ⟨0⟩))
    Tree.Authored none t ∧ (∀ n ∈ t.nodes, n.level < ({} : Settings).nestingLimit) ∧
      let text := (render t 2).text
      let read := parse .empty text {}
      read.1.nodes.map (fun n => (n.kind, n.tag, n.level, n.pairs)) =
          t.nodes.map (fun n => (n.kind, n.tag, n.level, n.pairs)) ∧
        (render read.1 2).text = text ∧
        ∀ d ∈ read.2, d.kind = .unknownAttribute ∨ d.kind = .invalidParent := by
  intro t
  have authored : Tree.Authored none t :=
    ((((((Tree.Authored.start.edit (.add .value (some ⟨0⟩)) (by decide)).edit
      (.setAttribute ⟨2⟩ "#text" "a <b> & 'c'") (by decide +kernel)).edit
      (.setAttribute ⟨2⟩ "x-y" "\"") (by decide +kernel)).edit
      (.add .filter (some ⟨2⟩)) (by decide)).edit (.toggle ⟨2⟩) (by decide)).edit
      (.setAttribute ⟨1⟩ "name" "") (by decide +kernel)).edit
      (.add .linkEntity (some ⟨0⟩)) (by decide)
  have fits : ∀ n ∈ t.nodes, n.level < ({} : Settings).nestingLimit := by decide +kernel
  exact ⟨authored, fits, parse_render authored 2 {} fits .empty⟩

end Document

end QueryMarkup
