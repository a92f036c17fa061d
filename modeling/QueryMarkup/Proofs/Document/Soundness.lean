import QueryMarkup.Proofs.Document.Runs
import QueryMarkup.Proofs.Tree.Verified

/-!
# Every tree that is reached is sound

Soundness holds of the tree without nodes and is kept by every edit, so it holds after
all runs of edits and readings, and with it the check of the links passes.
-/
namespace QueryMarkup.Tree

variable {desk : Option Desk} {t : Tree}

theorem sound_invariant : Invariant Sound where
  change := Change.sound
  setSpan _ id _ h := h.of_keeps (keeps_alter _ id _ fun _ => rfl)
  setAttributeSpan _ id _ _ h := h.of_keeps (keeps_alter _ id _ fun _ => rfl)

theorem Reached.sound (h : Reached desk t) : t.Sound := sound_invariant.of_reached (sound_new desk) h

/-- After every run the check of the links passes, nodes are in preorder below their
parents with siblings in order and counted, those show whose ancestors are open, there
is a root exactly when there is a node, and what is selected is there. -/
theorem reached_verified (h : Reached desk t) :
    t.verify = some (.ok ()) ∧ Arranged t.issued t.shapes ∧ Shown t.shapes ∧
      (t.root? = none ↔ ∀ id, t.contains id = false) ∧
      ∀ id ∈ t.selection, t.contains id = true := by
  have sound := h.sound
  refine ⟨sound.verify, sound.arranged, sound.shown, ?_, ?_⟩
  · constructor
    · intro none id
      have empty : t.nodes = [] := List.head?_eq_none_iff.mp none
      rw [contains, node?, empty]
      rfl
    · intro dead
      refine List.head?_eq_none_iff.mpr (List.eq_nil_iff_forall_not_mem.mpr fun n hn => ?_)
      have live : t.contains n.id = true := contains_iff.mpr (List.mem_map_of_mem hn)
      rw [dead] at live
      cases live
  · exact fun id hid => contains_iff.mpr (sound.selection id hid)

/-- A run with a refused edit, a text with two roots, and a removal. -/
theorem reached_verified_run :
    let t := (((Document.parse ((new none).edit (.remove ⟨7⟩)) "<a><b/></a><c/>" {}).1.edit
      (.toggle ⟨0⟩)).edit (.add .filter (some ⟨0⟩))).edit (.remove ⟨1⟩)
    Reached none t ∧ t.verify = some (.ok ()) ∧ Arranged t.issued t.shapes ∧ Shown t.shapes ∧
      (t.root? = none ↔ ∀ id, t.contains id = false) ∧
      ∀ id ∈ t.selection, t.contains id = true := by
  have reached := (((@Reached.new none).edit (.remove ⟨7⟩)).parse "<a><b/></a><c/>" {}).edit
    (.toggle ⟨0⟩) |>.edit (.add .filter (some ⟨0⟩)) |>.edit (.remove ⟨1⟩)
  exact ⟨reached, reached_verified reached⟩

end QueryMarkup.Tree
