import QueryMarkup.Proofs.Document.Headed

/-!
# Labels

A tag says what kind a node is of. This is so of the nodes that a host adds and of those that are
read, and it stays so, since nothing changes the kind or the tag of a node.
-/
namespace QueryMarkup

/-- A node that is placed as read has the kind that its tag says. -/
def Edit.Honest : Edit → Prop
  | .addParsed kind tag _ => Kind.ofTag tag = kind
  | _ => True

/-- A tag that says a known kind is the tag of this kind. -/
theorem Kind.tag?_of_ofTag {kind : Kind} {tag : String} (h : ofTag tag = kind)
    (known : kind ≠ .unknown) : kind.tag? = some tag := by
  unfold ofTag at h
  cases found : Kind.known.find? fun kind => kind.tag? == some tag with
  | none =>
    rw [found] at h
    exact absurd h.symm known
  | some other =>
    rw [found, Option.getD_some] at h
    have own := List.find?_some found
    rw [h] at own
    exact beq_iff_eq.mp own

theorem Kind.ofTag_getD (kind : Kind) : ofTag (kind.tag?.getD "") = kind := by
  cases kind <;> decide

namespace Tree

/-- The trees that honest edits and reading lead to. -/
inductive Honest (desk : Option Desk) : Tree → Prop where
  | new : Honest desk (.new desk)
  | edit {t : Tree} (edit : Edit) : Honest desk t → edit.Honest → Honest desk (t.edit edit)
  | parse {t : Tree} (source : String) (settings : Settings) :
    Honest desk t → Honest desk (Document.parse t source settings).1

theorem Honest.reached {desk : Option Desk} {t : Tree} (h : Honest desk t) : Reached desk t := by
  induction h with
  | new => exact .new
  | edit edit _ _ ih => exact ih.edit edit
  | parse source settings _ ih => exact ih.parse source settings

/-- What a node is, as it is known and as it is written. -/
def label (n : Node) : Kind × String := (n.kind, n.tag)

/-- The tag of every node says its kind. -/
def Labelled (t : Tree) : Prop := ∀ l ∈ t.nodes.map label, Kind.ofTag l.2 = l.1

variable {t t' : Tree} {id : NodeId}

namespace Labelled

theorem of_subset (h : t.Labelled) (sub : t'.nodes.map label ⊆ t.nodes.map label) : t'.Labelled :=
  fun l hl => h l (sub hl)

theorem of_keeps (h : t.Labelled) (kept : Keeps label t t') : t'.Labelled :=
  h.of_subset (by rw [kept.nodes]; exact List.Subset.refl _)

theorem of_nodes (h : t.Labelled) (same : t'.nodes = t.nodes) : t'.Labelled :=
  h.of_subset (by rw [same]; exact List.Subset.refl _)

theorem insert {kind : Kind} {tag : String} {parent : NodeId} (h : t.Labelled)
    (named : Kind.ofTag tag = kind) (e : t.insert kind tag parent = .ok (t', id)) : t'.Labelled := by
  obtain ⟨above, -, all⟩ := @mem_map_insert t _ label _ _ _ _ _ (fun _ => rfl) (fun _ _ _ => rfl)
    (fun _ _ _ _ _ => rfl) e
  intro l hl
  rcases (all l).mp hl with rfl | old
  · exact named
  · exact h l old

theorem plantRoot {kind : Kind} {tag : String} (named : Kind.ofTag tag = kind) (t : Tree) :
    (t.plantRoot kind tag).Labelled := by
  have kept : Keeps label { t with nodes := [t.fresh kind tag none], issued := t.issued + 1 }
      (t.plantRoot kind tag) := wire_keeps_of (fun _ => rfl) (fun _ _ _ => rfl) _ _
  intro l hl
  rw [kept.nodes] at hl
  rcases List.mem_singleton.mp hl with rfl
  exact named

theorem add {kind : Kind} {parent : Option NodeId} (h : t.Labelled)
    (e : t.add kind parent = .ok (t', id)) : t'.Labelled := by
  obtain ⟨above, one, -, inserted, rfl | ⟨child, both, other, -, inserted', rfl⟩⟩ := add_eq_ok e
  · exact (h.insert kind.ofTag_getD inserted).of_nodes (nodes_setSelection _ _)
  · exact ((h.insert kind.ofTag_getD inserted).insert child.ofTag_getD inserted').of_nodes
      (nodes_setSelection _ _)

theorem addParsed {kind : Kind} {tag : String} {parent : Option NodeId} (h : t.Labelled)
    (named : Kind.ofTag tag = kind) (e : t.addParsed kind tag parent = .ok (t', id)) : t'.Labelled := by
  obtain ⟨-, -, rfl⟩ | ⟨-, above, -, inserted⟩ := addParsed_eq_ok e
  · exact (plantRoot named t).of_nodes rfl
  · exact h.insert named inserted

theorem reset (t : Tree) : t.reset.Labelled := by
  have root : (t.clear.plantRoot .fetch "fetch").Labelled := plantRoot (by decide) _
  obtain ⟨t', id, added, reset⟩ | reset := t.reset_cases
  · exact reset ▸ (root.add added).of_nodes (nodes_setSelection _ _)
  · exact reset ▸ root

theorem writeSlot (h : t.Labelled) (id : NodeId) (name value : String) :
    (t.writeSlot id name value).Labelled :=
  h.of_keeps (writeSlot_keeps (fun _ => rfl) (fun _ _ _ => rfl) t id name value)

theorem insertParsed {name value : String} {issues : List StructuralIssue} (h : t.Labelled)
    (e : t.insertParsed id name value = .ok (t', issues)) : t'.Labelled := by
  obtain ⟨-, -, ⟨-, rfl, -⟩ | ⟨-, rfl, -⟩⟩ := insertParsed_eq_ok e
  · exact h.writeSlot id name value
  · exact (h.writeSlot id name value).of_keeps (createAttribute_keeps (fun _ _ => rfl) t id name value)

theorem remove (h : t.Labelled) (e : t.remove id = .ok t') : t'.Labelled :=
  h.of_subset (@map_remove_subset t _ label _ _ (Node.view_recheckRule fun _ => rfl)
    (fun _ _ _ => rfl) (fun _ _ => rfl) e)

theorem toggle (h : t.Labelled) (e : t.toggle id = .ok t') : t'.Labelled := by
  have flipped : (t.flip id).Labelled := h.of_keeps (flip_keeps (fun _ _ _ => rfl) t id)
  rcases toggle_eq_ok e with rfl | ⟨n, -, -, rfl | rfl⟩
  · exact h
  · exact flipped
  · exact flipped.of_nodes (nodes_setSelection _ _)

/-- After an honest edit the tags still say the kinds. -/
theorem edit (h : t.Labelled) {edit : Edit} (labels : edit.Honest) : (t.edit edit).Labelled := by
  cases t.edit_outcome edit with
  | same same =>
    rw [same]
    exact h
  | clear _ made =>
    intro l hl
    rw [made, nodes_clear] at hl
    cases hl
  | reset _ made => exact made ▸ Labelled.reset t
  | add _ made => exact h.add made
  | addParsed asked made =>
    subst asked
    exact h.addParsed labels made
  | remove _ made => exact h.remove made
  | toggle _ made => exact h.toggle made
  | select _ _ made => exact made ▸ h.of_nodes (nodes_setSelection _ _)
  | insert _ made => exact h.insertParsed made
  | discard _ _ _ made =>
    rw [made]
    exact (h.writeSlot _ _ "").of_keeps (eraseAttribute_keeps (fun _ _ => rfl) _ _ _)
  | write _ _ _ made => exact made ▸ h.writeSlot _ _ _
  | resolve _ made => exact h.of_keeps ((resolve_keeps made).map label)

/-- What is read is of the kinds that its tags say. -/
theorem parse (t : Tree) (source : String) (settings : Settings) :
    (Document.parse t source settings).1.Labelled := by
  intro l hl
  obtain ⟨n, hn, rfl⟩ := List.mem_map.mp hl
  have recovered := (Document.recovered_parse t source settings).1
  exact (recovered.lettered n.entry (List.mem_map_of_mem hn)).kind

end Labelled

/-- In a tree that is reached honestly, every tag says the kind of its node. -/
theorem Honest.labelled {desk : Option Desk} (h : Honest desk t) : t.Labelled := by
  induction h with
  | new => exact List.forall_mem_nil _
  | edit _ _ labels ih => exact ih.edit labels
  | parse source settings _ _ => exact .parse _ source settings

end Tree

end QueryMarkup
