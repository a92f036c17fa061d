import QueryMarkup.Proofs.Tree.Change
import QueryMarkup.Proofs.Tree.Rewiring

/-!
# What lasts

As long as a tree is not cleared, new nodes get new names, and a node that is there stays what it is:
its kind, its tag and its place below its parent. Its slots are written to, and never replaced.
-/
namespace QueryMarkup

/-- The id, the kind, the tag, the level and the parent of a node, and the cell of the slot of each
name. -/
structure SlotCells where
  id : NodeId
  kind : Kind
  tag : String
  level : Nat
  parent : Option NodeId
  cell : String → Cell String

def Node.slotCells (n : Node) : SlotCells where
  id := n.id
  kind := n.kind
  tag := n.tag
  level := n.level
  parent := n.parent
  cell name := (n.slots.get name).cell

/-- The same node later: its slots may have been written to. -/
structure SlotCells.Lasts (x y : SlotCells) : Prop where
  same : y = { x with cell := y.cell }
  cells : ∀ name, ∃ values : List String, y.cell name = values.foldl Cell.set (x.cell name)

theorem SlotCells.Lasts.refl (x : SlotCells) : x.Lasts x := ⟨rfl, fun _ => ⟨[], rfl⟩⟩

theorem SlotCells.Lasts.trans {x y z : SlotCells} (h : x.Lasts y) (h' : y.Lasts z) : x.Lasts z := by
  refine ⟨?_, fun name => ?_⟩
  · rw [h'.same, h.same]
  · obtain ⟨values, first⟩ := h.cells name
    obtain ⟨values', second⟩ := h'.cells name
    exact ⟨values ++ values', by rw [second, first, List.foldl_append]⟩

theorem SlotCells.Lasts.id {x y : SlotCells} (h : x.Lasts y) : y.id = x.id := by rw [h.same]

/-! ## One node -/

/-- Those who watch a slot in the end were added to it. -/
theorem Slot.foldl_watch (ws : List Watcher) (s : Slot) :
    ws.foldl Slot.watch s = { s with watchers := s.watchers ++ ws } := by
  induction ws generalizing s with
  | nil => rw [List.foldl_nil, List.append_nil]
  | cons w ws ih =>
    rw [List.foldl_cons, ih, List.append_cons s.watchers w ws]
    rfl

namespace Node

theorem slotCells_alterSlot (n : Node) (name : String) (f : Slot → Slot) (named : ∀ s, (f s).name = s.name)
    (cell : ∀ s, (f s).cell = s.cell) :
    slotCells { n with slots := n.slots.alter name f } = n.slotCells := by
  have cells (x : String) : ((n.slots.alter name f).get x).cell = (n.slots.get x).cell := by
    rw [Slots.get_alter _ _ _ named]
    split
    · rename_i here
      rw [cell, here]
    · rfl
  unfold slotCells
  simp only [cells]

theorem slotCells_watch (n : Node) (name : String) (w : Watcher) :
    slotCells { n with slots := n.slots.watch name w } = n.slotCells :=
  n.slotCells_alterSlot name (·.watch w) (fun _ => rfl) fun _ => rfl

theorem slotCells_forget (n : Node) (gone : List NodeId) :
    slotCells { n with slots := n.slots.forget gone } = n.slotCells := by
  unfold slotCells
  simp only [Slots.get_forget]
  rfl

theorem slotCells_insertAttribute (n : Node) (name : String) :
    (n.insertAttribute name).slotCells = n.slotCells :=
  n.slotCells_alterSlot name _ (fun s => s.name_foldl_watch _) fun s => by rw [Slot.foldl_watch]

theorem slotCells_eraseAttribute (n : Node) (name : String) :
    (n.eraseAttribute name).slotCells = n.slotCells :=
  n.slotCells_alterSlot name Slot.release (fun _ => rfl) fun _ => rfl

/-- A write into a slot is a write into what it held. -/
theorem lasts_setSlot (n : Node) (name value : String) :
    n.slotCells.Lasts (n.setSlot name value).slotCells := by
  refine ⟨rfl, fun x => ?_⟩
  have slot := Slots.get_alter n.slots name (·.set value) (fun _ => rfl) x
  change ∃ values : List String,
    ((n.slots.alter name (·.set value)).get x).cell = values.foldl Cell.set (n.slots.get x).cell
  rw [slot]
  split
  · rename_i here
    exact ⟨[value], by rw [here]; rfl⟩
  · exact ⟨[], rfl⟩

end Node

namespace Tree

variable {t t' t'' : Tree} {id : NodeId}

/-- Everything in the later tree is new, with a name that was not given before, or was there
already. -/
structure Continues (t t' : Tree) : Prop where
  issued : t.issued ≤ t'.issued
  nodes : ∀ n' ∈ t'.nodes, n'.id.index < t.issued → ∃ n ∈ t.nodes, n.slotCells.Lasts n'.slotCells

theorem Continues.refl (t : Tree) : Continues t t := ⟨Nat.le_refl _, fun n hn _ => ⟨n, hn, .refl _⟩⟩

theorem Continues.trans (h : Continues t t') (h' : Continues t' t'') : Continues t t'' := by
  refine ⟨h.issued.trans h'.issued, fun n'' hn'' old => ?_⟩
  obtain ⟨n', hn', later⟩ := h'.nodes n'' hn'' (old.trans_le h.issued)
  have id : n''.id = n'.id := later.id
  obtain ⟨n, hn, sooner⟩ := h.nodes n' hn' (id ▸ old)
  exact ⟨n, hn, sooner.trans later⟩

theorem Continues.of_mem (issued : t.issued ≤ t'.issued)
    (nodes : ∀ x ∈ t'.nodes.map Node.slotCells, x.id.index < t.issued → x ∈ t.nodes.map Node.slotCells) :
    Continues t t' := by
  refine ⟨issued, fun n' hn' old => ?_⟩
  obtain ⟨n, hn, same⟩ := List.mem_map.mp (nodes _ (List.mem_map_of_mem hn') old)
  exact ⟨n, hn, same ▸ .refl _⟩

theorem Keeps.continues (h : Keeps Node.slotCells t t') : Continues t t' :=
  .of_mem (Nat.le_of_eq h.issued.symm) fun _ hx _ => h.nodes ▸ hx

theorem continues_setSelection (t : Tree) (selection : Option NodeId) :
    Continues t (t.setSelection selection) :=
  .of_mem (Nat.le_of_eq (issued_setSelection _ _).symm) fun x hx _ => by rwa [nodes_setSelection] at hx

theorem continues_writeSlot (t : Tree) (id : NodeId) (name value : String) :
    Continues t (t.writeSlot id name value) := by
  rcases t.writeSlot_cases id name value with ⟨same, -⟩ | kept
  · rw [same]
    exact .refl t
  · have stored : Continues t (t.alter id fun n => n.setSlot name value) := by
      refine ⟨Nat.le_refl _, fun n' hn' _ => ?_⟩
      obtain ⟨n, hn, ⟨-, rfl⟩ | ⟨-, rfl⟩⟩ := mem_alter hn'
      · exact ⟨n, hn, n.lasts_setSlot name value⟩
      · exact ⟨n', hn, .refl _⟩
    have same (n : Node) : n.fixture.slotCells = n.slotCells := rfl
    exact stored.trans (kept.through same).continues

/-- The new node gets the next name. -/
theorem insert_issued {kind : Kind} {tag : String} {parent : NodeId}
    (e : t.insert kind tag parent = .ok (t', id)) : id = ⟨t.issued⟩ ∧ t'.issued = t.issued + 1 := by
  obtain ⟨before, above, after, cut, -⟩ := insert_eq_ok e
  obtain ⟨named, kept⟩ := insert_keeps cut e
  exact ⟨named, kept.issued⟩

theorem continues_insert {kind : Kind} {tag : String} {parent : NodeId}
    (e : t.insert kind tag parent = .ok (t', id)) : Continues t t' := by
  obtain ⟨above, -, all⟩ := mem_map_insert (fun _ => rfl) Node.slotCells_watch (fun _ _ _ _ _ => rfl) e
  refine .of_mem ?_ fun x hx old => ?_
  · rw [(insert_issued e).2]
    exact Nat.le_succ _
  · rcases (all x).mp hx with rfl | there
    · exact absurd old (Nat.lt_irrefl _)
    · exact there

theorem issued_remove (e : t.remove id = .ok t') : t'.issued = t.issued := by
  obtain ⟨before, last, n, after, parent, -, -, rfl⟩ := remove_eq_ok e
  exact (issued_setSelection _ _).trans (setChildCount_keeps_entry _ _ _).issued

theorem continues_remove (e : t.remove id = .ok t') : Continues t t' :=
  .of_mem (Nat.le_of_eq (issued_remove e).symm) fun _ hx _ =>
    map_remove_subset (fun _ _ _ => rfl) (fun _ _ _ => rfl) Node.slotCells_forget e hx

theorem continues_plantRoot (t : Tree) (kind : Kind) (tag : String) :
    Continues t (t.plantRoot kind tag) := by
  have wired : Keeps (fun n => n.id) { t with nodes := [t.fresh kind tag none], issued := t.issued + 1 }
      (t.plantRoot kind tag) := wire_keeps_of (fun _ => rfl) (fun _ _ _ => rfl) _ _
  -- the only node is the new one
  refine ⟨wired.issued ▸ Nat.le_succ _, fun n hn old => ?_⟩
  have there := List.mem_map_of_mem (f := fun n : Node => n.id) hn
  rw [wired.nodes] at there
  rw [List.mem_singleton.mp there] at old
  exact absurd old (Nat.lt_irrefl _)

theorem continues_flip (t : Tree) (id : NodeId) : Continues t (t.flip id) :=
  have flipped : Keeps Node.slotCells t (t.flip id) := flip_keeps (fun _ _ _ => rfl) t id
  flipped.continues

theorem continues_createAttribute (t : Tree) (id : NodeId) (name value : String) :
    Continues t (t.createAttribute id name value) :=
  have inserted : Keeps Node.slotCells (t.writeSlot id name value) (t.createAttribute id name value) :=
    createAttribute_keeps Node.slotCells_insertAttribute t id name value
  (continues_writeSlot t id name value).trans inserted.continues

theorem continues_eraseAttribute (t : Tree) (id : NodeId) (name : String) :
    Continues t ((t.writeSlot id name "").alter id fun n => n.eraseAttribute name).touch :=
  have erased : Keeps Node.slotCells (t.writeSlot id name "")
      ((t.writeSlot id name "").alter id fun n => n.eraseAttribute name).touch :=
    eraseAttribute_keeps Node.slotCells_eraseAttribute _ id name
  (continues_writeSlot t id name "").trans erased.continues

theorem continues_add {kind : Kind} {parent : Option NodeId} (e : t.add kind parent = .ok (t', id)) :
    Continues t t' := by
  obtain ⟨above, added, -, made, rest⟩ := add_eq_ok e
  rcases rest with rfl | ⟨child, both, other, -, made', rfl⟩
  · exact (continues_insert made).trans (continues_setSelection _ _)
  · exact ((continues_insert made).trans (continues_insert made')).trans (continues_setSelection _ _)

theorem continues_addParsed {kind : Kind} {tag : String} {parent : Option NodeId}
    (e : t.addParsed kind tag parent = .ok (t', id)) : Continues t t' := by
  obtain ⟨-, -, rfl⟩ | ⟨-, above, -, inserted⟩ := addParsed_eq_ok e
  · have touched : Keeps Node.slotCells (t.plantRoot kind tag) (t.plantRoot kind tag).touch :=
      keeps_touch _ _
    exact (continues_plantRoot t kind tag).trans touched.continues
  · exact continues_insert inserted

theorem continues_toggle (e : t.toggle id = .ok t') : Continues t t' := by
  rcases toggle_eq_ok e with rfl | ⟨n, -, rfl, rfl | rfl⟩
  · exact .refl _
  · exact continues_flip t n.id
  · exact (continues_flip t n.id).trans (continues_setSelection _ _)

theorem continues_insertParsed {name value : String} {issues : List StructuralIssue}
    (e : t.insertParsed id name value = .ok (t', issues)) : Continues t t' := by
  obtain ⟨-, -, ⟨-, rfl, -⟩ | ⟨-, rfl, -⟩⟩ := insertParsed_eq_ok e
  · exact continues_writeSlot t id name value
  · exact continues_createAttribute t id name value

end Tree

/-- The edit puts another document in place of the whole tree. -/
def Edit.replaces : Edit → Bool
  | .clear | .reset => true
  | _ => false

namespace Tree

variable {t : Tree}

/-- Every edit of a document continues the tree. -/
theorem continues_edit (t : Tree) {e : Edit} (goesOn : e.replaces = false) : Continues t (t.edit e) := by
  cases t.edit_outcome e with
  | same same =>
    rw [same]
    exact .refl t
  | clear asked | reset asked =>
    rw [asked] at goesOn
    cases goesOn
  | add _ made => exact continues_add made
  | addParsed _ made => exact continues_addParsed made
  | remove _ made => exact continues_remove made
  | toggle _ made => exact continues_toggle made
  | select _ _ made => exact made ▸ continues_setSelection t _
  | insert _ made => exact continues_insertParsed made
  | discard _ _ _ made => exact made ▸ continues_eraseAttribute t _ _
  | write _ _ _ made => exact made ▸ continues_writeSlot t _ _ _
  | resolve _ made => exact (resolve_keeps_of (fun _ _ => rfl) made).continues

theorem continues_edits {edits : List Edit} (goesOn : ∀ e ∈ edits, e.replaces = false) :
    Continues t (edits.foldl edit t) := by
  induction edits generalizing t with
  | nil => exact .refl t
  | cons e edits ih =>
    rw [List.forall_mem_cons] at goesOn
    exact (t.continues_edit goesOn.1).trans (ih goesOn.2)

end Tree

end QueryMarkup
