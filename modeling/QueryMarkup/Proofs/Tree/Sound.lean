import QueryMarkup.Proofs.Tree.Change

/-!
# Sound trees

A tree is sound when its nodes are arranged, exactly those show whose ancestors are
open, and what is selected is there. Every edit keeps a tree sound.
-/
namespace QueryMarkup

namespace Tree

structure Sound (t : Tree) : Prop where
  arranged : Arranged t.issued t.shapes
  shown : Shown t.shapes
  selection : ∀ id ∈ t.selection, id ∈ t.ids

theorem sound_new (desk : Option Desk) : (new desk).Sound := ⟨arranged_nil 0, shown_nil, by simp [new]⟩

section
variable {t t' : Tree}

theorem Sound.nodup (h : t.Sound) : t.ids.Nodup := t.ids_eq_shapes ▸ h.arranged.distinct

theorem Keeps.ids (h : Keeps Node.shape t t') : t'.ids = t.ids := by
  rw [ids_eq_shapes, ids_eq_shapes]
  exact congrArg (List.map Shape.id) h.nodes

theorem Sound.of_keeps (h : t.Sound) (k : Keeps Node.shape t t') : t'.Sound where
  arranged := by
    have := h.arranged
    rwa [shapes, ← k.nodes, ← k.issued] at this
  shown := by
    have := h.shown
    rwa [shapes, ← k.nodes] at this
  selection := by
    rw [k.selection, k.ids]
    exact h.selection

theorem Sound.touch (h : t.Sound) : t.touch.Sound := h.of_keeps (keeps_touch _ t)

theorem Sound.setSelection (h : t.Sound) {selection : Option NodeId}
    (live : ∀ id ∈ selection, id ∈ t.ids) : (t.setSelection selection).Sound := by
  unfold Tree.setSelection
  split
  · exact h
  · exact ⟨h.arranged, h.shown, live⟩

/-! ## Insertion -/

theorem plantRoot_sound (h : t.Sound) (empty : t.nodes = []) (kind : Kind) (tag : String) :
    (t.plantRoot kind tag).Sound := by
  have sel : t.selection = none := by
    cases hs : t.selection with
    | none => rfl
    | some id =>
      have := h.selection id hs
      rw [ids, empty] at this
      cases this
  refine Sound.of_keeps ?_
    (wire_keeps { t with nodes := [_], issued := t.issued + 1 } _).shape_of_fullEntry
  refine ⟨?_, ?_, ?_⟩
  · exact arranged_singleton rfl rfl (Nat.lt_succ_self t.issued) rfl rfl
  · exact shown_singleton rfl rfl
  · simp [sel]

theorem insert_sound {kind : Kind} {tag : String} {parent id : NodeId} (h : t.Sound)
    (e : t.insert kind tag parent = .ok (t', id)) : t'.Sound := by
  obtain ⟨before, above, after, hs, -, rfl⟩ := insert_eq_ok e
  obtain ⟨-, kept⟩ := insert_keeps hs e
  obtain ⟨hn, rfl, -⟩ := splitAt_eq_some hs
  have split := shapes_of_split hn (passes (above.level + 1) kind.rank)
  have wired := t.shapes_wire_placed kind tag before above after (t.fresh kind tag (some above))
  have selected := h.selection
  obtain ⟨arranged, shown, _⟩ := h
  rw [split] at arranged shown
  have arranged' := arranged.insert (x := (t.fresh kind tag (some above)).shape)
    ⟨rfl, rfl, rfl, fun s hs => passed_of_mem hs, fun s hs => not_passed_of_head hs⟩ rfl rfl
  have distinct := arranged'.distinct
  rw [List.map_append, List.map_cons, Shape.adopt_id, ← List.map_cons, ← List.map_append, ← wired]
    at distinct
  have shapes := shapes_adopt wired distinct
  have deep : ∀ s ∈ (after.takeWhile (passes (above.level + 1) kind.rank)).map Node.shape,
      above.shape.level < s.level := by
    intro s hs
    rcases passed_of_mem hs with h | ⟨h, _⟩
    · exact Nat.lt_of_succ_lt h
    · exact h ▸ Nat.lt_succ_self _
  refine ⟨?_, ?_, ?_⟩
  · have arranged := arranged'.refresh [(above.shape.level, above.shape.adopt.opens)]
    rw [kept.issued]
    exact shapes.symm ▸ arranged
  · exact shapes.symm ▸ shown.insert arranged'.nested rfl rfl (Nat.lt_succ_self _) deep
  · intro id hid
    rw [kept.selection] at hid
    rw [kept.ids_of_entry, mem_ids_placed hn]
    exact .inr (selected id hid)

theorem clear_sound (t : Tree) : t.clear.Sound := by
  refine Sound.touch (Sound.mk ?_ ?_ ?_)
  · rw [issued_setSelection, shapes_setSelection]
    exact arranged_nil 0
  · rw [shapes_setSelection]
    exact shown_nil
  · simp

/-! ## Removal -/

theorem remove_sound {id : NodeId} (h : t.Sound) (e : t.remove id = .ok t') : t'.Sound := by
  obtain ⟨before, last, n, run, rest, parent, split, -, hp, deep, stop, shapes, issued, selection⟩ :=
    shapes_remove h.nodup e
  obtain ⟨arranged, shown, -⟩ := h
  rw [split] at arranged shown
  have whole : before ++ last :: n :: (run ++ rest) = (before ++ [last]) ++ n :: (run ++ rest) := by
    simp
  have left : before ++ last :: rest = (before ++ [last]) ++ rest := by simp
  refine ⟨?_, ?_, ?_⟩
  · rw [shapes, issued]
    exact arranged.remove ⟨hp, deep, stop⟩
  · rw [shapes, left]
    rw [whole] at shown
    exact (shown.cut (by simp) deep stop).map _ fun _ => ⟨rfl, rfl, rfl⟩
  · intro id hid
    rw [selection] at hid
    cases hid
    rw [ids_eq_shapes, shapes]
    simp [Shape.bereave]

/-! ## Visibility -/

/-- Expanding or collapsing a node and refreshing its run. -/
theorem Sound.flip {n : Node} (h : t.Sound) (hn : n ∈ t.nodes) : (t.flip n.id).Sound := by
  obtain ⟨before, after, split⟩ := List.append_of_mem (List.mem_map_of_mem (f := Node.shape) hn)
  have kept : Keeps Node.entry t (t.flip n.id) := flip_keeps (fun _ _ _ => rfl) t n.id
  obtain ⟨arranged, shown, selection⟩ := h
  change t.shapes = _ at split
  have distinct := arranged.distinct
  rw [split] at arranged shown distinct
  have flipped : (t.alter n.id fun n => { n with expanded := !n.expanded }).shapes =
      before ++ { n.shape with expanded := !n.expanded } :: after := by
    rw [shapes_alter t n.id _ (fun s => { s with expanded := !s.expanded }) fun _ => rfl, split]
    exact map_shape_of_split distinct _
  have shapes := shapes_refreshVisibility flipped (not_mem_ids_of_nodup distinct).1
  have arranged' : Arranged t.issued (before ++ { n.shape with expanded := !n.expanded } :: after) :=
    arranged.congr (by simp [Shape.unfolded])
  refine ⟨?_, ?_, ?_⟩
  · rw [kept.issued]
    exact shapes.symm ▸ arranged'.refresh _
  · refine shapes.symm ▸ @Shown.refresh before (n.shape.run after) _ _ n.shape _ ?_ ?_ rfl rfl ?_ ?_ ?_
    · rw [← n.shape.run_append_beyond after] at shown
      exact shown
    · have nested := arranged'.nested
      rw [← n.shape.run_append_beyond after] at nested
      exact nested
    · exact fun _ => Shape.level_lt_of_mem_run
    · exact fun _ => Shape.level_lt_of_mem_run
    · exact fun _ => Shape.level_le_of_head_beyond
  · rw [kept.selection, kept.ids_of_entry]
    exact selection

/-! ## Attributes -/

theorem writeSlot_sound (h : t.Sound) (id : NodeId) (name value : String) :
    (t.writeSlot id name value).Sound :=
  h.of_keeps (writeSlot_keeps (fun _ => rfl) (fun _ _ _ => rfl) t id name value)

theorem createAttribute_sound (h : t.Sound) (id : NodeId) (name value : String) :
    (t.createAttribute id name value).Sound := by
  refine Sound.touch ((writeSlot_sound h id name value).of_keeps ?_)
  exact keeps_alter _ id _ fun _ => rfl

theorem discard_sound (h : t.Sound) (id : NodeId) (name : String) :
    ((t.writeSlot id name "").alter id fun n => n.eraseAttribute name).Sound :=
  (writeSlot_sound h id name "").of_keeps (keeps_alter _ id _ fun _ => rfl)

theorem resolve_sound {number : Nat} {verdict : Verdict} {late : Bool} (h : t.Sound)
    (e : t.resolve number verdict = some (t', late)) : t'.Sound :=
  h.of_keeps (resolve_keeps e).fixture.base.shape

/-- In a sound tree the children of a node are those that record it as their parent. -/
theorem Sound.shapes_children (h : t.Sound) {n : Node} (hn : n ∈ t.nodes) :
    (t.children n.id).map Node.shape = kidsOf t.shapes n.id := by
  obtain ⟨before, after, split⟩ := List.append_of_mem hn
  have nd := h.nodup
  rw [ids, split, List.map_append, List.map_cons, List.nodup_append] at nd
  have first : ∀ m ∈ before, m.id ≠ n.id := fun m hm =>
    nd.2.2 _ (List.mem_map_of_mem hm) _ List.mem_cons_self
  have shapes : t.shapes = before.map Node.shape ++ n.shape :: after.map Node.shape := by
    rw [Tree.shapes, split, List.map_append, List.map_cons]
  have arranged := h.arranged
  rw [shapes] at arranged
  have kids := arranged.kidsOf_eq
  rw [← map_shape_runOf, List.filter_map] at kids
  rw [shapes, children, split, splitAt_append rfl first]
  exact kids.symm

/-- In a sound tree a node records the number of its children. -/
theorem Sound.length_children (h : t.Sound) {n : Node} (hn : n ∈ t.nodes) :
    (t.children n.id).length = n.childCount := by
  have counted := h.arranged.counted n.shape (List.mem_map_of_mem hn)
  rw [show n.shape.id = n.id from rfl, ← h.shapes_children hn, List.length_map] at counted
  exact counted.symm

/-- Every name has been issued. -/
theorem Sound.index_lt (h : t.Sound) {id : NodeId} (live : id ∈ t.ids) : id.index < t.issued := by
  obtain ⟨n, hn, rfl⟩ := List.mem_map.mp live
  exact h.arranged.issued n.shape (List.mem_map_of_mem hn)

/-- The next name is not taken. -/
theorem Sound.issued_not_mem (h : t.Sound) : ⟨t.issued⟩ ∉ t.ids := fun taken =>
  Nat.lt_irrefl _ (h.index_lt taken)

/-- In a sound tree the parent of a node is there. -/
theorem Sound.parent_mem (h : t.Sound) {n : Node} {parent : NodeId} (hn : n ∈ t.nodes)
    (hp : n.parent = some parent) : parent ∈ t.ids := by
  obtain ⟨before, after, split⟩ := List.append_of_mem (List.mem_map_of_mem (f := Node.shape) hn)
  have arranged := h.arranged
  rw [shapes, split] at arranged
  have inner : before ≠ [] := by
    rintro rfl
    have root := arranged.root n.shape rfl
    rw [show n.shape.parent = n.parent from rfl, hp] at root
    cases root
  obtain ⟨m, hm, -, above⟩ := arranged.nested.source inner
  rw [show n.shape.parent = n.parent from rfl, hp] at above
  cases above
  rw [ids_eq_shapes, shapes, split]
  exact List.mem_map_of_mem (List.mem_append_left _ hm)

/-- Every change keeps a tree sound. -/
theorem Change.sound (c : Change t t') (h : t.Sound) : t'.Sound := by
  cases c with
  | touch => exact h.touch
  | clear => exact clear_sound t
  | plant kind tag empty => exact plantRoot_sound h empty kind tag
  | insert e => exact insert_sound h e
  | remove e => exact remove_sound h e
  | flip hn => exact h.flip hn
  | select live => exact h.setSelection live
  | write id name value => exact writeSlot_sound h id name value
  | create value _ _ => exact createAttribute_sound h _ _ value
  | discard id name => exact discard_sound h id name
  | resolve e => exact resolve_sound h e

end

end Tree

end QueryMarkup
