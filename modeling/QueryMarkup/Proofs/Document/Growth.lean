import QueryMarkup.Proofs.Document.Recomputed
import QueryMarkup.Proofs.Tree.Admission

/-!
# Where a new node goes

A new node goes behind all nodes below its parent, up to the first child of a higher rank. So it is
the last among the children of its rank, whatever is below them, and the nodes that were there
before keep their order and their contents.
-/
namespace QueryMarkup.Tree

variable {t t' : Tree} {n m : Node} {before after : List Node}

/-! ## Where the search stops -/

/-- A new child of this rank does not pass the node: it is not below the parent, or a child of a
higher rank. -/
def Stops (t : Tree) (parent : NodeId) (rank : Nat) (m : Node) : Prop :=
  ¬ t.Below parent m.id ∨ m.parent = some parent ∧ rank < m.rank

/-- What a new child passes is below its parent. -/
theorem runOf_eq_passed (level rank : Nat) (after : List Node) : runOf level after =
    after.takeWhile (passes (level + 1) rank) ++ runOf level (after.dropWhile (passes (level + 1) rank)) := by
  have parts := @List.takeWhile_append_dropWhile _ (passes (level + 1) rank) after
  have passed : ∀ m ∈ after.takeWhile (passes (level + 1) rank), decide (level < m.level) = true :=
    fun m hm => decide_eq_true (lt_level_of_passes (List.mem_takeWhile_imp hm))
  calc runOf level after
      = runOf level (after.takeWhile (passes (level + 1) rank) ++
          after.dropWhile (passes (level + 1) rank)) := by rw [parts]
    _ = _ := List.takeWhile_append_of_pos passed

theorem Sound.not_stops_of_passed (h : t.Sound) (split : t.nodes = before ++ n :: after) {rank : Nat}
    (hm : m ∈ after.takeWhile (passes (n.level + 1) rank)) : ¬ t.Stops n.id rank m := by
  have hn : n ∈ t.nodes := split ▸ by simp
  have below : m ∈ t.descendants n.id := by
    rw [h.descendants_split split, runOf_eq_passed n.level rank]
    exact List.mem_append_left _ hm
  obtain ⟨live, inside⟩ := (h.mem_descendants_iff hn).mp below
  rintro (outside | ⟨parent, higher⟩)
  · exact outside inside
  · have level := (h.level_of_mem_children hn ((h.mem_children_iff hn).mpr ⟨live, parent⟩)).2
    rcases passes_iff.mp (List.mem_takeWhile_imp hm) with deeper | ⟨-, lower⟩
    · exact Nat.ne_of_gt deeper level
    · exact Nat.not_lt.mpr lower higher

theorem Sound.stops_of_head (h : t.Sound) (split : t.nodes = before ++ n :: after) {rank : Nat}
    (hm : m ∈ (after.dropWhile (passes (n.level + 1) rank)).head?) : t.Stops n.id rank m := by
  have hn : n ∈ t.nodes := split ▸ by simp
  have stop := not_passed_of_head (s := m.shape) (by rw [List.head?_map, Option.mem_def.mp hm]; rfl)
  obtain ⟨rest, behind⟩ := List.head?_eq_some_iff.mp (Option.mem_def.mp hm)
  have live : m ∈ t.nodes := by
    have part : m ∈ after := (List.dropWhile_subset _) (behind ▸ List.mem_cons_self)
    rw [split]
    exact List.mem_append_right before (List.mem_cons_of_mem n part)
  by_cases deeper : n.level < m.level
  · right
    simp only [Shape.Passed, not_or, not_and, not_lt, not_le] at stop
    obtain ⟨least, higher⟩ := stop
    have level : m.level = n.level + 1 := Nat.le_antisymm least deeper
    have child : m ∈ t.children n.id := by
      rw [h.children_split split, List.mem_filter, runOf_eq_passed n.level rank, behind]
      refine ⟨List.mem_append_right _ ?_, by simpa using level⟩
      rw [runOf, List.takeWhile_cons_of_pos (by simpa using deeper)]
      exact List.mem_cons_self
    exact ⟨((h.mem_children_iff hn).mp child).2, higher level⟩
  · exact .inl fun inside => deeper (h.level_lt_of_below hn live inside)

/-! ## Among the siblings -/

theorem fresh_joins (t : Tree) (kind : Kind) (tag : String) (n : Node) (after : List Node) :
    Joins t.issued n.shape ((after.takeWhile (passes (n.level + 1) kind.rank)).map Node.shape)
      (t.fresh kind tag (some n)).shape
        ((after.dropWhile (passes (n.level + 1) kind.rank)).map Node.shape) :=
  ⟨rfl, rfl, rfl, fun _ hs => passed_of_mem hs, fun _ hs => not_passed_of_head hs⟩

/-- The elements of the children of a node are those that record it as their parent. -/
theorem Sound.entries_children (h : t.Sound) (hn : n ∈ t.nodes) :
    (t.children n.id).map Node.entry = t.entries.filter fun e => decide (e.parent = some n.id) := by
  rw [h.children_eq hn, entries, List.filter_map]
  rfl

/-- The children before the place of a new one are those of the same or a lower rank. -/
theorem Sound.siblings (h : t.Sound) (split : t.nodes = before ++ n :: after) (kind : Kind) :
    let front := before ++ n :: after.takeWhile (passes (n.level + 1) kind.rank)
    let rest := after.dropWhile (passes (n.level + 1) kind.rank)
    (∀ m ∈ front, m.parent = some n.id → m.rank ≤ kind.rank) ∧
      ∀ m ∈ rest, m.parent = some n.id → kind.rank < m.rank := by
  have framed := h.arranged.toFramed
  rw [shapes_of_split split (passes (n.level + 1) kind.rank)] at framed
  have joins := fresh_joins t kind "" n after
  constructor
  · intro m hm parent
    refine framed.rank_le_of_passed joins m.shape ?_ parent
    have there := List.mem_map_of_mem (f := Node.shape) hm
    rwa [List.map_append, List.map_cons] at there
  · intro m hm parent
    exact framed.rank_lt_of_stop joins m.shape (List.mem_map_of_mem hm) parent

/-! ## Adding a node -/

/-- What adding a branch below a node does to a tree. The node that is added is the first of the
branch. -/
structure Grown (parent id : NodeId) (rank : Nat) (branch : List Entry) (t t' : Tree) : Prop where
  fresh : ∀ e ∈ branch, e.id ∉ t.ids
  /-- The branch comes right before the first node behind the parent that stops it, and all other
  nodes stay in their order. -/
  chain : ∃ upper passed rest, t.nodes = upper ++ passed ++ rest ∧
    upper.getLast?.map (·.id) = some parent ∧ (∀ m ∈ passed, ¬ t.Stops parent rank m) ∧
    (∀ m ∈ rest.head?, t.Stops parent rank m) ∧
    t'.entries = (upper ++ passed).map Node.entry ++ branch ++ rest.map Node.entry
  /-- Among the children of the parent the new one is behind those of the same or a lower rank. -/
  siblings : ∃ left right, t.children parent = left ++ right ∧ (∀ m ∈ left, m.rank ≤ rank) ∧
    (∀ m ∈ right, rank < m.rank) ∧
    (t'.children parent).map (·.id) = left.map (·.id) ++ id :: right.map (·.id)
  /-- The first of the branch has the others as its children. -/
  children : (t'.children id).map Node.entry = branch.tail
  /-- A node that was there before changes as the node above does, or only in who watches it and
  whether it shows. -/
  hosting : ∀ n ∈ t.nodes, ∃ n' ∈ t'.nodes, Node.Hosting parent n n'

/-- The children of a node after a graft, by the parents that elements record. -/
theorem Grafted.entries_children {parent id : NodeId} {front rest : List Node} {branch : List Entry}
    (graft : Grafted parent front rest branch t t') (h' : t'.Sound) (live : id ∈ t'.ids) :
    (t'.children id).map Node.entry =
      (front.filter fun m => decide (m.parent = some id)).map Node.entry ++
        branch.filter (fun e => decide (e.parent = some id)) ++
          (rest.filter fun m => decide (m.parent = some id)).map Node.entry := by
  obtain ⟨n, hn, rfl⟩ := List.mem_map.mp live
  rw [h'.entries_children hn, graft.entries, List.filter_append, List.filter_append,
    List.filter_map, List.filter_map]
  rfl

section
variable {kind : Kind} {tag : String} {level : Nat} {id : NodeId} {front rest : List Node}
  {more : List Entry}

/-- The first of a branch is a child of the node above, between those before and behind it. -/
theorem Grafted.ids_children (graft : Grafted n.id front rest (.blank id kind tag level n.id :: more) t t')
    (h' : t'.Sound) (hn : n ∈ t.nodes) (other : n.id ≠ id) (below : ∀ e ∈ more, e.parent = some id) :
    (t'.children n.id).map Node.id =
      (front.filter fun m => decide (m.parent = some n.id)).map Node.id ++
        id :: (rest.filter fun m => decide (m.parent = some n.id)).map Node.id := by
  obtain ⟨n', hn', host⟩ := graft.hosting n hn
  have live : n.id ∈ t'.ids := host.id ▸ List.mem_map_of_mem hn'
  have only : (Entry.blank id kind tag level n.id :: more).filter
      (fun e => decide (e.parent = some n.id)) = [.blank id kind tag level n.id] := by
    rw [List.filter_cons_of_pos (by simp [Entry.blank]), List.filter_eq_nil_iff.mpr fun e he => by
      simpa [below e he] using fun same => other same.symm]
  have new := congrArg (List.map Entry.id) (graft.entries_children h' live)
  rw [only, List.append_assoc, List.map_map, List.map_append, List.map_append, List.map_map,
    List.map_map] at new
  exact new

/-- The others of a branch are the children of its first. -/
theorem Grafted.children_new (graft : Grafted n.id front rest (.blank id kind tag level n.id :: more) t t')
    (h : t.Sound) (h' : t'.Sound) (fresh : id ∉ t.ids) (other : n.id ≠ id)
    (below : ∀ e ∈ more, e.parent = some id) : (t'.children id).map Node.entry = more := by
  have live : id ∈ t'.ids := by
    rw [ids_eq_entries, graft.entries]
    simp [Entry.blank]
  have none : ∀ m ∈ front ++ rest, ¬ decide (m.parent = some id) = true := by
    intro m hm parent
    exact fresh (h.parent_mem (graft.nodes ▸ hm) (of_decide_eq_true parent))
  have all : (Entry.blank id kind tag level n.id :: more).filter
      (fun e => decide (e.parent = some id)) = more := by
    rw [List.filter_cons_of_neg (by simpa [Entry.blank] using other), List.filter_eq_self.mpr]
    exact fun e he => decide_eq_true (below e he)
  rw [graft.entries_children h' live, all,
    List.filter_eq_nil_iff.mpr fun m hm => none m (List.mem_append_left _ hm),
    List.filter_eq_nil_iff.mpr fun m hm => none m (List.mem_append_right _ hm)]
  simp

theorem Grafted.grown (h : t.Sound) (h' : t'.Sound) (split : t.nodes = before ++ n :: after)
    (new : ∀ e ∈ .blank id kind tag level n.id :: more, e.id ∉ t.ids)
    (graft : Grafted n.id (before ++ n :: after.takeWhile (passes (n.level + 1) kind.rank))
      (after.dropWhile (passes (n.level + 1) kind.rank)) (.blank id kind tag level n.id :: more) t t')
    (below : ∀ e ∈ more, e.parent = some id) :
    Grown n.id id kind.rank (.blank id kind tag level n.id :: more) t t' := by
  have hn : n ∈ t.nodes := split ▸ by simp
  have fresh : id ∉ t.ids := new _ List.mem_cons_self
  have other : n.id ≠ id := fun same => fresh (same ▸ List.mem_map_of_mem hn)
  obtain ⟨lower, higher⟩ := h.siblings split kind
  have chain : t.nodes = before ++ [n] ++ after.takeWhile (passes (n.level + 1) kind.rank) ++
      after.dropWhile (passes (n.level + 1) kind.rank) := by
    rw [graft.nodes, List.append_cons]
  have passed := fun m => @Sound.not_stops_of_passed t n m before after h split kind.rank
  have stop := fun m => @Sound.stops_of_head t n m before after h split kind.rank
  generalize after.takeWhile (passes (n.level + 1) kind.rank) = pass at *
  generalize after.dropWhile (passes (n.level + 1) kind.rank) = rest at *
  refine ⟨new, ?_, ?_, graft.children_new h h' fresh other below, graft.hosting⟩
  · refine ⟨before ++ [n], pass, rest, chain, by simp, passed, stop, ?_⟩
    rw [graft.entries]
    simp
  · refine ⟨_, _, ?_, fun m hm => ?_, fun m hm => ?_, graft.ids_children h' hn other below⟩
    · rw [h.children_eq hn, graft.nodes, List.filter_append]
    · obtain ⟨there, parent⟩ := List.mem_filter.mp hm
      exact lower m there (of_decide_eq_true parent)
    · obtain ⟨there, parent⟩ := List.mem_filter.mp hm
      exact higher m there (of_decide_eq_true parent)

end

theorem add_of_insert {kind : Kind} {parent : Option NodeId} {p id : NodeId}
    (above : parent.or t.selection = some p) (only : kind.mandatoryChild? = none)
    (made : t.insert kind (kind.tag?.getD "") p = .ok (t', id)) :
    t.add kind parent = .ok (t'.setSelection (some id), id) := by
  unfold add
  simp only [above, made, only, bind, Except.bind]
  rfl

theorem add_of_inserts {kind child : Kind} {parent : Option NodeId} {p id other : NodeId} {t'' : Tree}
    (above : parent.or t.selection = some p) (mandatory : kind.mandatoryChild? = some child)
    (made : t.insert kind (kind.tag?.getD "") p = .ok (t', id))
    (made' : t'.insert child (child.tag?.getD "") id = .ok (t'', other)) :
    t.add kind parent = .ok (t''.setSelection (some id), id) := by
  unfold add
  simp only [above, made, mandatory, made', bind, Except.bind]
  rfl

/-- What a new child does not pass is at most as deep. -/
theorem level_le_of_stop {level rank : Nat} : ∀ m ∈ (after.dropWhile (passes level rank)).head?,
    m.level ≤ level := by
  intro m hm
  have out := List.head?_dropWhile_not (passes level rank) after
  rw [Option.mem_def.mp hm] at out
  refine Nat.not_lt.mp fun deeper => ?_
  have passed : passes level rank m = true := passes_iff.mpr (.inl deeper)
  simp only [passed, Bool.true_eq_false] at out

/-- A node of this kind as it is added, with the child that it cannot be without. -/
def branchOf (issued : Nat) (kind : Kind) (above : Node) : List Entry :=
  .blank ⟨issued⟩ kind (kind.tag?.getD "") (above.level + 1) above.id ::
    kind.mandatoryChild?.toList.map fun child =>
      .blank ⟨issued + 1⟩ child (child.tag?.getD "") (above.level + 2) ⟨issued⟩

theorem Grafted.setSelection {parent : NodeId} {front rest : List Node} {branch : List Entry}
    (graft : Grafted parent front rest branch t t') (selection : Option NodeId) :
    Grafted parent front rest branch t (t'.setSelection selection) := by
  refine ⟨graft.nodes, ?_, ?_⟩
  · rw [Tree.entries, nodes_setSelection]
    exact graft.entries
  · rw [nodes_setSelection]
    exact graft.hosting

/-- Adding a node below one that is there does not fail. -/
theorem Sound.exists_add (h : t.Sound) (current : t.Current) (split : t.nodes = before ++ n :: after)
    (kind : Kind) {parent : Option NodeId} (above : parent.or t.selection = some n.id) :
    ∃ t', t.add kind parent = .ok (t', ⟨t.issued⟩) ∧ t'.selection = some ⟨t.issued⟩ ∧
      Grafted n.id (before ++ n :: after.takeWhile (passes (n.level + 1) kind.rank))
        (after.dropWhile (passes (n.level + 1) kind.rank)) (branchOf t.issued kind n) t t' := by
  obtain ⟨t', made, issued, -, graft⟩ := h.exists_insert current split kind (kind.tag?.getD "")
  cases mandatory : kind.mandatoryChild? with
  | none =>
    refine ⟨_, add_of_insert above mandatory made, selection_setSelection _ _, ?_⟩
    rw [branchOf, mandatory]
    exact graft.setSelection _
  | some child =>
    obtain ⟨t'', made', -, graft'⟩ := graft.exists_insert (insert_sound h made)
      (insert_current h current made) h.issued_not_mem level_le_of_stop child (child.tag?.getD "")
    refine ⟨_, add_of_inserts above mandatory made made', selection_setSelection _ _, ?_⟩
    rw [branchOf, mandatory, ← issued]
    exact graft'.setSelection _

/-- Adding a node below another puts it, with the child that its kind cannot be without, behind
all siblings of its rank and what is below them, and changes nothing else; adding one that was read
puts it there alone. -/
theorem reached_add {desk : Option Desk} (h : Reached desk t) (hn : n ∈ t.nodes) (kind : Kind) :
    (∀ parent, parent.or t.selection = some n.id →
      ∃ t', t.add kind parent = .ok (t', ⟨t.issued⟩) ∧ t'.selection = some ⟨t.issued⟩ ∧
        Grown n.id ⟨t.issued⟩ kind.rank (branchOf t.issued kind n) t t') ∧
    ∀ tag, ∃ t', t.addParsed kind tag (some n.id) = .ok (t', ⟨t.issued⟩) ∧
      Grown n.id ⟨t.issued⟩ kind.rank [.blank ⟨t.issued⟩ kind tag (n.level + 1) n.id] t t' := by
  have sound := h.sound
  have current := h.current
  have fresh {id : NodeId} (later : t.issued ≤ id.index) : id ∉ t.ids := fun live =>
    Nat.not_lt.mpr later (sound.index_lt live)
  obtain ⟨before, after, split⟩ := List.append_of_mem hn
  constructor
  · intro parent above
    obtain ⟨t', made, selected, graft⟩ := sound.exists_add current split kind above
    have sound' := (add_changes made).keep Change.sound sound
    refine ⟨t', made, selected, graft.grown sound sound' split (fun e he => ?_) fun e he => ?_⟩
    · rcases List.mem_cons.mp he with rfl | he
      · exact fresh le_rfl
      · obtain ⟨child, -, rfl⟩ := List.mem_map.mp he
        exact fresh (Nat.le_succ t.issued)
    · obtain ⟨child, -, rfl⟩ := List.mem_map.mp he
      rfl
  · intro tag
    obtain ⟨t', made, -, -, graft⟩ := sound.exists_insert current split kind tag
    have inner : t.isEmpty = false := by
      rw [isEmpty, split]
      cases before <;> rfl
    have sound' := insert_sound sound made
    refine ⟨t', ?_, graft.grown sound sound' split (fun e he => ?_) fun e he => ?_⟩
    · rw [addParsed, inner]
      exact made
    · rw [List.mem_singleton.mp he]
      exact fresh le_rfl
    · cases he

/-- A filter is added to an entity that has a filter with a condition and a linked entity: it comes
between the two, with a condition of its own. -/
theorem reached_add_run :
    let t := (Document.parse (.new none)
      "<fetch><entity><filter><condition/></filter><link-entity/></entity><entity/></fetch>" {}).1
    Reached none t ∧ ∃ n ∈ t.nodes, n.id = ⟨1⟩ ∧
      (∃ t', t.add .filter (some ⟨1⟩) = .ok (t', ⟨6⟩) ∧ t'.selection = some ⟨6⟩ ∧
        Grown ⟨1⟩ ⟨6⟩ Kind.filter.rank (branchOf 6 .filter n) t t' ∧
        t'.ids = [⟨0⟩, ⟨1⟩, ⟨2⟩, ⟨3⟩, ⟨6⟩, ⟨7⟩, ⟨4⟩, ⟨5⟩]) ∧
      ∃ t', t.addParsed .filter "filter" (some ⟨1⟩) = .ok (t', ⟨6⟩) ∧
        Grown ⟨1⟩ ⟨6⟩ Kind.filter.rank [.blank ⟨6⟩ .filter "filter" (n.level + 1) ⟨1⟩] t t' := by
  intro t
  have reached : Reached none t := Reached.new.parse _ {}
  have issued : t.issued = 6 := by decide +kernel
  obtain ⟨n, found⟩ : ∃ n, t.node? ⟨1⟩ = some n := Option.isSome_iff_exists.mp (by decide +kernel)
  obtain ⟨hn, id⟩ := node?_eq_some found
  obtain ⟨added, parsed⟩ := reached_add reached hn .filter
  obtain ⟨t', made, selected, grown⟩ := added (some ⟨1⟩) (by rw [id]; rfl)
  have order : (t.add .filter (some ⟨1⟩)).toOption.map (·.1.ids) =
      some [⟨0⟩, ⟨1⟩, ⟨2⟩, ⟨3⟩, ⟨6⟩, ⟨7⟩, ⟨4⟩, ⟨5⟩] := by decide +kernel
  rw [made] at order
  rw [issued] at made selected grown parsed
  rw [id] at grown parsed
  exact ⟨reached, n, hn, id, ⟨t', made, selected, grown, Option.some.inj order⟩, parsed "filter"⟩

end QueryMarkup.Tree
