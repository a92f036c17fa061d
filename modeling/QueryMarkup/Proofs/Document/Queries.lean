import QueryMarkup.Proofs.Document.Soundness
import QueryMarkup.Proofs.Tree.InPlace
import QueryMarkup.Proofs.Tree.Lineage

/-!
# What is above and below a node

Children and descendants are read off the levels of the nodes that follow, and the nearest table is
looked for among the parents. In a tree that is reached the levels say what the parents say:

* `Climbs`: the nodes that are met on the way up, by the parents that nodes record;
* `Climbs.nearestEntityWithin`: the nearest table is the first one that is met;
* `Sound.descendants_eq_filter`: the descendants are the nodes that the node is above.
-/
namespace QueryMarkup.Tree

variable {desk : Option Desk} {t : Tree} {n : Node} {id : NodeId} {path : List Node}

/-- The nodes from a node up to the root, each followed by the one that it records as its parent. -/
inductive Climbs (t : Tree) : NodeId → List Node → Prop where
  | root {n : Node} (live : n ∈ t.nodes) (top : n.parent = none) : Climbs t n.id [n]
  | child {n : Node} {parent : NodeId} {path : List Node} (live : n ∈ t.nodes)
    (above : n.parent = some parent) (rest : Climbs t parent path) : Climbs t n.id (n :: path)

/-! ## Upwards -/

theorem Climbs.subset (climbs : t.Climbs id path) : path ⊆ t.nodes := by
  induction climbs with
  | root live => exact List.cons_subset.mpr ⟨live, List.nil_subset _⟩
  | child live _ _ ih => exact List.cons_subset.mpr ⟨live, ih⟩

/-- Nothing on the way up is deeper than where it starts. -/
theorem Climbs.level_le (h : t.Sound) (climbs : t.Climbs id path) (hn : n ∈ t.nodes)
    (start : n.id = id) : ∀ m ∈ path, m.level ≤ n.level := by
  induction climbs generalizing n with
  | root live =>
    intro m hm
    rw [List.mem_singleton.mp hm, h.eq_of_id live hn start]
  | child live above _ ih =>
    obtain rfl := h.eq_of_id live hn start
    obtain ⟨parent, hp, rfl, below⟩ := h.exists_parent hn above
    have higher := h.level_lt_of_below hp hn below
    intro m hm
    rcases List.mem_cons.mp hm with rfl | hm
    · exact Nat.le_refl _
    · have := ih hp rfl m hm
      omega

theorem Climbs.nodup (h : t.Sound) (climbs : t.Climbs id path) : path.Nodup := by
  induction climbs with
  | root => exact List.nodup_singleton _
  | child live above rest ih =>
    obtain ⟨parent, hp, rfl, below⟩ := h.exists_parent live above
    have higher := h.level_lt_of_below hp live below
    refine List.nodup_cons.mpr ⟨fun again => ?_, ih⟩
    have := rest.level_le h hp rfl _ again
    omega

/-- The way up is no longer than there are nodes. -/
theorem Climbs.length_le (h : t.Sound) (climbs : t.Climbs id path) :
    path.length ≤ t.nodes.length :=
  ((climbs.nodup h).subperm climbs.subset).length_le

/-- From every node there is a way up to the root. -/
theorem Sound.exists_climbs (h : t.Sound) (hn : n ∈ t.nodes) : ∃ path, t.Climbs n.id path := by
  induction size : n.level using Nat.strong_induction_on generalizing n with
  | _ k ih =>
    cases above : n.parent with
    | none => exact ⟨[n], .root hn above⟩
    | some parent =>
      obtain ⟨m, hm, rfl, below⟩ := h.exists_parent hn above
      have higher := h.level_lt_of_below hm hn below
      obtain ⟨path, climbs⟩ := ih m.level (size ▸ higher) hm rfl
      exact ⟨n :: path, .child hn above climbs⟩

/-- The nearest table is the first one on the way up. -/
theorem Climbs.nearestEntityWithin (nd : t.ids.Nodup) (climbs : t.Climbs id path) (fuel : Nat)
    (enough : path.length ≤ fuel) :
    t.nearestEntityWithin fuel id = (path.find? fun m => m.kind.isEntityLike).map (·.id) := by
  induction climbs generalizing fuel with
  | @root n live top =>
    cases fuel with
    | zero => simp at enough
    | succ fuel =>
      rw [Tree.nearestEntityWithin, node?_of_mem nd live]
      cases table : n.kind.isEntityLike <;> simp [table, top]
  | @child n parent path live above _ ih =>
    cases fuel with
    | zero => simp at enough
    | succ fuel =>
      have later := ih fuel (Nat.le_of_succ_le_succ enough)
      rw [Tree.nearestEntityWithin, node?_of_mem nd live]
      cases table : n.kind.isEntityLike with
      | true => simp [table]
      | false => simpa [table, above] using later

/-! ## Downwards -/

theorem Sound.descendants_sublist (h : t.Sound) (hn : n ∈ t.nodes) :
    (t.descendants n.id).Sublist t.nodes := by
  obtain ⟨before, after, split⟩ := List.append_of_mem hn
  have run : (runOf n.level after).Sublist after := List.takeWhile_sublist _
  rw [h.descendants_split split, split]
  exact run.trans ((List.sublist_cons_self n after).trans (List.sublist_append_right before _))

open Classical in
/-- The descendants of a node are the nodes that it is above, in their order. -/
theorem Sound.descendants_eq_filter (h : t.Sound) (hn : n ∈ t.nodes) :
    t.descendants n.id = t.nodes.filter fun m => decide (t.Below n.id m.id) := by
  have inside := (h.descendants_sublist hn).filter fun m => decide (t.Below n.id m.id)
  have all : (t.descendants n.id).filter (fun m => decide (t.Below n.id m.id)) =
      t.descendants n.id := by
    apply List.filter_eq_self.mpr
    intro m hm
    exact decide_eq_true ((h.mem_descendants_iff hn).mp hm).2
  rw [all] at inside
  -- nothing of the filtered list is left out, and it has no node twice
  apply inside.eq_of_length_le
  apply List.Subperm.length_le
  apply List.Nodup.subperm
  · exact (h.nodup.of_map _).filter _
  · intro m hm
    obtain ⟨live, below⟩ := List.mem_filter.mp hm
    exact (h.mem_descendants_iff hn).mpr ⟨live, of_decide_eq_true below⟩

open Classical in
/-- In every tree that is reached the queries say what the parents say: the children of a node are
the nodes that record it as their parent, as many as it counts, its descendants those that it is
above, all in the order of the tree, and the nearest table is the first one from the node up.
About a name that no node has there is nothing to say. -/
theorem reached_queries (h : Reached desk t) (id : NodeId) :
    (∀ n ∈ t.nodes, n.id = id →
      t.children id = t.nodes.filter (fun m => decide (m.parent = some id)) ∧
      (t.children id).length = n.childCount ∧
      t.descendants id = t.nodes.filter (fun m => decide (t.Below id m.id)) ∧
      (∃ path, t.Climbs id path) ∧
      ∀ path, t.Climbs id path →
        t.nearestEntity id = (path.find? fun m => m.kind.isEntityLike).map (·.id)) ∧
    (t.contains id = false →
      t.children id = [] ∧ t.descendants id = [] ∧ t.nearestEntity id = none) := by
  have sound := h.sound
  constructor
  · rintro n hn rfl
    refine ⟨sound.children_eq hn, sound.length_children hn, sound.descendants_eq_filter hn,
      sound.exists_climbs hn, ?_⟩
    intro path climbs
    exact climbs.nearestEntityWithin sound.nodup _ (climbs.length_le sound)
  · intro dead
    have gone : id ∉ t.ids := by
      intro live
      rw [contains_iff.mpr live] at dead
      cases dead
    have nowhere := splitAt_of_not_mem gone
    refine ⟨?_, ?_, ?_⟩
    · rw [children, nowhere]
    · rw [descendants, nowhere]
    · have unknown : t.node? id = none := by simpa [contains] using dead
      unfold nearestEntity
      cases t.nodes.length with
      | zero => rfl
      | succ fuel => rw [nearestEntityWithin, unknown]; rfl

open Classical in
/-- A filter in a link in a table, once its sibling is removed. -/
theorem reached_queries_run :
    let t := ((Document.parse (new none)
      "<fetch><entity><order/><link-entity><filter><condition/></filter></link-entity></entity></fetch>"
      {}).1.edit (.remove ⟨2⟩)).edit (.add .filter (some ⟨1⟩))
    Reached none t ∧ t.nearestEntity ⟨5⟩ = some ⟨3⟩ ∧
      (∀ n ∈ t.nodes, n.id = ⟨3⟩ →
        t.children ⟨3⟩ = t.nodes.filter (fun m => decide (m.parent = some ⟨3⟩)) ∧
        (t.children ⟨3⟩).length = n.childCount ∧
        t.descendants ⟨3⟩ = t.nodes.filter (fun m => decide (t.Below ⟨3⟩ m.id)) ∧
        (∃ path, t.Climbs ⟨3⟩ path) ∧
        ∀ path, t.Climbs ⟨3⟩ path →
          t.nearestEntity ⟨3⟩ = (path.find? fun m => m.kind.isEntityLike).map (·.id)) ∧
      (t.contains ⟨3⟩ = false →
        t.children ⟨3⟩ = [] ∧ t.descendants ⟨3⟩ = [] ∧ t.nearestEntity ⟨3⟩ = none) := by
  intro t
  have reached : Reached none t := .edit _ (.edit _ (.parse _ _ .new))
  exact ⟨reached, by decide +kernel, reached_queries reached ⟨3⟩⟩

end QueryMarkup.Tree
