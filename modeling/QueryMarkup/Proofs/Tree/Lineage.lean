import QueryMarkup.Proofs.Tree.Docket
import QueryMarkup.Proofs.Tree.Preorder
import QueryMarkup.Proofs.Tree.Proper

/-!
# Lineage

Which nodes are below a node is recorded twice: by the parents of nodes, and by the run of deeper
nodes after it. In a sound tree both say the same. What shows follows from the parents, too: a node
is visible exactly when all nodes above it are expanded.
-/
namespace QueryMarkup

/-- A node but for whether it shows. -/
def Node.unshaded (n : Node) : Node := { n with visible := true }

theorem Node.exists_of_unshaded {n m : Node} (h : m.unshaded = n.unshaded) :
    ∃ visible, m = { n with visible } :=
  ⟨m.visible, calc m = { m.unshaded with visible := m.visible } := rfl
    _ = { n with visible := m.visible } := by rw [h]; rfl⟩

namespace Tree

variable {t t' : Tree} {n m : Node}

/-- A node is a descendant of another by the parents that nodes record. -/
def Below (t : Tree) (top id : NodeId) : Prop := t.Under top id ∧ id ≠ top

theorem Under.trans {top mid low : NodeId} (h : t.Under top mid) (h' : t.Under mid low) :
    t.Under top low := by
  induction h' with
  | self => exact h
  | child hn parent _ ih => exact .child hn parent ih

theorem Sound.eq_of_id (h : t.Sound) (hn : n ∈ t.nodes) (hm : m ∈ t.nodes) (same : m.id = n.id) :
    m = n :=
  List.inj_on_of_nodup_map h.nodup hm hn same

/-! ## Children -/

theorem Sound.children_sublist (h : t.Sound) (hn : n ∈ t.nodes) :
    (t.children n.id).Sublist t.nodes := by
  obtain ⟨before, after, split⟩ := List.append_of_mem hn
  rw [h.children_split split, split]
  have run : (runOf n.level after).Sublist after := List.takeWhile_sublist _
  exact (List.filter_sublist.trans run).trans ((List.sublist_cons_self n after).trans
    (List.sublist_append_right before _))

theorem Sound.mem_children_iff (h : t.Sound) (hn : n ∈ t.nodes) :
    m ∈ t.children n.id ↔ m ∈ t.nodes ∧ m.parent = some n.id := by
  have shapes := h.shapes_children hn
  constructor
  · intro hm
    have kid : m.shape ∈ kidsOf t.shapes n.id := shapes ▸ List.mem_map_of_mem hm
    exact ⟨(h.children_sublist hn).subset hm, of_decide_eq_true (List.mem_filter.mp kid).2⟩
  · rintro ⟨hm, parent⟩
    have kid : m.shape ∈ kidsOf t.shapes n.id :=
      List.mem_filter.mpr ⟨List.mem_map_of_mem hm, decide_eq_true parent⟩
    rw [← shapes] at kid
    obtain ⟨c, hc, same⟩ := List.mem_map.mp kid
    have id : c.id = m.id := congrArg Shape.id same
    rwa [← h.eq_of_id hm ((h.children_sublist hn).subset hc) id]

/-- The children of a node are the nodes that record it as their parent, in their order. -/
theorem Sound.children_eq (h : t.Sound) (hn : n ∈ t.nodes) :
    t.children n.id = t.nodes.filter fun m => decide (m.parent = some n.id) := by
  have inside := (h.children_sublist hn).filter fun m => decide (m.parent = some n.id)
  have all : (t.children n.id).filter (fun m => decide (m.parent = some n.id)) = t.children n.id :=
    List.filter_eq_self.mpr fun m hm => decide_eq_true ((h.mem_children_iff hn).mp hm).2
  rw [all] at inside
  refine inside.eq_of_length ?_
  have kids := congrArg List.length (h.shapes_children hn)
  rw [kidsOf, shapes, List.filter_map, List.length_map, List.length_map] at kids
  exact kids

/-! ## Descendants -/

theorem Sound.mem_of_mem_descendants (h : t.Sound) (hn : n ∈ t.nodes)
    (hm : m ∈ t.descendants n.id) : m ∈ t.nodes ∧ n.level < m.level := by
  obtain ⟨before, after, split⟩ := List.append_of_mem hn
  rw [h.descendants_split split] at hm
  refine ⟨?_, by simpa using List.mem_takeWhile_imp hm⟩
  rw [split]
  exact List.mem_append_right before (List.mem_cons_of_mem n ((List.takeWhile_sublist _).subset hm))

/-- The run of a descendant is inside that of the node. -/
theorem Sound.descendants_subset (h : t.Sound) (hn : n ∈ t.nodes) (hm : m ∈ t.descendants n.id) :
    t.descendants m.id ⊆ t.descendants n.id := by
  obtain ⟨before, after, split⟩ := List.append_of_mem hn
  obtain ⟨-, deeper⟩ := h.mem_of_mem_descendants hn hm
  rw [h.descendants_split split] at hm ⊢
  obtain ⟨inner, outer, run⟩ := List.append_of_mem hm
  have parts := @List.takeWhile_append_dropWhile _ (fun k : Node => decide (n.level < k.level)) after
  have stop := List.head?_dropWhile_not (fun k : Node => decide (n.level < k.level)) after
  rw [← runOf, run] at parts
  generalize after.dropWhile (fun k : Node => decide (n.level < k.level)) = beyond at parts stop
  have here : t.nodes = (before ++ n :: inner) ++ m :: (outer ++ beyond) := by
    rw [split, ← parts]
    simp
  rw [h.descendants_split here, run, runOf, takeWhile_append_of_head ?_]
  · intro k hk
    exact List.mem_append_right _ (List.mem_cons_of_mem _ ((List.takeWhile_sublist _).subset hk))
  · intro k hk
    rw [Option.mem_def.mp hk] at stop
    simp only [decide_eq_false_iff_not, Nat.not_lt] at stop ⊢
    omega

theorem Sound.under_of_mem_descendants (h : t.Sound) (hn : n ∈ t.nodes)
    (hm : m ∈ t.descendants n.id) : t.Under n.id m.id := by
  -- the run of a child is a part of the run of the node, so the induction is on its length
  induction size : (t.descendants n.id).length using Nat.strong_induction_on generalizing n with
  | _ k ih =>
    rw [h.descendants_eq hn] at hm
    obtain ⟨c, hc, inside⟩ := List.mem_flatMap.mp hm
    obtain ⟨live, parent⟩ := (h.mem_children_iff hn).mp hc
    have child : t.Under n.id c.id := .child live parent .self
    rcases List.mem_cons.mp inside with rfl | inside
    · exact child
    · refine child.trans (ih _ ?_ live inside rfl)
      have part : (c :: t.descendants c.id).Sublist (t.descendants n.id) := by
        obtain ⟨l, r, kids⟩ := List.append_of_mem hc
        rw [h.descendants_eq hn, kids, List.flatMap_append, List.flatMap_cons]
        exact (List.sublist_append_left _ _).trans (List.sublist_append_right _ _)
      have shorter := part.length_le
      rw [List.length_cons, size] at shorter
      exact shorter

theorem Sound.mem_descendants_of_under (h : t.Sound) (hn : n ∈ t.nodes) {id : NodeId}
    (under : t.Under n.id id) : id = n.id ∨ ∃ m ∈ t.descendants n.id, m.id = id := by
  induction under with
  | self => exact .inl rfl
  | @child m parent hm above _ ih =>
    right
    rcases ih with rfl | ⟨q, hq, rfl⟩
    · have child := (h.mem_children_iff hn).mpr ⟨hm, above⟩
      refine ⟨m, ?_, rfl⟩
      rw [h.descendants_eq hn]
      exact List.mem_flatMap.mpr ⟨m, child, List.mem_cons_self⟩
    · obtain ⟨live, -⟩ := h.mem_of_mem_descendants hn hq
      have child := (h.mem_children_iff live).mpr ⟨hm, above⟩
      refine ⟨m, h.descendants_subset hn hq ?_, rfl⟩
      rw [h.descendants_eq live]
      exact List.mem_flatMap.mpr ⟨m, child, List.mem_cons_self⟩

/-- The run of deeper nodes after a node is made of its descendants. -/
theorem Sound.mem_descendants_iff (h : t.Sound) (hn : n ∈ t.nodes) :
    m ∈ t.descendants n.id ↔ m ∈ t.nodes ∧ t.Below n.id m.id := by
  constructor
  · intro hm
    obtain ⟨live, deeper⟩ := h.mem_of_mem_descendants hn hm
    refine ⟨live, h.under_of_mem_descendants hn hm, fun same => ?_⟩
    rw [h.eq_of_id hn live same] at deeper
    exact Nat.lt_irrefl _ deeper
  · rintro ⟨hm, under, other⟩
    rcases h.mem_descendants_of_under hn under with same | ⟨k, hk, same⟩
    · exact absurd same other
    · rwa [← h.eq_of_id hm (h.mem_of_mem_descendants hn hk).1 same]

/-- Descendants are deeper. -/
theorem Sound.level_lt_of_below (h : t.Sound) (hn : n ∈ t.nodes) (hm : m ∈ t.nodes)
    (below : t.Below n.id m.id) : n.level < m.level :=
  (h.mem_of_mem_descendants hn ((h.mem_descendants_iff hn).mpr ⟨hm, below⟩)).2

/-! ## What shows -/

/-- The root shows, and any other node where its parent shows and is expanded. -/
theorem Sound.visible_eq (h : t.Sound) (hn : n ∈ t.nodes) (hm : m ∈ t.nodes)
    (parent : n.parent = some m.id) : n.visible = (m.visible && m.expanded) := by
  obtain ⟨before, after, split⟩ := List.append_of_mem (List.mem_map_of_mem (f := Node.shape) hn)
  have arranged := h.arranged
  have shown := h.shown
  rw [shapes, split] at arranged shown
  have inner : before ≠ [] := by
    rintro rfl
    have top : n.parent = none := arranged.root n.shape rfl
    rw [top] at parent
    cases parent
  -- both marks are those of the last shape before the node that is higher
  obtain ⟨⟨a, ha, -, above⟩, -⟩ := ((rooted_append inner).mp arranged.nested).2
  obtain ⟨⟨b, hb, -, visible⟩, -⟩ := ((rooted_append inner).mp shown.below).2
  rw [Path.head?_upTo_pastAll] at ha hb
  obtain ⟨s, hs, rfl⟩ := Option.map_eq_some_iff.mp ha
  rw [hs] at hb
  cases hb
  have there : s ∈ before := List.mem_reverse.mp (List.mem_of_find?_eq_some hs)
  have live : m.shape ∈ before ++ n.shape :: after := split ▸ List.mem_map_of_mem hm
  have id : m.shape.id = s.id := Option.some.inj (parent.symm.trans above)
  have same : m.shape = s :=
    arranged.eq_of_id live (List.mem_append_left _ there) id
  rw [← same] at visible
  exact visible

theorem Sound.visible_root (h : t.Sound) (hn : n ∈ t.nodes) (top : n.parent = none) :
    n.visible = true := by
  have first := h.root_of_parent hn top
  refine h.shown.root n.shape ?_
  rw [shapes, List.head?_map, Option.mem_def.mp first]
  rfl

/-- Every node but the root has a node above it. -/
theorem Sound.exists_parent (h : t.Sound) (hn : n ∈ t.nodes) {parent : NodeId}
    (hp : n.parent = some parent) : ∃ m ∈ t.nodes, m.id = parent ∧ t.Below m.id n.id := by
  obtain ⟨m, hm, rfl⟩ := List.mem_map.mp (h.parent_mem hn hp)
  have child := (h.mem_children_iff hm).mpr ⟨hn, hp⟩
  have deeper := (h.level_of_mem_children hm child).2
  refine ⟨m, hm, rfl, .child hn hp .self, fun same => ?_⟩
  rw [h.eq_of_id hm hn same] at deeper
  omega

/-- A node that shows has only visible and expanded nodes above it. -/
theorem Sound.opens_of_visible (h : t.Sound) (hm : m ∈ t.nodes) {id : NodeId}
    (under : t.Under m.id id) (hn : n ∈ t.nodes) (same : n.id = id) (other : n.id ≠ m.id)
    (visible : n.visible = true) : m.visible = true ∧ m.expanded = true := by
  induction under generalizing n with
  | self => exact absurd same other
  | @child k parent hk above _ ih =>
    obtain rfl := h.eq_of_id hk hn same
    obtain ⟨q, hq, rfl, -⟩ := h.exists_parent hk above
    rw [h.visible_eq hk hq above, Bool.and_eq_true] at visible
    by_cases first : q.id = m.id
    · rwa [h.eq_of_id hm hq first] at visible
    · exact ih hq rfl first visible.1

/-- A node shows exactly when all nodes above it show and are expanded. -/
theorem Sound.visible_iff (h : t.Sound) (hn : n ∈ t.nodes) :
    n.visible = true ↔
      ∀ m ∈ t.nodes, t.Below m.id n.id → m.visible = true ∧ m.expanded = true := by
  constructor
  · intro visible m hm below
    exact h.opens_of_visible hm below.1 hn rfl below.2 visible
  · intro opens
    cases hp : n.parent with
    | none => exact h.visible_root hn hp
    | some parent =>
      obtain ⟨q, hq, rfl, below⟩ := h.exists_parent hn hp
      obtain ⟨visible, expanded⟩ := opens q hq below
      rw [h.visible_eq hn hq hp, visible, expanded]
      rfl

/-- Hiding is by collapsing: a node shows exactly when all nodes above it are expanded. -/
theorem Sound.visible_iff_expanded (h : t.Sound) (hn : n ∈ t.nodes) :
    n.visible = true ↔ ∀ m ∈ t.nodes, t.Below m.id n.id → m.expanded = true := by
  constructor
  · intro visible m hm below
    exact ((h.visible_iff hn).mp visible m hm below).2
  · -- the parent shows as what is above it is above the node, too
    intro expanded
    induction size : n.level using Nat.strong_induction_on generalizing n with
    | _ k ih =>
      cases hp : n.parent with
      | none => exact h.visible_root hn hp
      | some parent =>
        obtain ⟨q, hq, rfl, below⟩ := h.exists_parent hn hp
        have higher := h.level_lt_of_below hq hn below
        have visible := ih q.level (size ▸ higher) hq (fun m hm higherUp => ?_) rfl
        · rw [h.visible_eq hn hq hp, visible, expanded q hq below]
          rfl
        · refine expanded m hm ⟨higherUp.1.trans below.1, fun same => ?_⟩
          have highest := h.level_lt_of_below hm hq higherUp
          rw [h.eq_of_id hm hn same] at higher
          omega

/-- Trees that have the same nodes above a node, expanded alike, show it alike. -/
theorem Sound.visible_congr (h : t.Sound) (h' : t'.Sound) {n' : Node} (hn : n ∈ t.nodes)
    (hn' : n' ∈ t'.nodes)
    (alike : ∀ m ∈ t.nodes, t.Below m.id n.id →
      ∃ m' ∈ t'.nodes, t'.Below m'.id n'.id ∧ m'.expanded = m.expanded)
    (alike' : ∀ m' ∈ t'.nodes, t'.Below m'.id n'.id →
      ∃ m ∈ t.nodes, t.Below m.id n.id ∧ m.expanded = m'.expanded) : n'.visible = n.visible := by
  rw [Bool.eq_iff_iff, h.visible_iff_expanded hn, h'.visible_iff_expanded hn']
  constructor
  · intro expanded m hm below
    obtain ⟨m', hm', below', same⟩ := alike m hm below
    rw [← same, expanded m' hm' below']
  · intro expanded m' hm' below'
    obtain ⟨m, hm, below, same⟩ := alike' m' hm' below'
    rw [← same, expanded m hm below]

/-- Which nodes are below which depends on names and parents only. -/
theorem Below.congr (same : t'.nodes.map (fun n => (n.id, n.parent)) =
    t.nodes.map fun n => (n.id, n.parent)) {top low : NodeId} (h : t.Below top low) :
    t'.Below top low := by
  refine ⟨h.1.mono fun n hn => ?_, h.2⟩
  have there : (n.id, n.parent) ∈ t'.nodes.map fun n => (n.id, n.parent) :=
    same ▸ List.mem_map_of_mem hn
  obtain ⟨m, hm, e⟩ := List.mem_map.mp there
  exact ⟨m, hm, congrArg Prod.fst e, congrArg Prod.snd e⟩

/-- Sound trees that are alike but for what shows also show the same. -/
theorem Sound.nodes_eq_of_unshaded (h : t.Sound) (h' : t'.Sound)
    (same : t'.nodes.map Node.unshaded = t.nodes.map Node.unshaded) : t'.nodes = t.nodes := by
  have alike {u v : Tree} (same : v.nodes.map Node.unshaded = u.nodes.map Node.unshaded) {low : NodeId} :
      ∀ m ∈ u.nodes, u.Below m.id low →
        ∃ m' ∈ v.nodes, v.Below m'.id low ∧ m'.expanded = m.expanded := by
    intro m hm below
    have there : m.unshaded ∈ v.nodes.map Node.unshaded := same ▸ List.mem_map_of_mem hm
    obtain ⟨m', hm', e⟩ := List.mem_map.mp there
    obtain ⟨visible, rfl⟩ := Node.exists_of_unshaded e
    have links := congrArg (List.map fun n : Node => (n.id, n.parent)) same
    rw [List.map_map, List.map_map] at links
    exact ⟨_, hm', below.congr links, rfl⟩
  have size : t'.nodes.length = t.nodes.length := by
    simpa using congrArg List.length same
  refine List.ext_getElem size fun i hi' hi => ?_
  have here : t'.nodes[i].unshaded = t.nodes[i].unshaded := by
    have at_i := List.getElem_of_eq same (by simpa using hi')
    rwa [List.getElem_map, List.getElem_map] at at_i
  obtain ⟨shown, e⟩ := Node.exists_of_unshaded here
  have id : t'.nodes[i].id = t.nodes[i].id := by rw [e]
  have visible : t'.nodes[i].visible = t.nodes[i].visible := by
    refine h.visible_congr h' (List.getElem_mem hi) (List.getElem_mem hi') ?_ ?_
    · rw [id]
      exact alike same
    · rw [id]
      exact alike same.symm
  calc t'.nodes[i] = { t'.nodes[i].unshaded with visible := t'.nodes[i].visible } := rfl
    _ = { t.nodes[i].unshaded with visible := t.nodes[i].visible } := by rw [here, visible]
    _ = t.nodes[i] := rfl

end Tree

end QueryMarkup
