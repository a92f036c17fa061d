import QueryMarkup.Proofs.Tree.Lineage
import QueryMarkup.Proofs.Tree.Recount
import QueryMarkup.Proofs.Tree.Upkeep

/-!
# Letting a node go

What a removal does to the nodes of a tree, exactly. A node goes with all that is below it. Its
parent counts its children anew, the node before it may have lost its last child, and nobody is told
on behalf of what is gone. Nothing else of any node that stays changes.
-/
namespace QueryMarkup

namespace Node

variable {n : Node}

/-- A node that stays when another goes: the one before that may no longer have children, and the
one above has another number of them. -/
def bereave (last parent : NodeId) (deeper : Bool) (rootAggregate : String) (count : Nat) (n : Node) :
    Node :=
  let linked := if n.id = last then { n with expandable := deeper } else n
  if linked.id = parent then linked.recount rootAggregate count else linked

/-- What the departure of some nodes may change of one that stays. -/
structure Bereft (last parent : NodeId) (gone : List NodeId) (n n' : Node) : Prop where
  /-- Those that are gone no longer watch the node. -/
  beside : n.id ≠ parent →
    n' = { n with slots := n.slots.forget gone, expandable := n'.expandable }
  /-- The node above has one child less. -/
  above : n.id = parent → n'.childCount + 1 = n.childCount ∧
    Recounted { n with slots := n.slots.forget gone, expandable := n'.expandable } n'
  /-- Only the node before may no longer have children. -/
  expandable : n.id ≠ last → n'.expandable = n.expandable

theorem Bereft.id {last parent : NodeId} {gone : List NodeId} {n n' : Node}
    (h : Bereft last parent gone n n') : n'.id = n.id := by
  by_cases here : n.id = parent
  · rw [(h.above here).2.same]
  · rw [h.beside here]

theorem Bereft.cells {last parent : NodeId} {gone : List NodeId} {n n' : Node}
    (h : Bereft last parent gone n n') (name : String) :
    (n'.slots.get name).cell = (n.slots.get name).cell := by
  have slots : n'.slots = n.slots.forget gone := by
    by_cases here : n.id = parent
    · rw [(h.above here).2.same]
    · rw [h.beside here]
  rw [slots, Slots.get_forget]
  rfl

theorem Settled.bereft (h : n.Settled) (last parent : NodeId) (deeper : Bool) (aggregate : String)
    {count : Nat} (counted : n.id = parent → count + 1 = n.childCount) (gone : List NodeId) :
    Bereft last parent gone n ((n.bereave last parent deeper aggregate count).forgetting gone) := by
  obtain ⟨expandable, linked, other⟩ : ∃ expandable,
      (if n.id = last then { n with expandable := deeper } else n) = { n with expandable } ∧
        (n.id ≠ last → expandable = n.expandable) := by
    by_cases here : n.id = last
    · exact ⟨deeper, if_pos here, fun apart => absurd here apart⟩
    · exact ⟨n.expandable, if_neg here, fun _ => rfl⟩
  unfold bereave
  rw [linked]
  dsimp only
  by_cases here : n.id = parent
  · have settled : Node.Settled { n with expandable } := ⟨h.label, h.markup, h.validation⟩
    obtain ⟨recounted, told⟩ := settled.recounted aggregate count
    rw [if_pos here]
    generalize recount aggregate count { n with expandable } = m at recounted told
    obtain ⟨number, checks, findings, rfl⟩ : ∃ childCount rules validation,
      m = { n with expandable, childCount, rules, validation } := ⟨_, _, _, recounted.same⟩
    refine ⟨fun apart => absurd here apart, fun _ => ⟨?_, rfl, recounted.rules, recounted.others⟩, other⟩
    rw [← counted here, ← told]
    rfl
  · rw [if_neg here]
    exact ⟨fun _ => rfl, fun same => absurd same here, other⟩

end Node

namespace Tree

variable {t t' : Tree} {n last : Node} {before after : List Node}

/-- A node below another can be removed. -/
theorem Sound.exists_remove (h : t.Sound) (split : t.nodes = before ++ last :: n :: after) {parent : NodeId}
    (inner : n.parent = some parent) : ∃ t', t.remove n.id = .ok t' := by
  rw [List.append_cons] at split
  unfold remove
  rw [h.splitAt_eq split]
  simp only [inner, List.getLast?_concat]
  exact ⟨_, rfl⟩

/-- A removal, node by node. -/
theorem Sound.nodes_remove (h : t.Sound) (split : t.nodes = before ++ last :: n :: after) {p : Node}
    (hp : p ∈ t.nodes) (inner : n.parent = some p.id) (e : t.remove n.id = .ok t') :
    t'.selection = some last.id ∧ ∃ deeper aggregate, t'.nodes =
      ((t.nodes.map (Node.bereave last.id p.id deeper aggregate (p.childCount - 1))).filter
        fun m => !(t.goneWith n.id).contains m.id).map (Node.forgetting (t.goneWith n.id)) := by
  obtain ⟨before', last', n', after', parent, cut, parent', rfl⟩ := remove_eq_ok e
  rw [List.append_cons] at split
  have here := cut.symm.trans (h.splitAt_eq split)
  simp only [Option.some.injEq, Prod.mk.injEq] at here
  obtain ⟨front, rfl, rfl⟩ := here
  obtain ⟨rfl, rfl⟩ : before' = before ∧ last' = last := by simpa using front
  obtain rfl : parent = p.id := Option.some.inj (parent'.symm.trans inner)
  have gone : n'.id :: (runOf n'.level after').map (·.id) = t.goneWith n'.id := by
    rw [goneWith, descendants, cut]
  rw [gone, node?_of_mem h.nodup hp, Option.map_some, Option.getD_some]
  generalize ((after'.drop (runOf n'.level after').length).head?.map fun m =>
    decide (last'.level < m.level)).getD false = deeper
  refine ⟨selection_setSelection _ _, deeper, ?_⟩
  let linked := t.alter last'.id fun m => { m with expandable := deeper }
  let link (m : Node) : Node := if m.id = last'.id then { m with expandable := deeper } else m
  have same (m : Node) : (link m).id = m.id := by
    unfold link
    split <;> rfl
  have there : link p ∈ linked.nodes := List.mem_map_of_mem hp
  have ids : linked.ids.Nodup := by
    rw [ids_alter]
    · exact h.nodup
    · exact fun _ => rfl
  have counted := nodes_setChildCount ids there (p.childCount - 1)
  rw [same] at counted
  refine ⟨linked.rootAggregate, ?_⟩
  rw [Tree.touch, nodes_setSelection, Tree.forget, Tree.cut, counted, nodes_alter, List.map_map]
  rfl

/-- With a node go those that are below it. -/
theorem Sound.mem_goneWith_iff (h : t.Sound) (hn : n ∈ t.nodes) {id : NodeId} (live : id ∈ t.ids) :
    id ∈ t.goneWith n.id ↔ t.Under n.id id := by
  obtain ⟨m, hm, rfl⟩ := List.mem_map.mp live
  rw [goneWith, List.mem_cons]
  constructor
  · rintro (same | below)
    · exact same ▸ .self
    · obtain ⟨k, hk, same⟩ := List.mem_map.mp below
      rw [← same]
      exact ((h.mem_descendants_iff hn).mp hk).2.1
  · intro under
    by_cases same : m.id = n.id
    · exact .inl same
    · exact .inr (List.mem_map_of_mem ((h.mem_descendants_iff hn).mpr ⟨hm, under, same⟩))

theorem Sound.ids_remove {id : NodeId} (e : t.remove id = .ok t') :
    t'.ids = t.ids.filter fun m => !(t.goneWith id).contains m := by
  have kept := @map_remove t _ Node.id id t' (fun m => m) (fun _ m => m) (fun _ => rfl)
    (fun _ _ => rfl) (fun _ _ _ => rfl) (fun _ _ _ => rfl) e
  rwa [List.map_id'] at kept

/-- The parent of a node that goes has a child less. -/
theorem Sound.bereft (h : t.Sound) (current : t.Current) (split : t.nodes = before ++ last :: n :: after)
    {p : Node} (hp : p ∈ t.nodes) (inner : n.parent = some p.id) (e : t.remove n.id = .ok t') {m : Node}
    (hm : m ∈ t.nodes) (stays : ¬ t.Under n.id m.id) :
    ∃ m' ∈ t'.nodes, Node.Bereft last.id p.id (t.goneWith n.id) m m' := by
  have hn : n ∈ t.nodes := split ▸ by simp
  obtain ⟨-, deeper, aggregate, nodes⟩ := h.nodes_remove split hp inner e
  have counted : m.id = p.id → p.childCount - 1 + 1 = m.childCount := by
    intro here
    have child := List.length_pos_of_mem ((h.mem_children_iff hp).mpr ⟨hn, inner⟩)
    rw [h.length_children hp] at child
    rw [h.eq_of_id hp hm here]
    omega
  have bereft := (current.settled m hm).bereft last.id p.id deeper aggregate counted (t.goneWith n.id)
  have id : (m.bereave last.id p.id deeper aggregate (p.childCount - 1)).id = m.id := bereft.id
  refine ⟨_, ?_, bereft⟩
  rw [nodes]
  refine List.mem_map_of_mem (List.mem_filter.mpr ⟨List.mem_map_of_mem hm, ?_⟩)
  rw [id]
  simpa [h.mem_goneWith_iff hn (List.mem_map_of_mem hm)] using stays

end Tree

end QueryMarkup
