import QueryMarkup.Proofs.Tree.Admission
import QueryMarkup.Proofs.Tree.Departure
import QueryMarkup.Proofs.Tree.Tally

/-!
# Children that come and go

A node that gets or loses a child evaluates its rule that demands one. No other validator of the
nodes that stay is evaluated.
-/
namespace QueryMarkup

namespace Node

variable {n : Node} {v : Validator}

theorem runs?_watchAll (entries : List (NodeId × String × Watcher)) (n : Node) :
    (n.watchAll entries).runs? = n.runs? := by
  obtain ⟨slots, e, -⟩ := watchAll_eq entries n
  rw [e]
  rfl

theorem demandsChild_watchAll (entries : List (NodeId × String × Watcher)) (n : Node) :
    (n.watchAll entries).demandsChild = n.demandsChild := by
  obtain ⟨slots, e, -⟩ := watchAll_eq entries n
  rw [e]
  rfl

theorem id_takeIn (n : Node) (parent : NodeId) (aggregate : String) (count : Nat) :
    (n.takeIn parent aggregate count).id = n.id := by
  unfold takeIn
  split
  · exact id_recount _ _ _
  · rfl

theorem id_bereave (n : Node) (last parent : NodeId) (deeper : Bool) (aggregate : String) (count : Nat) :
    (n.bereave last parent deeper aggregate count).id = n.id := by
  unfold bereave
  dsimp only
  split <;> split
  · exact id_recount _ _ _
  · rfl
  · exact id_recount _ _ _
  · rfl

/-- A node that takes a child in evaluates its rule that demands one. -/
theorem runs?_takeIn (own : v.node = n.id) (parent : NodeId) (aggregate : String) {count : Nat}
    (other : n.id = parent → n.childCount ≠ count) :
    (n.takeIn parent aggregate count).runs? v =
      (n.runs? v).map (· + if n.id = parent ∧ n.demandsChild v then 1 else 0) := by
  unfold takeIn
  split
  · rename_i here
    have recounted := runs?_recount (n := { n with expandable := true }) (other here) aggregate own
    subst here
    simp only [true_and]
    exact recounted
  · rename_i apart
    simp [apart]

/-- A node that stays when another goes evaluates its rule that demands a child if it lost one. -/
theorem runs?_bereave (own : v.node = n.id) (last parent : NodeId) (deeper : Bool) (aggregate : String)
    {count : Nat} (other : n.id = parent → n.childCount ≠ count) :
    (n.bereave last parent deeper aggregate count).runs? v =
      (n.runs? v).map (· + if n.id = parent ∧ n.demandsChild v then 1 else 0) := by
  unfold bereave
  obtain ⟨expandable, linked⟩ : ∃ expandable,
      (if n.id = last then { n with expandable := deeper } else n) = { n with expandable } := by
    split
    · exact ⟨deeper, rfl⟩
    · exact ⟨n.expandable, rfl⟩
  rw [linked]
  dsimp only
  split
  · rename_i here
    have recounted := runs?_recount (n := { n with expandable }) (other here) aggregate own
    subst here
    simp only [true_and]
    exact recounted
  · rename_i apart
    have same : ({ n with expandable } : Node).runs? v = n.runs? v := rfl
    simp [apart, same]

end Node

namespace Tree

variable {t t' : Tree} {n p : Node} {v : Validator} {k : Nat}

theorem runs?_eq_some (h : t.runs? v = some k) : ∃ n ∈ t.nodes, n.id = v.node ∧ n.runs? v = some k := by
  obtain ⟨n, found, runs⟩ := Option.bind_eq_some_iff.mp h
  obtain ⟨hn, here⟩ := node?_eq_some found
  exact ⟨n, hn, here, runs⟩

theorem runs?_of_mem (nd : t.ids.Nodup) (hn : n ∈ t.nodes) (here : v.node = n.id) :
    t.runs? v = n.runs? v := by
  rw [runs?, here, node?_of_mem nd hn]
  rfl

/-- The validator is a rule of this node that demands a child. -/
def demandsChild (t : Tree) (p : NodeId) (v : Validator) : Bool :=
  decide (v.node = p) && (t.node? p).any (·.demandsChild v)

theorem demandsChild_eq (nd : t.ids.Nodup) (hn : n ∈ t.nodes) (here : v.node = n.id) (p : NodeId) :
    t.demandsChild p v = decide (n.id = p ∧ n.demandsChild v) := by
  unfold demandsChild
  by_cases same : n.id = p
  · subst same
    simp [here, node?_of_mem nd hn]
  · simp [here, same]

theorem Sound.runs?_insert (h : t.Sound) {kind : Kind} {tag : String} {parent id : NodeId}
    (e : t.insert kind tag parent = .ok (t', id)) (existed : t.runs? v = some k) :
    t'.runs? v = some (k + if t.demandsChild parent v then 1 else 0) := by
  have h' := insert_sound h e
  obtain ⟨before, p, after, cut, -⟩ := insert_eq_ok e
  obtain ⟨nodes, rfl, -⟩ := splitAt_eq_some cut
  obtain ⟨made, entries, aggregate, inserted, shown⟩ := @insert_eq_map t p kind tag _ _ h nodes
  obtain ⟨rfl, -⟩ := Prod.mk.inj (Except.ok.inj (e.symm.trans inserted))
  obtain ⟨m, hm, here, runs⟩ := runs?_eq_some existed
  have there : ((m.watchAll entries).takeIn p.id aggregate (p.childCount + 1)).unshaded ∈
      t'.nodes.map Node.unshaded := by
    rw [shown]
    exact List.mem_map_of_mem ((mem_placed nodes).mpr (.inr hm))
  obtain ⟨m', hm', same⟩ := List.mem_map.mp there
  obtain ⟨visible, rfl⟩ := Node.exists_of_unshaded same
  have counted : ((m.watchAll entries).takeIn p.id aggregate (p.childCount + 1)).runs? v =
      some (k + if m.id = p.id ∧ m.demandsChild v then 1 else 0) := by
    rw [Node.runs?_takeIn (by rw [Node.id_watchAll, here]), Node.runs?_watchAll, runs,
      Node.demandsChild_watchAll, Node.id_watchAll]
    · rfl
    · intro above
      rw [Node.id_watchAll] at above
      obtain ⟨slots, watched, -⟩ := Node.watchAll_eq entries m
      rw [watched, h.eq_of_id (nodes ▸ by simp) hm above]
      exact Nat.ne_of_lt (Nat.lt_succ_self _)
  have own : v.node = ((m.watchAll entries).takeIn p.id aggregate (p.childCount + 1)).id := by
    rw [Node.id_takeIn, Node.id_watchAll, here]
  rw [runs?_of_mem h'.nodup hm' own, demandsChild_eq h.nodup hm here.symm]
  simp only [decide_eq_true_eq]
  exact counted

theorem Sound.runs?_remove (h : t.Sound) (hn : n ∈ t.nodes) (hp : p ∈ t.nodes)
    (inner : n.parent = some p.id) (e : t.remove n.id = .ok t') (existed : t.runs? v = some k) :
    t'.runs? v = if v.node ∈ t.goneWith n.id then none
      else some (k + if t.demandsChild p.id v then 1 else 0) := by
  have h' := remove_sound h e
  obtain ⟨before, last, n', after, parent, cut, -, -⟩ := remove_eq_ok e
  obtain ⟨split, same, -⟩ := splitAt_eq_some cut
  rw [← List.append_cons] at split
  obtain rfl := (h.eq_of_id hn (split ▸ by simp) same).symm
  obtain ⟨-, deeper, aggregate, nodes⟩ := h.nodes_remove split hp inner e
  obtain ⟨m, hm, here, runs⟩ := runs?_eq_some existed
  split
  · rename_i gone
    rw [runs?, node?_eq_none.mpr]
    · rfl
    · intro m' hm' same
      have live : v.node ∈ t'.ids := same ▸ List.mem_map_of_mem hm'
      rw [Sound.ids_remove e] at live
      simp [gone] at live
  · rename_i stays
    have counted : ((m.bereave last.id p.id deeper aggregate (p.childCount - 1)).forgetting
        (t.goneWith n.id)).runs? v = some (k + if m.id = p.id ∧ m.demandsChild v then 1 else 0) := by
      change (m.bereave last.id p.id deeper aggregate (p.childCount - 1)).runs? v = _
      rw [Node.runs?_bereave here.symm, runs]
      · rfl
      · intro above
        have child := List.length_pos_of_mem ((h.mem_children_iff hp).mpr ⟨hn, inner⟩)
        rw [h.length_children hp] at child
        rw [h.eq_of_id hp hm above]
        omega
    have own : v.node = ((m.bereave last.id p.id deeper aggregate (p.childCount - 1)).forgetting
        (t.goneWith n.id)).id := by
      rw [Node.id_forgetting, Node.id_bereave, here]
    have there : (m.bereave last.id p.id deeper aggregate (p.childCount - 1)).forgetting
        (t.goneWith n.id) ∈ t'.nodes := by
      rw [nodes]
      refine List.mem_map_of_mem (List.mem_filter.mpr ⟨List.mem_map_of_mem hm, ?_⟩)
      rw [Node.id_bereave, here]
      simpa using stays
    rw [runs?_of_mem h'.nodup there own, demandsChild_eq h.nodup hm here.symm]
    simpa only [decide_eq_true_eq] using counted

end Tree

end QueryMarkup
