import QueryMarkup.Proofs.Document.Canonical
import QueryMarkup.Proofs.Document.Printing

/-!
# What determines a tree

Where nodes stand in a tree is settled by what stands in it, in any order: parents say which nodes
are below a node, and kinds and numbers say how siblings are ordered. So two trees that hold the
same entries, but for attributes, hold them in the same order.
-/
namespace QueryMarkup

/-- An entry without attributes. -/
def Entry.hollow (e : Entry) : Entry := { e with attributes := [], value := fun _ => "" }

/-- A sibling stands before another: its rank is lower, or the same and it is older. -/
def Entry.Precedes (a b : Entry) : Prop :=
  a.kind.rank < b.kind.rank ∨ a.kind.rank = b.kind.rank ∧ a.id.index < b.id.index

/-- Where a node stands: its entry without attributes. -/
def Node.standing (n : Node) : Entry := n.entry.hollow

namespace Tree

/-- Where the nodes of a tree stand, in preorder. -/
def standings (t : Tree) : List Entry := t.nodes.map Node.standing

variable {t t' : Tree} {n n' : Node}

theorem standings_eq (t : Tree) : t.standings = t.entries.map Entry.hollow := by
  rw [standings, entries, List.map_map]
  rfl

theorem Sound.nodup_standings (h : t.Sound) : t.standings.Nodup := by
  refine List.Nodup.of_map Entry.id ?_
  rw [standings, List.map_map]
  exact h.nodup

theorem Sound.children_standings (h : t.Sound) (hn : n ∈ t.nodes) :
    (t.children n.id).map Node.standing =
      t.standings.filter fun e => decide (e.parent = some n.id) := by
  rw [h.children_eq hn, standings, List.filter_map]
  rfl

/-- Children are in order. -/
theorem Sound.children_precede (h : t.Sound) (hn : n ∈ t.nodes) :
    ((t.children n.id).map Node.standing).Pairwise Entry.Precedes := by
  have sorted := List.pairwise_map.mp h.arranged.sorted
  rw [h.children_eq hn, List.pairwise_map]
  refine (sorted.filter _).imp_of_mem fun {a b} ha hb ordered => ?_
  have same : a.parent = b.parent :=
    (of_decide_eq_true (List.mem_filter.mp ha).2).trans (of_decide_eq_true (List.mem_filter.mp hb).2).symm
  exact ordered same

/-- Nodes with one name have the same children in trees that hold the same nodes. -/
theorem Sound.children_congr (h : t.Sound) (h' : t'.Sound)
    (same : ∀ e, e ∈ t.standings ↔ e ∈ t'.standings) (hn : n ∈ t.nodes) (hn' : n' ∈ t'.nodes)
    (id : n.id = n'.id) :
    (t.children n.id).map Node.standing = (t'.children n'.id).map Node.standing := by
  have perm : ((t.children n.id).map Node.standing).Perm ((t'.children n'.id).map Node.standing) := by
    rw [h.children_standings hn, h'.children_standings hn', id]
    refine (List.perm_ext_iff_of_nodup (h.nodup_standings.filter _) (h'.nodup_standings.filter _)).mpr ?_
    intro e
    rw [List.mem_filter, List.mem_filter, same]
  refine perm.eq_of_pairwise (fun a b _ _ before after => ?_) (h.children_precede hn) (h'.children_precede hn')
  rcases before with before | before <;> rcases after with after | after <;> omega

/-- Below nodes with one name there is the same in trees that hold the same nodes. -/
theorem Sound.descendants_congr (h : t.Sound) (h' : t'.Sound)
    (same : ∀ e, e ∈ t.standings ↔ e ∈ t'.standings) (hn : n ∈ t.nodes) (hn' : n' ∈ t'.nodes)
    (id : n.id = n'.id) :
    (t.descendants n.id).map Node.standing = (t'.descendants n'.id).map Node.standing := by
  -- below a child there is less than below its parent
  induction size : (t.descendants n.id).length using Nat.strong_induction_on generalizing n n' with
  | _ k ih =>
    have children := h.children_congr h' same hn hn' id
    rw [h.descendants_eq hn, h'.descendants_eq hn', List.map_flatMap, List.map_flatMap]
    refine flatMap_congr_map children fun m hm m' hm' alike => ?_
    have smaller := Document.length_descendants_inside h hn
      (show m ∈ Document.inside t n by rwa [Document.inside, ← h.children_eq hn])
    have inner := ih _ (size ▸ smaller) (h.level_of_mem_children hn hm).1
      (h'.level_of_mem_children hn' hm').1 (congrArg Entry.id alike) rfl
    rw [List.map_cons, List.map_cons, alike, inner]

/-- Sound trees that hold the same nodes, but for attributes, hold them in the same order. -/
theorem Sound.standings_congr (h : t.Sound) (h' : t'.Sound)
    (same : ∀ e, e ∈ t.standings ↔ e ∈ t'.standings) : t.standings = t'.standings := by
  cases hr : t.nodes.head? with
  | none =>
    have empty : t.standings = [] := by rw [standings, List.head?_eq_none_iff.mp hr]; rfl
    rw [empty] at same ⊢
    exact (List.eq_nil_iff_forall_not_mem.mpr fun e he => List.not_mem_nil ((same e).mpr he)).symm
  | some root =>
    have hn := List.mem_of_mem_head? hr
    have top : root.parent = none := by
      refine h.arranged.root root.shape ?_
      rw [shapes, List.head?_map, hr]
      rfl
    obtain ⟨root', hn', alike⟩ := List.mem_map.mp ((same _).mp (List.mem_map_of_mem hn))
    have top' : root'.parent = none := (congrArg Entry.parent alike).trans top
    have below := h.descendants_congr h' same hn hn' (congrArg Entry.id alike).symm
    rw [standings, standings, h.nodes_eq hr, h'.nodes_eq (h'.root_of_parent hn' top'), List.map_cons,
      List.map_cons, below, alike]

end Tree

end QueryMarkup
