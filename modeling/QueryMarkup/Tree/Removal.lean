import QueryMarkup.Tree.Insertion

/-!
Removing a node with all its descendants. The node before it is selected, and
nothing that is left watches for what is gone.
-/
namespace QueryMarkup.Tree

/-- Ends what these nodes watch elsewhere. -/
def forget (tree : Tree) (gone : List NodeId) : Tree :=
  { tree with nodes := tree.nodes.map fun n => { n with slots := n.slots.forget gone } }

/-- Removes a node and its descendants. The root stays. -/
def remove (tree : Tree) (id : NodeId) : Except TreeError Tree :=
  match splitAt id tree.nodes with
  | none => .error (.unknownNode id)
  | some (before, node, after) =>
    match node.parent, before.getLast? with
    | none, _ => .error .removeRoot
    | some _, none => .error (.unknownNode id)
    | some parent, some previous =>
      let run := runOf node.level after
      let rest := after.drop run.length
      let deeper := (rest.head?.map fun n => decide (previous.level < n.level)).getD false
      let linked := tree.alter previous.id fun n => { n with expandable := deeper }
      let count := ((tree.node? parent).map (·.childCount)).getD 0
      let counted := linked.setChildCount parent (count - 1)
      let gone := id :: run.map (·.id)
      let cut := { counted with nodes := counted.nodes.filter fun n => !gone.contains n.id }
      .ok ((cut.forget gone).setSelection (some previous.id)).touch

end QueryMarkup.Tree
