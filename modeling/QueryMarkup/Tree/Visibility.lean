import QueryMarkup.Tree.Basic

/-!
Which nodes are visible. A node is visible when all its ancestors are visible
and expanded; expanding or collapsing a node reaches its descendants only.
-/
namespace QueryMarkup.Tree

/-- Walks over nodes in preorder and sets their visibility. The stack holds the
levels of the ancestors, the innermost first, and whether what is below each shows. -/
def spread (stack : List (Nat × Bool)) : List Node → List Node
  | [] => []
  | n :: rest =>
    let above := stack.dropWhile fun entry => decide (n.level ≤ entry.1)
    let visible := (above.head?.map (·.2)).getD false
    { n with visible } :: spread ((n.level, visible && n.expanded) :: above) rest

/-- Sets the visibility of the descendants of a node. -/
def refreshVisibility (tree : Tree) (id : NodeId) : Tree :=
  match splitAt id tree.nodes with
  | none => tree
  | some (before, node, after) =>
    let run := runOf node.level after
    { tree with
      nodes := before ++ node :: spread [(node.level, node.visible && node.expanded)] run
        ++ after.drop run.length }

/-- Expands or collapses a node that has children. What is selected is no longer
selected when it is hidden. -/
def toggle (tree : Tree) (id : NodeId) : Except TreeError Tree := do
  let node ← tree.getNode id
  if !node.expandable then return tree
  let flipped := (tree.alter id fun n => { n with expanded := !n.expanded }).refreshVisibility id
  match flipped.selection.bind flipped.node? with
  | some selected => return if selected.visible then flipped else flipped.setSelection none
  | none => return flipped

/-- Selects a node, or nothing. -/
def select (tree : Tree) : Option NodeId → Except TreeError Tree
  | none => .ok (tree.setSelection none)
  | some id => do
    let _ ← tree.getNode id
    return tree.setSelection (some id)

end QueryMarkup.Tree
