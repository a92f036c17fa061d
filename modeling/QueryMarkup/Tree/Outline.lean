import QueryMarkup.Tree.Basic

/-!
A tree as an outline for a reader: one line for each node, indented by its level,
and under it one line for each finding about it.
-/
namespace QueryMarkup

/-- Two blanks for each level. -/
def outlineIndent (level : Nat) : String := String.ofList (List.replicate (2 * level) ' ')

/-- The line of a node: its tag, its label where that says more than the name of its kind,
and, if `spans` asks for it, where its tag's name stands. -/
def Node.outlineLine (node : Node) (spans : Bool) : String :=
  let label := if node.label = node.kind.defaultName then "" else " " ++ node.label
  let place := if spans then
      (node.span.map fun range => s!" @{range.start}..{range.stop}").getD ""
    else ""
  outlineIndent node.level ++ node.tag ++ label ++ place

/-- The line of a node and the lines of its findings. -/
def Node.outlineLines (node : Node) (spans : Bool) : List String :=
  node.outlineLine spans ::
    node.validation.value.map fun issue => outlineIndent node.level ++ "  ! " ++ issue.message

/-- The lines of all nodes in preorder, each ended by a line break. -/
def Tree.outline (tree : Tree) (spans : Bool) : String :=
  String.join ((tree.nodes.flatMap (·.outlineLines spans)).map (· ++ "\n"))

end QueryMarkup
