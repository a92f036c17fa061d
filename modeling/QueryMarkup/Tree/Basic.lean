import QueryMarkup.Tree.Node

/-!
The query tree: its nodes in preorder, each with its level. The descendants of a
node are the run of deeper nodes after it, so the list alone is the tree. The
revision counts the changes that can show in the markup.
-/
namespace QueryMarkup

/-- What a host is told. -/
inductive Notice where
  | selection (id : Option NodeId)
  | validation (id : NodeId) (messages : List String)
  deriving DecidableEq

/-- Why an operation on a tree is refused. -/
inductive TreeError where
  /-- No parent is given and nothing is selected. -/
  | missingParent
  | removeRoot
  | unknownNode (id : NodeId)
  deriving DecidableEq

def TreeError.message : TreeError → String
  | missingParent => "cannot add a node without a parent"
  | removeRoot => "the root node cannot be removed"
  | unknownNode id => s!"node {id.text} is not part of the tree"

structure Tree where
  /-- The nodes in preorder, the root first. -/
  nodes : List Node
  /-- How many nodes were made since the tree was last cleared. -/
  issued : Nat
  selection : Option NodeId
  revision : Nat
  /-- Where the schema is asked, if there is one. -/
  desk : Option Desk
  /-- What hosts were told, the earliest first. -/
  journal : List Notice

namespace Tree

/-- A tree without nodes. -/
def new (desk : Option Desk) : Tree := ⟨[], 0, none, 0, desk, []⟩

def empty : Tree := new none

def root? (tree : Tree) : Option Node := tree.nodes.head?

def isEmpty (tree : Tree) : Bool := tree.nodes.isEmpty

def node? (tree : Tree) (id : NodeId) : Option Node := tree.nodes.find? fun n => n.id == id

def contains (tree : Tree) (id : NodeId) : Bool := (tree.node? id).isSome

/-- The node with a name, or the error that there is none. -/
def getNode (tree : Tree) (id : NodeId) : Except TreeError Node :=
  match tree.node? id with
  | some node => .ok node
  | none => .error (.unknownNode id)

def ids (tree : Tree) : List NodeId := tree.nodes.map (·.id)

/-- What hosts are told of a change of a node. -/
def noticesOf (before after : Node) : List Notice :=
  if before.validation.version = after.validation.version then []
  else List.replicate before.observers
    (.validation after.id (after.validation.value.map (·.message)))

/-- Changes the node with a name. The change keeps the name. -/
def alter (tree : Tree) (id : NodeId) (f : Node → Node) : Tree :=
  { tree with
    nodes := tree.nodes.map fun n => if n.id = id then f n else n
    journal := tree.journal ++ ((tree.node? id).map fun n => noticesOf n (f n)).getD [] }

/-- Counts a change that can show in the markup. -/
def touch (tree : Tree) : Tree := { tree with revision := tree.revision + 1 }

/-- Selects a node or nothing; hosts are told if that is a change. -/
def setSelection (tree : Tree) (selection : Option NodeId) : Tree :=
  if tree.selection = selection then tree
  else { tree with selection, journal := tree.journal ++ [.selection selection] }

/-- The value of the root's attribute `aggregate`. -/
def rootAggregate (tree : Tree) : String := (tree.root?.map (·.value "aggregate")).getD ""

/-- The deeper nodes right after a node: its descendants. -/
def runOf (level : Nat) (after : List Node) : List Node := after.takeWhile fun n => level < n.level

/-- The nodes before and after the first one with this name. -/
def splitAt (id : NodeId) : List Node → Option (List Node × Node × List Node)
  | [] => none
  | n :: rest =>
    if n.id = id then some ([], n, rest)
    else (splitAt id rest).map fun (before, found, after) => (n :: before, found, after)

/-- The descendants of a node in preorder. -/
def descendants (tree : Tree) (id : NodeId) : List Node :=
  match splitAt id tree.nodes with
  | some (_, node, after) => runOf node.level after
  | none => []

/-- The children of a node in sibling order. -/
def children (tree : Tree) (id : NodeId) : List Node :=
  match splitAt id tree.nodes with
  | some (_, node, after) => (runOf node.level after).filter fun n => n.level == node.level + 1
  | none => []

/-- The node after a node in preorder. -/
def next? (tree : Tree) (id : NodeId) : Option NodeId :=
  (splitAt id tree.nodes).bind fun (_, _, after) => after.head?.map (·.id)

/-- The nearest of a node and its ancestors that names a table, going up at most
`fuel` times. -/
def nearestEntityWithin (tree : Tree) : Nat → NodeId → Option NodeId
  | 0, _ => none
  | fuel + 1, id => do
    let node ← tree.node? id
    if node.kind.isEntityLike then some id
    else tree.nearestEntityWithin fuel (← node.parent)

/-- The nearest of a node and its ancestors that names a table. No node has more
ancestors than there are nodes. -/
def nearestEntity (tree : Tree) (id : NodeId) : Option NodeId :=
  tree.nearestEntityWithin tree.nodes.length id

end Tree

end QueryMarkup
