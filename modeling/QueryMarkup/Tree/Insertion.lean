import QueryMarkup.Tree.Notify
import QueryMarkup.Tree.Visibility

/-!
New nodes. A child goes behind all its siblings of the same or a lower rank with
their descendants, so siblings stay sorted by rank and, within a rank, by age.
-/
namespace QueryMarkup.Tree

/-- A new child on this level and of this rank passes the node: it is a descendant of
an earlier sibling or a sibling that stays before it. -/
def passes (level rank : Nat) (n : Node) : Bool :=
  decide (level < n.level) || (n.level == level && decide (n.rank ≤ rank))

/-- The node after which a new child of `parent` goes: the last one that it passes,
or the parent. -/
def insertionPoint (tree : Tree) (parent : NodeId) (level rank : Nat) : NodeId :=
  match splitAt parent tree.nodes with
  | none => parent
  | some (_, _, after) => (((after.takeWhile (passes level rank)).getLast?).map (·.id)).getD parent

/-- The schema check of a new node, and the slots it is told of. There is one where the
kind names a table, or names a column and stands under a table. -/
def schemaCheckFor (tree : Tree) (id : NodeId) (kind : Kind) (parent : Option NodeId) :
    Option SchemaCheck := do
  let desk ← tree.desk
  let table ←
    if kind.isEntityLike then some id
    else if kind.columnName?.isSome then parent.bind tree.nearestEntity else none
  return { number := desk.tickets.length, table, rejection := none, evaluations := 1 }

/-- What a schema check is told of: the name of the table, then that of the column. -/
def schemaWatches (id : NodeId) (kind : Kind) (check : SchemaCheck) : List (NodeId × String) :=
  (check.table, "name") :: kind.columnName?.toList.map fun name => (id, name)

/-- The slots that the rules of a new node are told of. -/
def ruleWatches (id root : NodeId) (kind : Kind) : List (NodeId × String × Watcher) :=
  (kind.ruleWatchers id).map fun (watch, watcher) =>
    match watch with
    | .own name => (id, name, watcher)
    | .root name => (root, name, watcher)

/-- Adds a watcher to a slot of a node. -/
def watchSlot (tree : Tree) (id : NodeId) (name : String) (watcher : Watcher) : Tree :=
  tree.alter id fun n => { n with slots := n.slots.watch name watcher }

/-- The node with a name, as it is when it has just been made. -/
def fresh (tree : Tree) (kind : Kind) (tag : String) (parent : Option Node) : Node :=
  let bare : Node :=
    { id := ⟨tree.issued⟩, kind, tag, level := (parent.map (·.level + 1)).getD 0
      parent := parent.map (·.id) }
  Node.settle { bare with
    rules := bare.firstRules tree.rootAggregate
    schema := tree.schemaCheckFor bare.id kind bare.parent }

/-- Places all watchers of a node that is in the tree, and puts the first question to
the schema. -/
def wire (tree : Tree) (node : Node) : Tree :=
  let root := (tree.root?.map (·.id)).getD node.id
  let ruled := (ruleWatches node.id root node.kind).foldl
    (fun t (id, name, watcher) => t.watchSlot id name watcher) tree
  match node.schema with
  | none => ruled
  | some check =>
    let registered : Tree := { ruled with desk := ruled.desk.map Desk.register }
    let wired := (schemaWatches node.id node.kind check).foldl
      (fun t (id, name) => t.watchSlot id name (.schema node.id)) registered
    wired.askSchema node.id

/-- Makes the root of an empty tree. -/
def plantRoot (tree : Tree) (kind : Kind) (tag : String) : Tree :=
  let node := tree.fresh kind tag none
  { tree with nodes := [node], issued := tree.issued + 1 }.wire node

/-- Changes the number of children of a node and evaluates the rules about it. -/
def setChildCount (tree : Tree) (id : NodeId) (count : Nat) : Tree :=
  match tree.node? id with
  | none => tree
  | some node =>
    if node.childCount = count then tree
    else (node.rules.zipIdx.filter fun (c, _) => c.rule == .requireChild).foldl
      (fun t (_, index) => t.recheckRule id index)
      (tree.alter id fun n => { n with childCount := count })

/-- Puts a new node under a parent, which is expanded for it. -/
def insert (tree : Tree) (kind : Kind) (tag : String) (parent : NodeId) :
    Except TreeError (Tree × NodeId) :=
  match splitAt parent tree.nodes with
  | none => .error (.unknownNode parent)
  | some (before, above, after) =>
    let node := tree.fresh kind tag (some above)
    let passed := after.takeWhile (passes node.level node.rank)
    let placed :=
      { tree with
        nodes := before ++ above :: passed ++ node :: after.drop passed.length
        issued := tree.issued + 1 }.wire node
    let linked := placed.alter parent fun n => { n with expandable := true }
    let counted := linked.setChildCount parent (above.childCount + 1)
    let opened := counted.alter parent fun n => { n with expanded := true }
    .ok ((opened.refreshVisibility parent).touch, node.id)

/-- Adds a node under a parent, or else under the selected node, together with the
child that its kind cannot be without. The added node is then selected. -/
def add (tree : Tree) (kind : Kind) (parent : Option NodeId) : Except TreeError (Tree × NodeId) := do
  let some parent := parent.or tree.selection | throw .missingParent
  let (added, id) ← tree.insert kind (kind.tag?.getD "") parent
  match kind.mandatoryChild? with
  | none => return (added.setSelection (some id), id)
  | some child =>
    let (both, _) ← added.insert child (child.tag?.getD "") id
    return (both.setSelection (some id), id)

/-- Adds a node read from markup. The first one becomes the root. -/
def addParsed (tree : Tree) (kind : Kind) (tag : String) (parent : Option NodeId) :
    Except TreeError (Tree × NodeId) :=
  if tree.isEmpty then .ok ((tree.plantRoot kind tag).touch, ⟨tree.issued⟩)
  else match parent with
    | none => .error .missingParent
    | some parent => tree.insert kind tag parent

/-- Removes all nodes and the selection. Numbering starts again. -/
def clear (tree : Tree) : Tree :=
  ({ tree with nodes := [], issued := 0 }.setSelection none).touch

/-- Puts the default document in place: a root with one entity. -/
def reset (tree : Tree) : Tree :=
  let planted := tree.clear.plantRoot .fetch "fetch"
  match planted.add .entity (some ⟨0⟩) with
  | .ok (tree, _) => tree.setSelection none
  | .error _ => planted

end QueryMarkup.Tree
