import QueryMarkup.Tree.Notify

/-!
The attributes of the nodes in a tree. A value is stored in its slot first, so
rules and the schema see it before the attribute itself does.
-/
namespace QueryMarkup.Tree

/-- Adds an attribute that a node does not have. -/
def createAttribute (tree : Tree) (id : NodeId) (name value : String) : Tree :=
  ((tree.writeSlot id name value).alter id fun n => n.insertAttribute name).touch

/-- Sets an attribute of a node; one that it does not have is added. -/
def setAttribute (tree : Tree) (id : NodeId) (name value : String) : Except TreeError Tree := do
  let node ← tree.getNode id
  if (node.attribute? name).isSome then return tree.writeSlot id name value
  return tree.createAttribute id name value

/-- Sets an attribute read from markup, and tells what is wrong with the name of a new one. -/
def insertParsed (tree : Tree) (id : NodeId) (name value : String) :
    Except TreeError (Tree × List StructuralIssue) := do
  let node ← tree.getNode id
  if (node.attribute? name).isSome then return (tree.writeSlot id name value, [])
  return (tree.createAttribute id name value, Attribute.nameIssues node.kind name)

/-- Removes an attribute and tells whether it was there. Its slot is emptied first,
while the attribute still follows it. -/
def removeAttribute (tree : Tree) (id : NodeId) (name : String) :
    Except TreeError (Tree × Bool) := do
  let node ← tree.getNode id
  if (node.attribute? name).isNone then return (tree, false)
  return (((tree.writeSlot id name "").alter id fun n => n.eraseAttribute name).touch, true)

/-- Writes into an attribute that a node has, and tells whether it has it. -/
def writeAttribute (tree : Tree) (id : NodeId) (name value : String) : Tree × Bool :=
  if (((tree.node? id).bind (·.attribute? name))).isSome then (tree.writeSlot id name value, true)
  else (tree, false)

/-- Answers an inquiry that is still open. The result says whether the answer came too
late to count. -/
def resolve (tree : Tree) (number : Nat) (verdict : Verdict) : Option (Tree × Bool) := do
  let desk ← tree.desk
  let request ← desk.openRequest? number
  let closed := { tree with desk := some (desk.close number) }
  if desk.isStale request then return (closed, true)
  return (closed.answerCheck request.check verdict.message?, false)

/-- Records where the tag's name of a node stands in the text. -/
def setSpan (tree : Tree) (id : NodeId) (span : Option Text.Range) : Tree :=
  tree.alter id fun n => { n with span }

/-- Records where the name of an attribute stands in the text. -/
def setAttributeSpan (tree : Tree) (id : NodeId) (name : String) (span : Option Text.Range) : Tree :=
  tree.alter id fun n => n.alterAttribute name fun a => { a with span }

/-- Forgets where the names of all attributes stand. -/
def clearAttributeSpans (tree : Tree) : Tree :=
  { tree with nodes := tree.nodes.map fun n =>
      { n with attributes := n.attributes.map fun a => { a with span := none } } }

/-- Lets a host be told of changes of a node's findings. -/
def observe (tree : Tree) (id : NodeId) : Except TreeError Tree := do
  let _ ← tree.getNode id
  return tree.alter id fun n => { n with observers := n.observers + 1 }

end QueryMarkup.Tree
