import QueryMarkup.Tree.Basic

/-!
Writing a slot and telling its watchers. A write that changes the value tells
the watchers in their order; each brings one check or one written form up to
date, or puts a question to the schema.
-/
namespace QueryMarkup.Tree

/-- Evaluates one rule of a node again. -/
def recheckRule (tree : Tree) (id : NodeId) (index : Nat) : Tree :=
  tree.alter id fun n => n.recheckRule tree.rootAggregate index

/-- Stores an answer of the schema in the node that has the check. -/
def answerCheck (tree : Tree) (check : Nat) (rejection : Option String) : Tree :=
  match tree.nodes.find? fun n => (n.schema.map (·.number)) == some check with
  | some node => tree.alter node.id fun n => n.answerSchema rejection
  | none => tree

/-- Withdraws the schema's last answer about a node and asks again about the names
that it has now. -/
def askSchema (tree : Tree) (id : NodeId) : Tree :=
  match tree.desk, (tree.node? id).bind fun n => n.schema.map fun check => (n, check) with
  | some desk, some (node, check) =>
    let renewed := desk.renew check.number
    let waiting := { tree with desk := some renewed }.alter id fun n => n.answerSchema none
    let table := ((tree.node? check.table).map (·.value "name")).getD ""
    match node.inquiry? table with
    | none => waiting
    | some inquiry =>
      let asked := { waiting with desk := some (renewed.send check.number inquiry) }
      match (renewed.host inquiry).verdict? with
      | some verdict => asked.answerCheck check.number verdict.message?
      | none => asked
  | _, _ => tree

/-- Lets the attribute of a slot follow the slot. A change of its written form is a
change of the markup. -/
def followSlot (tree : Tree) (id : NodeId) (name : String) (watcher : Watcher) : Tree :=
  let changed := tree.alter id fun n => n.followSlot name watcher
  if (tree.node? id).map (·.displayVersion name) = (changed.node? id).map (·.displayVersion name)
  then changed else changed.touch

/-- Tells one watcher of a slot. -/
def tell (tree : Tree) (id : NodeId) (name : String) : Watcher → Tree
  | .rule owner index => tree.recheckRule owner index
  | .schema owner => tree.askSchema owner
  | .display => tree.followSlot id name .display
  | .valueCheck => tree.followSlot id name .valueCheck

/-- Stores a value in a slot of a node and tells the slot's watchers, if it is a change. -/
def writeSlot (tree : Tree) (id : NodeId) (name value : String) : Tree :=
  match tree.node? id with
  | none => tree
  | some node =>
    let slot := node.slots.get name
    if slot.value = value then tree
    else slot.watchers.foldl (fun t w => t.tell id name w)
      (tree.alter id fun n => n.setSlot name value)

end QueryMarkup.Tree
