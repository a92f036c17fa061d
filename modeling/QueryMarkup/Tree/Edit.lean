import QueryMarkup.Tree.Attributes
import QueryMarkup.Tree.Removal

/-!
Changes of a tree as data. A host asks for one change after the other. Each is
made and answered, or it is refused and the tree stays as it is.
-/
namespace QueryMarkup

/-- A change that a host may ask for. -/
inductive Edit where
  | clear
  /-- Puts the default document in place. -/
  | reset
  /-- Adds a node under a parent, or else under the selected node. -/
  | add (kind : Kind) (parent : Option NodeId)
  /-- Adds a node read from markup. -/
  | addParsed (kind : Kind) (tag : String) (parent : Option NodeId)
  | remove (id : NodeId)
  | toggle (id : NodeId)
  | select (id : Option NodeId)
  | setAttribute (id : NodeId) (name value : String)
  /-- Sets an attribute read from markup. -/
  | insertParsed (id : NodeId) (name value : String)
  | removeAttribute (id : NodeId) (name : String)
  /-- Writes into an attribute only if the node has it. -/
  | writeAttribute (id : NodeId) (name value : String)
  /-- Answers an inquiry of the schema. -/
  | resolve (number : Nat) (verdict : Verdict)
  deriving DecidableEq

/-- The answer to a change that was made. -/
inductive Reply where
  | done
  | node (id : NodeId)
  /-- Whether the node had the attribute. -/
  | found (had : Bool)
  | issues (issues : List StructuralIssue)
  /-- The inquiry is closed; the answer may have come too late to count. -/
  | closed (late : Bool)
  | noInquiry
  deriving DecidableEq

namespace Tree

/-- Makes a change or refuses it. -/
def perform (tree : Tree) : Edit → Except TreeError (Tree × Reply)
  | .clear => .ok (tree.clear, .done)
  | .reset => .ok (tree.reset, .done)
  | .add kind parent => (tree.add kind parent).map fun (tree, id) => (tree, .node id)
  | .addParsed kind tag parent =>
    (tree.addParsed kind tag parent).map fun (tree, id) => (tree, .node id)
  | .remove id => (tree.remove id).map (·, .done)
  | .toggle id => (tree.toggle id).map (·, .done)
  | .select id => (tree.select id).map (·, .done)
  | .setAttribute id name value => (tree.setAttribute id name value).map (·, .done)
  | .insertParsed id name value =>
    (tree.insertParsed id name value).map fun (tree, issues) => (tree, .issues issues)
  | .removeAttribute id name =>
    (tree.removeAttribute id name).map fun (tree, had) => (tree, .found had)
  | .writeAttribute id name value =>
    let (tree, had) := tree.writeAttribute id name value
    .ok (tree, .found had)
  | .resolve number verdict =>
    match tree.resolve number verdict with
    | some (tree, late) => .ok (tree, .closed late)
    | none => .ok (tree, .noInquiry)

/-- The tree after a change. One that is refused changes nothing. -/
def edit (tree : Tree) (edit : Edit) : Tree :=
  match tree.perform edit with
  | .ok (tree, _) => tree
  | .error _ => tree

end Tree

end QueryMarkup
