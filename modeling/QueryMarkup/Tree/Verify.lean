import QueryMarkup.Tree.Basic

/-!
A check of the links between nodes. The links of a tree are laid out by node
name: each node with its level, its parent and the node after it. The check
walks along the links from the root and compares what each node records with
what the walk shows.

The walk over the descendants of a node ends at the first node that is not
deeper. Links that run in a circle below a node have no such end, and then the
check has no result.
-/
namespace QueryMarkup

/-- What a node records about its place. -/
structure Link where
  id : NodeId
  level : Nat
  order : Nat
  parent : Option NodeId
  next : Option NodeId
  expandable : Bool
  expanded : Bool
  visible : Bool
  childCount : Nat
  deriving DecidableEq

/-- All links, each at the place that its node's name gives. -/
structure Links where
  root : Option NodeId
  entries : List (Option Link)

inductive Violation where
  | cycle (node : NodeId)
  | unreachable (reached live : Nat)
  | rootLevel (node : NodeId)
  | levelJump (node : NodeId) (above level : Nat)
  | wrongParent (node : NodeId) (recorded actual : Option NodeId)
  | siblingOrder (node : NodeId) (order previous : Nat)
  | expandable (node : NodeId) (recorded : Bool) (children : Nat)
  | visibility (node : NodeId) (recorded expected : Bool)
  deriving DecidableEq

/-- How a message writes a parent, or that there is none. -/
def Violation.parentText : Option NodeId → String
  | none => "None"
  | some id => s!"Some(NodeId({id.index}))"

def Violation.message : Violation → String
  | cycle node => s!"chain visits {node.text} twice"
  | unreachable reached live => s!"{reached} of {live} live nodes are reachable from the root"
  | rootLevel node => s!"{node.text} is not on level 0"
  | levelJump node above level => s!"{node.text} jumps from level {above} to {level}"
  | wrongParent node recorded actual =>
    s!"{node.text} names {parentText recorded} as parent but follows {parentText actual}"
  | siblingOrder node order previous =>
    s!"{node.text} (order {order}) comes after a sibling with order {previous}"
  | expandable node recorded children =>
    s!"{node.text} has expandable={recorded} but {children} children"
  | visibility node recorded expected =>
    s!"{node.text} has visible={recorded}, ancestors say {expected}"

namespace Links

def get? (links : Links) (id : NodeId) : Option Link := links.entries[id.index]?.join

/-- The number of nodes that are there. -/
def live (links : Links) : Nat := (links.entries.filter Option.isSome).length

/-- The nodes deeper than `level` on the walk from `cursor`, if the walk leaves them
within `fuel` steps. -/
def runFrom (links : Links) (level : Nat) : Nat → Option NodeId → Option (List Link)
  | 0, _ => none
  | fuel + 1, cursor =>
    match cursor.bind links.get? with
    | none => some []
    | some link =>
      if level < link.level then (links.runFrom level fuel link.next).map (link :: ·)
      else some []

/-- The children of a node. A walk of more steps than there are nodes never ends. -/
def children? (links : Links) (link : Link) : Option (List Link) :=
  (links.runFrom link.level (links.entries.length + 1) link.next).map fun run =>
    run.filter fun n => n.level == link.level + 1

/-- A node on the path from the root to the node that is visited. -/
structure Frame where
  level : Nat
  id : NodeId
  /-- The node is visible and expanded. -/
  opens : Bool
  /-- The order of its child that was visited last. -/
  lastOrder : Option Nat

/-- Compares a node with the path that leads to it. -/
def checkPlace (link : Link) (path : List Frame) : Except Violation Unit := do
  match path with
  | [] => if link.level ≠ 0 then throw (.rootLevel link.id)
  | top :: _ =>
    if top.level + 1 < link.level ∨ link.level = 0 then
      throw (.levelJump link.id top.level link.level)
  let above := path.dropWhile fun f => decide (link.level ≤ f.level)
  let actual := above.head?.map (·.id)
  if link.parent ≠ actual then throw (.wrongParent link.id link.parent actual)
  match above.head?.bind (·.lastOrder) with
  | some previous =>
    if link.order < previous then throw (.siblingOrder link.id link.order previous)
  | none => pure ()
  let expected := (above.head?.map (·.opens)).getD true
  if link.visible ≠ expected then throw (.visibility link.id link.visible expected)

/-- The path after a node was visited: its ancestors, the parent with the node's order,
and the node itself. -/
def extend (link : Link) (path : List Frame) : List Frame :=
  let here : Frame := ⟨link.level, link.id, link.visible && link.expanded, none⟩
  match path.dropWhile fun f => decide (link.level ≤ f.level) with
  | [] => [here]
  | parent :: rest => here :: { parent with lastOrder := some link.order } :: rest

/-- Compares the number of children with what the node records. -/
def checkChildren (link : Link) (children : Nat) : Except Violation Unit :=
  if link.expandable ≠ decide (0 < children) ∨ link.childCount ≠ children then
    .error (.expandable link.id link.expandable children)
  else .ok ()

/-- Visits the nodes from `cursor` on. `seen` are the nodes visited before. There is no
result when the children of a node cannot be found. -/
def verifyFrom (links : Links) :
    Nat → Option NodeId → List NodeId → List Frame → Option (Except Violation Nat)
  | 0, _, seen, _ => some (.ok seen.length)
  | fuel + 1, cursor, seen, path =>
    match cursor.bind links.get? with
    | none => some (.ok seen.length)
    | some link =>
      if seen.contains link.id then some (.error (.cycle link.id))
      else match checkPlace link path with
        | .error violation => some (.error violation)
        | .ok () =>
          match links.children? link with
          | none => none
          | some children =>
            match checkChildren link children.length with
            | .error violation => some (.error violation)
            | .ok () => links.verifyFrom fuel link.next (link.id :: seen) (extend link path)

/-- Checks all links. A walk visits no more nodes than there are before it meets one again. -/
def verify (links : Links) : Option (Except Violation Unit) :=
  (links.verifyFrom (links.entries.length + 1) links.root [] []).map fun
    | .error violation => .error violation
    | .ok reached =>
      if reached = links.live then .ok () else .error (.unreachable reached links.live)

end Links

/-- The place of a node, given the node after it. -/
def Node.link (node : Node) (next : Option NodeId) : Link where
  id := node.id
  level := node.level
  order := node.rank
  parent := node.parent
  next := next
  expandable := node.expandable
  expanded := node.expanded
  visible := node.visible
  childCount := node.childCount

/-- Nodes with the name of the node after each. -/
def linkNodes : List Node → List Link
  | [] => []
  | n :: rest => n.link (rest.head?.map (·.id)) :: linkNodes rest

/-- The links of a tree. -/
def Tree.links (tree : Tree) : Links where
  root := tree.root?.map (·.id)
  entries := (List.range tree.issued).map fun i =>
    (linkNodes tree.nodes).find? fun l => l.id == ⟨i⟩

/-- Checks the links of a tree. -/
def Tree.verify (tree : Tree) : Option (Except Violation Unit) := tree.links.verify

end QueryMarkup
