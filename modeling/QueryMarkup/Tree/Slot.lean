import QueryMarkup.Reactive.Cell

/-!
The attribute values of a node. There is a slot for every name, whether the node
has the attribute or not; a slot outlives its attribute with an empty value. It
knows who is to be told of its changes, in the order in which they asked.
-/
namespace QueryMarkup

/-- The name of a node: its place among the nodes made since the tree was last cleared. -/
structure NodeId where
  index : Nat
  deriving DecidableEq

/-- How messages write a node's name. -/
def NodeId.text (id : NodeId) : String := s!"#{id.index}"

/-- Who is told when the value of a slot changes. -/
inductive Watcher where
  /-- The rule with this place among the rules of a node. -/
  | rule (node : NodeId) (index : Nat)
  /-- The schema check of a node. -/
  | schema (node : NodeId)
  /-- The written form of the attribute that holds the slot. -/
  | display
  /-- The value check of the attribute that holds the slot. -/
  | valueCheck
  deriving DecidableEq

/-- Whether a watcher works for one of these nodes, other than the slot's own. -/
def Watcher.servesAny (watcher : Watcher) (nodes : List NodeId) : Bool :=
  match watcher with
  | rule node _ => nodes.contains node
  | schema node => nodes.contains node
  | display | valueCheck => false

structure Slot where
  name : String
  cell : Cell String := ⟨"", 0⟩
  watchers : List Watcher := []
  deriving DecidableEq

namespace Slot

def value (slot : Slot) : String := slot.cell.value

def set (slot : Slot) (value : String) : Slot := { slot with cell := slot.cell.set value }

def watch (slot : Slot) (watcher : Watcher) : Slot :=
  { slot with watchers := slot.watchers ++ [watcher] }

/-- Ends what the slot's own attribute watches. -/
def release (slot : Slot) : Slot :=
  { slot with watchers := slot.watchers.filter fun w => w != .display && w != .valueCheck }

/-- Ends what these nodes watch. -/
def forget (slot : Slot) (nodes : List NodeId) : Slot :=
  { slot with watchers := slot.watchers.filter fun w => !w.servesAny nodes }

end Slot

/-- The slots of a node that were ever used. All others are empty and unwatched. -/
structure Slots where
  used : List Slot
  deriving DecidableEq

namespace Slots

def empty : Slots := ⟨[]⟩

def get (slots : Slots) (name : String) : Slot :=
  (slots.used.find? (·.name == name)).getD { name }

def value (slots : Slots) (name : String) : String := (slots.get name).value

/-- Puts a slot in the place of the one with its name. -/
def putInto (slot : Slot) : List Slot → List Slot
  | [] => [slot]
  | s :: rest => if s.name = slot.name then slot :: rest else s :: putInto slot rest

def put (slots : Slots) (slot : Slot) : Slots := ⟨putInto slot slots.used⟩

/-- Changes the slot with a name. The change keeps the name. -/
def alter (slots : Slots) (name : String) (f : Slot → Slot) : Slots :=
  slots.put (f (slots.get name))

def watch (slots : Slots) (name : String) (watcher : Watcher) : Slots :=
  slots.alter name (·.watch watcher)

def forget (slots : Slots) (nodes : List NodeId) : Slots := ⟨slots.used.map (·.forget nodes)⟩

end Slots

end QueryMarkup
