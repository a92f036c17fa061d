/-!
Mutual exclusion between reading the text into the tree and writing the tree
into the text. A pass in one direction can start only while none is running.
-/
namespace QueryMarkup

/-- Which of text and tree drives the other. -/
inductive Direction where
  | idle
  | textToTree
  | treeToText
  deriving DecidableEq

def Direction.name : Direction → String
  | idle => "idle"
  | textToTree => "text-to-tree"
  | treeToText => "tree-to-text"

/-- A pass in this direction is running already. -/
structure Busy where
  direction : Direction
  deriving DecidableEq

def Busy.message (busy : Busy) : String := s!"a {busy.direction.name} sync pass is already running"

structure Coordinator where
  direction : Direction := .idle
  deriving DecidableEq

namespace Coordinator

def isIdle (c : Coordinator) : Bool := c.direction == .idle

/-- Tokens are read into the tree now. -/
def acceptsTokens (c : Coordinator) : Bool := c.direction != .treeToText

/-- Changes of the tree ask for the text to be written now. -/
def acceptsTreeChanges (c : Coordinator) : Bool := c.direction != .textToTree

/-- Starts a pass. Whoever starts it holds a guard until the pass is over. -/
def enter (c : Coordinator) (direction : Direction) : Except Busy Coordinator :=
  if c.isIdle then .ok ⟨direction⟩ else .error ⟨c.direction⟩

/-- Gives a guard back. Nothing is running then, whichever guard it was. -/
def release (_ : Coordinator) : Coordinator := ⟨.idle⟩

end Coordinator

end QueryMarkup
