import QueryMarkup.Tree.Basic
import QueryMarkup.Text.Range

/-!
Trees to markup, in one walk over the nodes in preorder. Every element starts a
line. The close tags that are owed wait until the walk has left what they
enclose. The text is put together from pieces, and pieces that name a node or an
attribute give the places of the names.
-/
namespace QueryMarkup.Document

/-- What a piece of markup names. -/
inductive Mark where
  | tag (node : NodeId)
  | attributeName (node : NodeId) (name : String)
  deriving DecidableEq

/-- A piece of markup. A mark names the whole tag or the start of an attribute. -/
structure Piece where
  text : String
  mark : Option Mark := none
  deriving DecidableEq

/-- A line without its indentation. -/
structure Line where
  level : Nat
  pieces : List Piece
  deriving DecidableEq

structure Rendered where
  text : String
  /-- Where the tag's name of every node stands, in preorder. -/
  spans : List (NodeId × Text.Range)
  /-- Where the name of every written attribute stands. -/
  attributeSpans : List (NodeId × String × Text.Range)
  deriving DecidableEq

/-- A close tag that is owed. -/
structure Owed where
  level : Nat
  tag : String
  deriving DecidableEq

def Owed.line (owed : Owed) : Line := ⟨owed.level, [{ text := "</" ++ owed.tag ++ ">" }]⟩

/-- The attributes of a start tag, each after a blank. -/
def attributePieces (node : Node) : List Piece :=
  (node.attributes.filter fun a => !a.content && !a.display.value.isEmpty).flatMap fun a =>
    [{ text := " " }, { text := a.display.value, mark := some (.attributeName node.id a.name) }]

/-- The line that an element starts. An element without children also ends on it. -/
def elementLine (node : Node) : Line :=
  let start := { text := "<" } :: { text := node.tag, mark := some (.tag node.id) }
    :: attributePieces node
  let rest : List Piece :=
    match node.content?, node.expandable with
    | some text, false => [{ text := ">" }, { text }, { text := "</" ++ node.tag ++ ">" }]
    | content, true => { text := ">" } :: content.toList.map fun text => { text }
    | none, false => [{ text := " />" }]
  ⟨node.level, start ++ rest⟩

/-- The lines of nodes in preorder, given the close tags that are owed, the innermost first. -/
def linesFrom (owed : List Owed) : List Node → List Line
  | [] => owed.map Owed.line
  | n :: rest =>
    let due := owed.takeWhile fun o => decide (n.level ≤ o.level)
    let left := owed.dropWhile fun o => decide (n.level ≤ o.level)
    due.map Owed.line ++ elementLine n ::
      linesFrom (if n.expandable then ⟨n.level, n.tag⟩ :: left else left) rest

def lines (tree : Tree) : List Line := linesFrom [] tree.nodes

def indentation (width level : Nat) : Piece := { text := String.ofList (List.replicate (level * width) ' ') }

/-- The pieces of lines, with a line break between one line and the next. -/
def join (width : Nat) : List Line → List Piece
  | [] => []
  | [l] => indentation width l.level :: l.pieces
  | l :: rest => indentation width l.level :: l.pieces ++ { text := "\n" } :: join width rest

/-- Gives marked pieces their places, the first piece starting at `start`. -/
def place (start : Nat) : List Piece → List (Mark × Text.Range)
  | [] => []
  | p :: rest =>
    let size := p.text.utf8ByteSize
    let here := match p.mark with
      | none => []
      | some (.tag id) => [(.tag id, Text.Range.ofLength start size)]
      | some (.attributeName id name) =>
        [(.attributeName id name, Text.Range.ofLength start name.utf8ByteSize)]
    here ++ place (start + size) rest

def ofPieces (pieces : List Piece) : Rendered :=
  let marks := place 0 pieces
  { text := String.join (pieces.map (·.text))
    spans := marks.filterMap fun
      | (.tag id, range) => some (id, range)
      | _ => none
    attributeSpans := marks.filterMap fun
      | (.attributeName id name, range) => some (id, name, range)
      | _ => none }

/-- Writes a tree with `width` blanks for each level and no line break at the end. -/
def render (tree : Tree) (width : Nat) : Rendered := ofPieces (join width (lines tree))

end QueryMarkup.Document
