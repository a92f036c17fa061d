import QueryMarkup.Diagnostic.Proximity
import QueryMarkup.Document.Parse
import QueryMarkup.Document.Render
import QueryMarkup.Sync.Editor
import QueryMarkup.Tree.Edit

/-!
One editor and one tree kept in step. A change of the text is read into the tree
at once. A change of the tree is written into the text once the tree has been
quiet for a while, unless reading the text made the change.
-/
namespace QueryMarkup

/-- What a host of a session is told. -/
inductive SessionEvent where
  | tree (notice : Notice)
  /-- The written markup changed and has this many bytes now. -/
  | rendered (bytes : Nat)
  deriving DecidableEq

structure Session where
  editor : Editor
  settings : Settings
  tree : Tree
  coordinator : Coordinator := {}
  /-- The time in milliseconds. -/
  now : Nat := 0
  parseDiagnostics : List Diagnostic := []
  /-- The markup that was written last. -/
  rendered : Cell String := ⟨"", 0⟩
  /-- The time of the latest change of the tree that is not written yet. -/
  changedAt : Option Nat := none
  /-- What the host was told, the earliest first. -/
  events : List SessionEvent := []

namespace Session

def isRenderPending (s : Session) : Bool := s.changedAt.isSome

/-- Takes over a changed tree. A change of its revision asks for the text to be
written, except while the text is being read. -/
def adopt (s : Session) (tree : Tree) : Session :=
  { s with
    tree := { tree with journal := [] }
    events := s.events ++ tree.journal.map .tree
    changedAt :=
      if tree.revision ≠ s.tree.revision ∧ s.coordinator.acceptsTreeChanges then some s.now
      else s.changedAt }

/-- Makes a change of the tree or refuses it. -/
def edit (s : Session) (edit : Edit) : Session × Except TreeError Reply :=
  match s.tree.perform edit with
  | .ok (tree, reply) => (s.adopt tree, .ok reply)
  | .error error => (s, .error error)

/-- Lets the host be told of changes of a node's findings. -/
def observe (s : Session) (id : NodeId) : Except TreeError Session :=
  (s.tree.observe id).map fun tree => { s with tree }

/-- The findings about a node, each where the name it is about stands. Nothing is shown
for a node that stands nowhere. -/
def nodeDiagnostics (node : Node) : List Diagnostic :=
  match node.span with
  | none => []
  | some span =>
    (node.rules.flatMap (·.outcome.issues) ++ (node.schema.map (·.issues)).getD []).map
        (fun i => Diagnostic.new i.kind span i.message)
      ++ node.attributes.flatMap fun a =>
        a.issues.map fun i => Diagnostic.new i.kind (a.span.getD span) i.message

/-- All findings, of reading and of the checks, that are shown. -/
def diagnostics (s : Session) : List Diagnostic :=
  Diagnostics.deduplicated s.settings.proximity
    (s.parseDiagnostics ++ s.tree.nodes.flatMap nodeDiagnostics)

def publish (s : Session) : Session :=
  { s with editor := s.editor.publish (s.diagnostics.map (·.marker)) }

/-- Reads the text inside a pass. The default document that takes the place of a blank
text is a change of the tree like any other; in the place of a text without a usable
element it belongs to the pass, and the text stays as it is. -/
def readText (s : Session) (reading : Coordinator) : Session :=
  let tokens := Markup.lex s.editor.text
  let (tree, diagnostics) := Document.readTokens s.tree tokens s.editor.text s.settings
  let inside : Session := { s with coordinator := reading, parseDiagnostics := diagnostics }
  let outside (s : Session) : Session := { s with coordinator := reading.release }
  let read := inside.adopt tree
  if !tree.isEmpty then outside read
  else if Document.isBlankText tokens s.editor.text then
    let after := outside read
    after.adopt after.tree.reset
  else outside (read.adopt read.tree.reset)

/-- Reads the text into the tree, unless a pass is running, and publishes what was
found. A change of the tree that was to be written is given up. -/
def reparse (s : Session) : Session :=
  let s := { s with changedAt := none }
  match s.coordinator.enter .textToTree with
  | .error _ => { s with parseDiagnostics := [] }.publish
  | .ok reading => (s.readText reading).publish

/-- The text has changed. During a pass that is the session's own doing. -/
def documentChanged (s : Session) : Session × Bool :=
  if s.coordinator.isIdle then (s.reparse, true) else (s, false)

/-- Records where everything that was written stands. -/
def anchor (tree : Tree) (rendered : Document.Rendered) : Tree :=
  let placed := rendered.spans.foldl (fun t (id, span) => t.setSpan id (some span)) tree
  rendered.attributeSpans.foldl (fun t (id, name, span) => t.setAttributeSpan id name (some span))
    placed.clearAttributeSpans

/-- What follows once the editor shows the written text. -/
def afterWrite (s : Session) (rendered : Document.Rendered) : Session :=
  let anchored := s.adopt (anchor s.tree rendered)
  let told : Session :=
    { anchored with
      parseDiagnostics := []
      rendered := anchored.rendered.set rendered.text
      events := anchored.events ++
        if anchored.rendered.value = rendered.text then []
        else [.rendered rendered.text.utf8ByteSize] }
  told.publish

/-- Writes the tree into the text, if the text is not the same already. During another
pass nothing is written. -/
def renderNow (s : Session) : Session × Document.Rendered :=
  let s := { s with changedAt := none }
  let rendered := Document.render s.tree s.settings.indentWidth
  if s.editor.text = rendered.text then (s.afterWrite rendered, rendered)
  else match s.coordinator.enter .treeToText with
    | .error _ => (s, rendered)
    | .ok writing =>
      let written : Session :=
        { s with
          editor := s.editor.replace writing.direction rendered.text
          coordinator := writing.release }
      (written.afterWrite rendered, rendered)

/-- Writes the tree once it has been quiet for long enough since it changed. -/
def poll (s : Session) : Session × Option Document.Rendered :=
  match s.changedAt with
  | none => (s, none)
  | some changedAt =>
    if s.now - changedAt < s.settings.debounceMs then (s, none)
    else
      let (s, rendered) := s.renderNow
      (s, some rendered)

/-- Time goes by. -/
def advance (s : Session) (ms : Nat) : Session := { s with now := s.now + ms }

end Session

end QueryMarkup
