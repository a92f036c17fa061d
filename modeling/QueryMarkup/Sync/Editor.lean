import QueryMarkup.Diagnostic.Basic
import QueryMarkup.Sync.Coordinator

/-!
A text editor that holds its document in memory.
-/
namespace QueryMarkup

structure Editor where
  text : String
  /-- The markers that were published last. -/
  published : List Marker := []
  /-- The direction of the pass each time the document was replaced, the earliest first. -/
  writes : List Direction := []

namespace Editor

/-- Replaces the whole document with written markup. -/
def replace (editor : Editor) (direction : Direction) (text : String) : Editor :=
  { editor with text, writes := editor.writes ++ [direction] }

/-- The user types over the whole document. -/
def setText (editor : Editor) (text : String) : Editor := { editor with text }

/-- The user replaces a part of the document. -/
def splice (editor : Editor) (range : Text.Range) (insert : String) : Editor :=
  { editor with text := Text.splice editor.text range insert }

def publish (editor : Editor) (markers : List Marker) : Editor := { editor with published := markers }

end Editor

end QueryMarkup
