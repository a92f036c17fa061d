import QueryMarkup.Document.Builder
import QueryMarkup.Markup.Lexer
import QueryMarkup.Settings.Basic

/-!
Whole documents to trees. Reading replaces the tree. A text without any element
leaves the default document in its place.
-/
namespace QueryMarkup.Document

/-- Clears a tree and reads tokens into it. -/
def readTokens (tree : Tree) (tokens : List Token) (source : String) (settings : Settings) :
    Tree × List Diagnostic :=
  let reading : Coordinator := ⟨.textToTree⟩
  let start : Builder := { limit := settings.nestingLimit }
  let (b, tree) := tokens.foldl (fun (b, t) token => b.feed t reading source token)
    (start, tree.clear)
  let (diagnostics, _, tree) := b.finish tree reading
  (tree, diagnostics)

/-- Nothing but blanks and comments is in the text. -/
def isBlankText (tokens : List Token) (source : String) : Bool :=
  tokens.all fun t => t.kind.isTrivia || Text.isAllBlank (Text.slice source t.span).toList

/-- The tree, or the default document in its place when it has no node. -/
def orDefault (tree : Tree) : Tree := if tree.isEmpty then tree.reset else tree

/-- Reads tokens into a tree in a pass of its own. Nothing is read while another pass is running. -/
def parseTokens (tree : Tree) (tokens : List Token) (source : String) (coordinator : Coordinator)
    (settings : Settings) : Tree × List Diagnostic × Coordinator :=
  match coordinator.enter .textToTree with
  | .error _ => (tree, [], coordinator)
  | .ok reading =>
    let (tree, diagnostics) := readTokens tree tokens source settings
    (orDefault tree, diagnostics, reading.release)

/-- Reads a text into a tree. -/
def parse (tree : Tree) (source : String) (settings : Settings) : Tree × List Diagnostic :=
  let (tree, diagnostics, _) := parseTokens tree (Markup.lex source) source {} settings
  (tree, diagnostics)

end QueryMarkup.Document
