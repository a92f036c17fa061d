import QueryMarkup.Diagnostic.Basic
import QueryMarkup.Markup.Token
import QueryMarkup.Sync.Coordinator
import QueryMarkup.Text.Blank
import QueryMarkup.Tree.Attributes
import QueryMarkup.Tree.Insertion

/-!
Tokens to tree, one token at a time. A start tag is staged until it ends and
then becomes a node under the innermost open element. What cannot be placed is
reported and skipped with all that it contains; reading always goes on.
-/
namespace QueryMarkup

/-- Where reading stands relative to the nesting of tags. -/
inductive Phase where
  /-- Between elements or inside a start tag. -/
  | opening
  /-- Right after a self-closing element. -/
  | flat
  /-- Inside a close tag. -/
  | closing
  deriving DecidableEq

structure StagedAttribute where
  name : String
  span : Text.Range
  value : Option String := none
  deriving DecidableEq

/-- A start tag that has not ended. -/
structure StagedElement where
  tag : String
  span : Text.Range
  attributes : List StagedAttribute := []
  deriving DecidableEq

/-- An element whose close tag is still to come. -/
structure OpenElement where
  /-- `none` for an element that was skipped. -/
  node : Option NodeId
  tag : String
  span : Text.Range
  deriving DecidableEq

structure Builder where
  /-- How many elements may be open at once. -/
  limit : Nat
  phase : Phase := .opening
  /-- The `<` or `</` of the tag that has not ended. -/
  tagOpen : Option Text.Range := none
  staged : Option StagedElement := none
  /-- The open elements, the innermost first. -/
  stack : List OpenElement := []
  sawRoot : Bool := false
  /-- How many tokens came while the text was being written. -/
  ignored : Nat := 0
  diagnostics : List Diagnostic := []

namespace Builder

/-- The number of elements around the one that is read. -/
def level (b : Builder) : Nat := b.stack.length

def report (b : Builder) (kind : DiagnosticKind) (span : Text.Range) (detail : Option String := none) :
    Builder :=
  { b with diagnostics := b.diagnostics ++ [.report kind span detail] }

/-- Leaves an element open, unless it closed itself. -/
def push (b : Builder) (element : OpenElement) (selfClosing : Bool) : Builder :=
  if selfClosing then b else { b with stack := element :: b.stack }

/-- Whether an element is skipped, and what is reported about it. What is inside a
skipped element is skipped without a report. -/
def refusal (b : Builder) (element : StagedElement) : Option (Option (DiagnosticKind × String)) :=
  match b.stack with
  | ⟨none, _, _⟩ :: _ => some none
  | stack =>
    if b.limit ≤ stack.length then some (some (.nestingTooDeep, s!"limit is {b.limit}"))
    else if stack.isEmpty && b.sawRoot then
      some (some (.multipleRoots, s!"`<{element.tag}>` is a second top-level element"))
    else none

/-- Stores one attribute of a new node, with what is to be said about its name and value.
`seen` are the names before it. -/
def readAttribute (id : NodeId) (state : Builder × Tree × List String) (a : StagedAttribute) :
    Builder × Tree × List String :=
  let (b, tree, seen) := state
  let b := if seen.contains a.name then b.report .duplicateAttribute a.span a.name else b
  let seen := a.name :: seen
  match a.value with
  | none => (b.report .missingAttributeValue a.span a.name, tree, seen)
  | some value =>
    match tree.insertParsed id a.name value with
    | .error _ => (b, tree, seen)
    | .ok (tree, issues) =>
      (issues.foldl (fun b i => b.report i.kind a.span i.detail) b,
        tree.setAttributeSpan id a.name (some a.span), seen)

/-- Turns a start tag that has ended into a node. -/
def finalize (b : Builder) (tree : Tree) (element : StagedElement) (selfClosing : Bool) :
    Builder × Tree :=
  let skipped : OpenElement := ⟨none, element.tag, element.span⟩
  match b.refusal element with
  | some none => (b.push skipped selfClosing, tree)
  | some (some (kind, detail)) =>
    ((b.report kind element.span detail).push skipped selfClosing, tree)
  | none =>
    let kind := Kind.ofTag element.tag
    let parent := b.stack.head?.bind (·.node)
    let parentKind := (parent.bind tree.node?).map (·.kind)
    let b := (checkPlacement kind element.tag parentKind).foldl
      (fun b i => b.report i.kind element.span i.detail) b
    match tree.addParsed kind element.tag parent with
    | .error _ => (b.push skipped selfClosing, tree)
    | .ok (tree, id) =>
      let (b, tree, _) := element.attributes.foldl (readAttribute id)
        ({ b with sawRoot := true }, tree.setSpan id (some element.span), [])
      (b.push ⟨some id, element.tag, element.span⟩ selfClosing, tree)

/-- A start tag that never ended counts as a self-closing element. A tag without a
name that never ended is only reported. -/
def abandon (b : Builder) (tree : Tree) : Builder × Tree :=
  let closed := { b with tagOpen := none, staged := none }
  match b.staged, b.tagOpen with
  | some element, _ =>
    (closed.report .syntaxError element.span s!"`<{element.tag}` is missing its closing `>`").finalize
      tree element true
  | none, none => (closed, tree)
  | none, some span =>
    let detail := if b.phase = .closing then "close tag is missing its `>`"
      else "`<` is not followed by a tag name"
    (closed.report .syntaxError span detail, tree)

/-- Closes the innermost open element, whatever the close tag says. -/
def close (b : Builder) (stop : Text.Range) : Builder :=
  match b.stack with
  | _ :: rest => { b with stack := rest }
  | [] => b.report .unexpectedCloseTag ((b.tagOpen.map (·.cover stop)).getD stop)

/-- A value without the quotes around it. -/
def unquote (raw : List Char) : List Char :=
  match raw with
  | q :: rest =>
    if (q = '"' ∨ q = '\'') ∧ rest.getLast? = some q then rest.dropLast else raw
  | [] => raw

/-- Reads a value into the last attribute of the staged tag. -/
def readValue (b : Builder) (span : Text.Range) (raw : String) : Builder :=
  match b.staged with
  | none => b
  | some element =>
    match element.attributes.getLast? with
    | some { name, span := nameSpan, value := none } =>
      let value := String.ofList (Text.decodeChars (unquote raw.toList))
      { b with staged := some { element with
          attributes := element.attributes.dropLast ++ [⟨name, nameSpan, some value⟩] } }
    | _ => b.report .syntaxError span "value without an attribute name"

/-- Ends a tag. -/
def endTag (b : Builder) (tree : Tree) (span : Text.Range) (selfClosing : Bool) : Builder × Tree :=
  let (b, tree) :=
    if b.phase = .closing then (b.close span, tree)
    else match b.staged, b.tagOpen with
      | some element, _ => { b with staged := none }.finalize tree element selfClosing
      | none, some opening => (b.report .syntaxError (opening.cover span) "tag has no name", tree)
      | none, none => (b, tree)
  let phase := if selfClosing then .flat else if b.phase = .closing then .opening else b.phase
  ({ b with tagOpen := none, phase }, tree)

/-- Adds text to the innermost open element, if it may hold any. -/
def readText (b : Builder) (tree : Tree) (span : Text.Range) (text : List Char) : Builder × Tree :=
  let trimmed := Text.trim text
  if trimmed.isEmpty then (b, tree)
  else
    let unexpected :=
      let lead := Text.byteLength text - Text.byteLength (Text.trimStart text)
      (b.report .unexpectedText
        (.ofLength (span.start + lead) (Text.byteLength trimmed)), tree)
    match b.stack.head? with
    | none => unexpected
    | some ⟨none, _, _⟩ => (b, tree)
    | some ⟨some id, _, _⟩ =>
      match tree.node? id with
      | none => unexpected
      | some node =>
        if node.kind.acceptsContent then
          let decoded := String.ofList (Text.decodeChars trimmed)
          let current := node.value contentName
          let value := if current.isEmpty then decoded else current ++ " " ++ decoded
          match tree.insertParsed id contentName value with
          | .ok (tree, _) => (b, tree)
          | .error _ => (b, tree)
        else unexpected

/-- Reads one token. While the text is being written tokens are only counted. -/
def feed (b : Builder) (tree : Tree) (coordinator : Coordinator) (source : String) (token : Token) :
    Builder × Tree :=
  if !coordinator.acceptsTokens then ({ b with ignored := b.ignored + 1 }, tree)
  else match token.kind with
    | .startTag | .startCloseTag =>
      let (b, tree) := b.abandon tree
      let phase := if token.kind = .startTag then Phase.opening else .closing
      ({ b with tagOpen := some token.span, phase }, tree)
    | .tagName =>
      if b.phase ≠ .closing ∧ b.tagOpen.isSome then
        ({ b with staged := some ⟨Text.slice source token.span, token.span, []⟩ }, tree)
      else (b, tree)
    | .attributeName =>
      match b.staged with
      | none => (b, tree)
      | some element =>
        ({ b with staged := some { element with
            attributes := element.attributes ++
              [⟨Text.slice source token.span, token.span, none⟩] } }, tree)
    | .attributeValue => (b.readValue token.span (Text.slice source token.span), tree)
    | .endTag => b.endTag tree token.span false
    | .selfCloseEndTag => b.endTag tree token.span true
    | .text => b.readText tree token.span (Text.slice source token.span).toList
    | .error =>
      (b.report .syntaxError token.span s!"unexpected `{Text.slice source token.span}`", tree)
    | .equals | .whitespace | .comment => (b, tree)

/-- Ends reading: reports the elements that were never closed, in document order, and
hands over all diagnostics. -/
def finish (b : Builder) (tree : Tree) (coordinator : Coordinator) :
    List Diagnostic × Builder × Tree :=
  let (b, tree) :=
    if coordinator.acceptsTokens then
      let (b, tree) := b.abandon tree
      (b.stack.reverse.foldl (fun b e => b.report .unclosedTag e.span e.tag) { b with stack := [] },
        tree)
    else (b, tree)
  (b.diagnostics, { b with diagnostics := [] }, tree)

end Builder

end QueryMarkup
