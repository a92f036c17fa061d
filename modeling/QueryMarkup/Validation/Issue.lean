import QueryMarkup.Diagnostic.Kind
import QueryMarkup.Vocabulary.Kind

/-!
Findings of checks, and the check of an element's place that is made once, while
markup is read.
-/
namespace QueryMarkup

/-- One failed check with its final message. -/
structure Issue where
  kind : DiagnosticKind
  message : String
  deriving DecidableEq

/-- A finding made while reading markup; `detail` goes into the message of its kind. -/
structure StructuralIssue where
  kind : DiagnosticKind
  detail : String
  deriving DecidableEq

/-- The place of a kind is allowed; `none` is the top level. -/
def Kind.fits (kind : Kind) : Option Kind → Bool
  | some parent => kind.acceptsParent parent
  | none => (kind.allowedParents?.map (·.isEmpty)).getD true

/-- What is wrong with the tag or the place of an element. -/
def checkPlacement (kind : Kind) (tag : String) (parent : Option Kind) : List StructuralIssue :=
  if kind = .unknown then [⟨.unknownTag, tag⟩]
  else if kind.fits parent then []
  else match parent.bind Kind.tag? with
    | some parentTag => [⟨.invalidParent, s!"<{tag}>` inside `<{parentTag}>"⟩]
    | none => [⟨.invalidParent, s!"<{tag}>` at the top level"⟩]

end QueryMarkup
