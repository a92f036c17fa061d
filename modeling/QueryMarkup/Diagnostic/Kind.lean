/-!
What can be wrong with a document. The kinds are ordered by priority: a kind
that makes the others doubtful comes before them, and of two findings close to
each other the one with the earlier kind is kept.
-/
namespace QueryMarkup

inductive Severity where
  | error
  | warning
  deriving DecidableEq

def Severity.name : Severity → String
  | error => "error"
  | warning => "warning"

inductive DiagnosticKind where
  | syntaxError
  | unclosedTag
  | unexpectedCloseTag
  | multipleRoots
  | nestingTooDeep
  | unknownTag
  | invalidParent
  | unknownAttribute
  | duplicateAttribute
  | missingAttributeValue
  | unexpectedText
  | missingAttribute
  | aliasRequired
  | invalidValue
  | missingChild
  | schemaMismatch
  deriving DecidableEq

namespace DiagnosticKind

/-- All kinds, the most important first. -/
def all : List DiagnosticKind :=
  [syntaxError, unclosedTag, unexpectedCloseTag, multipleRoots, nestingTooDeep, unknownTag,
    invalidParent, unknownAttribute, duplicateAttribute, missingAttributeValue, unexpectedText,
    missingAttribute, aliasRequired, invalidValue, missingChild, schemaMismatch]

/-- The place in the order of priority, the most important kind at zero. -/
def priority : DiagnosticKind → Nat
  | syntaxError => 0
  | unclosedTag => 1
  | unexpectedCloseTag => 2
  | multipleRoots => 3
  | nestingTooDeep => 4
  | unknownTag => 5
  | invalidParent => 6
  | unknownAttribute => 7
  | duplicateAttribute => 8
  | missingAttributeValue => 9
  | unexpectedText => 10
  | missingAttribute => 11
  | aliasRequired => 12
  | invalidValue => 13
  | missingChild => 14
  | schemaMismatch => 15

def severity : DiagnosticKind → Severity
  | duplicateAttribute | unexpectedText => .warning
  | _ => .error

/-- Whether this kind is kept and `other` dropped when both are found close together. -/
def suppresses (kind other : DiagnosticKind) : Bool := decide (kind.priority < other.priority)

/-- Found while reading markup, and not by a check that goes on watching a node. -/
def isStructural (kind : DiagnosticKind) : Bool := kind.suppresses missingAttribute

def hint? : DiagnosticKind → Option String
  | unclosedTag => some "close the element with `</tag>` or use `/>`"
  | multipleRoots => some "a document has exactly one `<fetch>` element"
  | aliasRequired => some "aggregated columns must be named with `alias`"
  | missingChild => some "add a `<condition>` to the filter"
  | _ => none

/-- The message of a finding without a detail. -/
def plainMessage : DiagnosticKind → String
  | syntaxError => "syntax error"
  | unclosedTag => "element is never closed"
  | unexpectedCloseTag => "closing tag has no matching element"
  | multipleRoots => "document already has a root element"
  | nestingTooDeep => "elements are nested too deeply"
  | unknownTag => "unknown element"
  | invalidParent => "element is not allowed here"
  | unknownAttribute => "unknown attribute"
  | duplicateAttribute => "duplicate attribute"
  | missingAttributeValue => "attribute has no value"
  | unexpectedText => "text is not allowed here"
  | missingAttribute => "required attribute is missing"
  | aliasRequired => "an alias is required when aggregating"
  | invalidValue => "invalid attribute value"
  | missingChild => "element needs at least one child"
  | schemaMismatch => "not found in the schema"

/-- What stands before and after the detail in the message of a finding with one. -/
def frame : DiagnosticKind → String × String
  | unclosedTag => ("`<", ">` is never closed")
  | unknownTag => ("`", "` is not a known element")
  | unknownAttribute => ("`", "` is not a known attribute")
  | duplicateAttribute => ("`", "` is set more than once")
  | missingAttributeValue => ("attribute `", "` has no value")
  | missingAttribute => ("`", "` is required")
  | invalidParent => ("`", "` is not allowed here")
  | invalidValue | schemaMismatch | multipleRoots => ("", "")
  | kind => (kind.plainMessage ++ ": ", "")

/-- The frame with a pair of braces where the detail goes. -/
def template (kind : DiagnosticKind) : String := kind.frame.1 ++ "\x7b\x7d" ++ kind.frame.2

def message (kind : DiagnosticKind) : Option String → String
  | none => kind.plainMessage
  | some detail => kind.frame.1 ++ detail ++ kind.frame.2

end DiagnosticKind

end QueryMarkup
