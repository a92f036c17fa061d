import QueryMarkup.Text.Blank
import QueryMarkup.Validation.Issue

/-!
The rules of a kind and the check of a value against its declared kind, as
functions of what they look at. `Rule.watches` names what that is.
-/
namespace QueryMarkup

/-- An attribute value that a rule looks at. -/
inductive Watch where
  /-- Of the node itself. -/
  | own (name : String)
  /-- Of the root of the document. -/
  | root (name : String)
  deriving DecidableEq

/-- A value counts as given when it is not blank. -/
def isGiven (value : String) : Bool := !Text.isAllBlank value.toList

namespace Rule

def name : Rule → String
  | requireAttribute _ => "require-attribute"
  | requireAnyOf _ => "require-any-of"
  | aliasWhenAggregated => "alias-when-aggregated"
  | requireChild => "require-child"

/-- The attribute values that the rule looks at, in the order in which it is told
of their changes. A rule on children looks at none. -/
def watches : Rule → List Watch
  | requireAttribute name => [.own name]
  | requireAnyOf names => names.map .own
  | aliasWhenAggregated => [.own "alias", .own "aggregate", .root "aggregate"]
  | requireChild => []

/-- What a rule looks at, all in one place. -/
structure Scope where
  kind : Kind
  /-- The values of the node's attributes, empty where there is none. -/
  own : String → String
  /-- The value of the root's attribute `aggregate`. -/
  rootAggregate : String
  childCount : Nat

/-- The node's own column is aggregated. -/
def aggregatesItself (scope : Scope) : Bool :=
  isGiven (scope.own "aggregate") && Text.trimmed (scope.own "aggregate") != "false"

/-- What the rule finds wrong. -/
def issues (rule : Rule) (scope : Scope) : List Issue :=
  match rule with
  | requireAttribute name =>
    if isGiven (scope.own name) then []
    else [⟨.missingAttribute, DiagnosticKind.missingAttribute.message (some name)⟩]
  | requireAnyOf names =>
    if names.any fun name => isGiven (scope.own name) then []
    else
      let quoted := names.map fun name => s!"`{name}`"
      [⟨.missingAttribute, "one of " ++ " or ".intercalate quoted ++ " is required"⟩]
  | aliasWhenAggregated =>
    if (aggregatesItself scope || Text.trimmed scope.rootAggregate == "true")
        && !isGiven (scope.own "alias") then
      [⟨.aliasRequired, "`alias` is required when aggregating"⟩]
    else []
  | requireChild =>
    if 0 < scope.childCount then []
    else
      let tag := scope.kind.tag?.getD "element"
      let child := (scope.kind.mandatoryChild?.bind Kind.tag?).getD "child"
      [⟨.missingChild, s!"`<{tag}>` needs at least one `<{child}>`"⟩]

end Rule

/-- What is wrong with a value of an attribute that is declared to hold `kind`. -/
def ValueKind.issues (kind : ValueKind) (name value : String) : List Issue :=
  if value.isEmpty || kind.accepts value then []
  else [⟨.invalidValue, s!"`{name}` must be {kind.describe}, found `{value}`"⟩]

/-- What is wrong with an attribute that the kind does not declare, for as long as it is there. -/
def undeclaredIssue (kind : Kind) (name : String) : Issue :=
  match kind.tag? with
  | some tag => ⟨.unknownAttribute, s!"`{name}` is not a known attribute of `<{tag}>`"⟩
  | none => ⟨.unknownAttribute, DiagnosticKind.unknownAttribute.message (some name)⟩

end QueryMarkup
