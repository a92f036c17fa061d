import QueryMarkup.Json.Basic
import QueryMarkup.Vocabulary.Kind

/-!
The vocabulary as a text for readers and as JSON for tools. Both list the kinds
that have a tag, in sibling order.
-/
namespace QueryMarkup

/-- The kinds in a list, as tags. -/
def Kind.listTags (kinds : List Kind) : String :=
  ", ".intercalate ((kinds.filterMap Kind.tag?).map fun tag => s!"<{tag}>")

/-- A name filled up with blanks to a width. -/
def AttributeSpec.padded (width : Nat) (spec : AttributeSpec) : String :=
  spec.name ++ String.ofList (List.replicate (width - spec.name.length) ' ')

/-- The line of an attribute, with its value kind in the column after the longest name. -/
def AttributeSpec.listing (width : Nat) (spec : AttributeSpec) : String :=
  "  " ++ spec.padded width ++ "  " ++ spec.valueKind.describe
    ++ (if spec.content then " (element text)" else "") ++ "\n"

/-- Where a kind may stand. -/
def Kind.placeListing (kind : Kind) : String :=
  match kind.allowedParents? with
  | none => ""
  | some [] => "  root"
  | some parents => "  in " ++ listTags parents

/-- The line of a kind with a tag and the lines of its attributes. -/
def Kind.listing (kind : Kind) (tag : String) : String :=
  let adds := (kind.mandatoryChild?.map fun child => ", adds " ++ listTags [child]).getD ""
  let width := ((kind.attributes.map fun spec => spec.name.length).max?).getD 0
  s!"<{tag}>" ++ kind.placeListing ++ adds ++ "\n"
    ++ String.join (kind.attributes.map (·.listing width))

namespace Vocabulary

open JsonValue (record ofString ofNat ofOption)

/-- All kinds for a reader. -/
def listing : String :=
  String.join (Kind.known.filterMap fun kind => kind.tag?.map kind.listing)

def valueKindJson (valueKind : ValueKind) : JsonValue :=
  match valueKind with
  | .text => record [("kind", ofString "text")]
  | .bool => record [("kind", ofString "bool")]
  | .number => record [("kind", ofString "number")]
  | .choice values =>
    record [("kind", ofString "choice"), ("values", .array (values.map ofString))]

def attributeJson (spec : AttributeSpec) : JsonValue :=
  record [("name", ofString spec.name), ("order", ofNat spec.order),
    ("value_kind", valueKindJson spec.valueKind), ("displayable", .bool spec.displayable),
    ("content", .bool spec.content)]

def ruleJson (rule : Rule) : JsonValue :=
  match rule with
  | .requireAttribute name => record [("require-attribute", ofString name)]
  | .requireAnyOf names => record [("require-any-of", .array (names.map ofString))]
  | .aliasWhenAggregated => ofString "alias-when-aggregated"
  | .requireChild => ofString "require-child"

/-- A kind by its tag. -/
def kindJson (kind : Kind) : JsonValue := ofString (kind.tag?.getD "unknown")

def elementJson (kind : Kind) (tag : String) : JsonValue :=
  record [("tag", ofString tag), ("kind", kindJson kind), ("order", ofNat kind.rank),
    ("allowed_parents", ofOption (fun kinds => .array (kinds.map kindJson)) kind.allowedParents?),
    ("mandatory_child", ofOption kindJson kind.mandatoryChild?),
    ("attributes", .array (kind.attributes.map attributeJson)),
    ("rules", .array (kind.rules.map ruleJson))]

/-- All kinds for a tool. -/
def json : JsonValue :=
  .array (Kind.known.filterMap fun kind => kind.tag?.map (elementJson kind))

end Vocabulary

end QueryMarkup
