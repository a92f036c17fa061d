import QueryMarkup.Vocabulary.ValueKind

/-!
The closed vocabulary: the kinds of query element, and for each its tag, its
place among siblings, the parents it may stand under, its attributes and the
rules that every node of the kind keeps to.
-/
namespace QueryMarkup

/-- The category of a query element. An element with a tag outside the
vocabulary is `unknown`, so that it can be kept. -/
inductive Kind where
  | fetch
  | entity
  | allAttributes
  /-- A column of the enclosing entity, with the tag `attribute`. -/
  | column
  | order
  | filter
  | condition
  | value
  | linkEntity
  | unknown
  deriving DecidableEq

/-- One attribute that a kind declares. -/
structure AttributeSpec where
  name : String
  /-- Place within the element. -/
  order : Nat
  valueKind : ValueKind
  /-- Shown in the label of a node. -/
  displayable : Bool := false
  /-- Written as the text of the element. -/
  content : Bool := false
  deriving DecidableEq

/-- A demand on every node of a kind. -/
inductive Rule where
  | requireAttribute (name : String)
  | requireAnyOf (names : List String)
  /-- `alias` is needed once the attribute or the whole query aggregates. -/
  | aliasWhenAggregated
  | requireChild
  deriving DecidableEq

/-- The name under which the text of an element is kept among its attributes. -/
def contentName : String := "#text"

/-- The place of attributes that a kind does not declare: after all declared ones. -/
def undeclaredOrder : Nat := 1000

namespace Kind

/-- The kinds with a tag of their own, in sibling order. -/
def known : List Kind :=
  [fetch, entity, allAttributes, column, order, filter, condition, value, linkEntity]

def tag? : Kind → Option String
  | fetch => some "fetch"
  | entity => some "entity"
  | allAttributes => some "all-attributes"
  | column => some "attribute"
  | order => some "order"
  | filter => some "filter"
  | condition => some "condition"
  | value => some "value"
  | linkEntity => some "link-entity"
  | unknown => none

def ofTag (tag : String) : Kind :=
  (known.find? fun kind => kind.tag? == some tag).getD unknown

/-- Place among siblings; the lower comes first. -/
def rank : Kind → Nat
  | fetch => 0
  | entity => 10
  | allAttributes => 15
  | column => 20
  | order => 30
  | filter => 40
  | condition => 50
  | value => 60
  | linkEntity => 70
  | unknown => 100

/-- The label of a node that has nothing to show. -/
def defaultName : Kind → String
  | fetch => "Fetch"
  | entity => "Entity"
  | allAttributes => "All Attributes"
  | column => "Attribute"
  | order => "Order"
  | filter => "Filter"
  | condition => "Condition"
  | value => "Value"
  | linkEntity => "Link Entity"
  | unknown => "Unknown"

/-- The child that comes with a node of this kind when it is added by hand. -/
def mandatoryChild? : Kind → Option Kind
  | fetch => some entity
  | filter => some condition
  | _ => none

/-- The kinds that may be the parent. `none` allows all of them, an empty list
only the top level. -/
def allowedParents? : Kind → Option (List Kind)
  | fetch => some []
  | entity => some [fetch]
  | allAttributes | column | order | linkEntity => some [entity, linkEntity]
  | filter => some [entity, linkEntity, filter]
  | condition => some [filter]
  | value => some [condition]
  | unknown => none

def acceptsParent (kind parent : Kind) : Bool :=
  match kind.allowedParents? with
  | none => true
  | some parents => parents.contains parent

/-- The kind names a table. -/
def isEntityLike (kind : Kind) : Bool := kind == entity || kind == linkEntity

private def plain (name : String) (order : Nat) (valueKind : ValueKind) : AttributeSpec :=
  { name, order, valueKind }

private def shown (name : String) (order : Nat) (valueKind : ValueKind) : AttributeSpec :=
  { name, order, valueKind, displayable := true }

def conditionOperators : List String :=
  ["eq", "ne", "gt", "ge", "lt", "le", "like", "not-like", "begins-with", "not-begin-with",
    "ends-with", "not-end-with", "in", "not-in", "between", "not-between", "null", "not-null",
    "yesterday", "today", "tomorrow", "last-x-days", "next-x-days", "on", "on-or-before",
    "on-or-after", "eq-userid", "ne-userid", "under", "eq-or-under", "not-under", "above",
    "eq-or-above", "contain-values", "not-contain-values"]

def linkTypes : List String :=
  ["inner", "outer", "any", "not any", "all", "not all", "exists", "in",
    "matchfirstrowusingcrossapply"]

def dateGroupings : List String :=
  ["day", "week", "month", "quarter", "year", "fiscal-period", "fiscal-year"]

/-- The declared attributes, in the order in which they are written. -/
def attributes : Kind → List AttributeSpec
  | fetch =>
    [plain "version" 1 .text, plain "output-format" 2 .text,
      plain "mapping" 3 (.choice ["logical", "internal"]), shown "top" 4 .number,
      plain "count" 5 .number, plain "page" 6 .number, plain "paging-cookie" 7 .text,
      shown "distinct" 8 .bool, plain "no-lock" 9 .bool, shown "aggregate" 10 .bool,
      plain "returntotalrecordcount" 11 .bool]
  | entity => [shown "name" 1 .text, plain "enableprefiltering" 2 .bool]
  | linkEntity =>
    [shown "name" 1 .text, shown "from" 2 .text, shown "to" 3 .text, shown "alias" 4 .text,
      shown "link-type" 5 (.choice linkTypes), plain "visible" 6 .bool,
      plain "intersect" 7 .bool]
  | column =>
    [shown "name" 1 .text, shown "alias" 2 .text, shown "aggregate" 3 .text,
      plain "groupby" 4 .bool, plain "dategrouping" 5 (.choice dateGroupings),
      plain "distinct" 6 .bool, plain "usertimezone" 7 .bool]
  | order =>
    [shown "attribute" 1 .text, shown "alias" 2 .text, shown "descending" 3 .bool,
      plain "entityname" 4 .text]
  | filter => [shown "type" 1 (.choice ["and", "or"]), plain "isquickfindfields" 2 .bool]
  | condition =>
    [shown "entityname" 1 .text, shown "attribute" 2 .text,
      shown "operator" 3 (.choice conditionOperators), shown "value" 4 .text,
      plain "alias" 5 .text, plain "uiname" 6 .text, plain "uitype" 7 .text,
      plain "uihidden" 8 .bool]
  | value =>
    [{ shown contentName 0 .text with content := true }, plain "uiname" 1 .text,
      plain "uitype" 2 .text]
  | allAttributes | unknown => []

def attribute? (kind : Kind) (name : String) : Option AttributeSpec :=
  kind.attributes.find? fun spec => spec.name == name

/-- Elements of the kind may hold text. -/
def acceptsContent (kind : Kind) : Bool := (kind.attribute? contentName).isSome

def rules : Kind → List Rule
  | entity => [.requireAttribute "name"]
  | linkEntity => [.requireAttribute "name", .requireAttribute "from", .requireAttribute "to"]
  | column => [.requireAttribute "name", .aliasWhenAggregated]
  | order => [.requireAnyOf ["attribute", "alias"]]
  | filter => [.requireChild]
  | condition => [.requireAttribute "attribute", .requireAttribute "operator"]
  | fetch | allAttributes | value | unknown => []

end Kind

end QueryMarkup
