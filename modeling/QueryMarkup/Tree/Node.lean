import QueryMarkup.Tree.Attribute
import QueryMarkup.Validation.Schema

/-!
One node of the query tree. Beside its place in the tree a node keeps what
follows from its attributes: a label, the attributes as markup, and the findings
of all its checks. `settle` brings these up to date; storing an attribute and
re-evaluating a check end with it.
-/
namespace QueryMarkup

/-- A rule of the node's kind with its last result. -/
structure RuleCheck where
  rule : Rule
  outcome : Outcome
  deriving DecidableEq

/-- The schema check of a node. -/
structure SchemaCheck where
  /-- The check's place at the desk. -/
  number : Nat
  /-- The node whose `name` is the table. -/
  table : NodeId
  /-- The message of the rejection that holds now. -/
  rejection : Option String
  evaluations : Nat
  deriving DecidableEq

namespace SchemaCheck

def issues (check : SchemaCheck) : List Issue :=
  check.rejection.toList.map fun message => ⟨.schemaMismatch, message⟩

/-- Stores an answer. An answer that changes nothing is no evaluation. -/
def answer (check : SchemaCheck) (rejection : Option String) : SchemaCheck :=
  if check.rejection = rejection then check
  else { check with rejection, evaluations := check.evaluations + 1 }

end SchemaCheck

/-- The attribute of a node that names a column, for kinds that have a column checked. -/
def Kind.columnName? : Kind → Option String
  | .column => some "name"
  | .order | .condition => some "attribute"
  | _ => none

structure Node where
  id : NodeId
  kind : Kind
  tag : String
  /-- The number of ancestors. -/
  level : Nat
  parent : Option NodeId
  /-- The node has children. -/
  expandable : Bool := false
  expanded : Bool := true
  /-- All ancestors are visible and expanded. -/
  visible : Bool := true
  childCount : Nat := 0
  slots : Slots := .empty
  /-- In the order in which they are written. -/
  attributes : List Attribute := []
  rules : List RuleCheck := []
  schema : Option SchemaCheck := none
  label : String := ""
  /-- The attributes as they stand in the start tag. -/
  markup : String := ""
  validation : Cell (List Issue) := ⟨[], 0⟩
  /-- How many hosts are told of a change of `validation`. -/
  observers : Nat := 0
  /-- Where the tag's name stands in the text last read or written. -/
  span : Option Text.Range := none
  deriving DecidableEq

namespace Node

def rank (node : Node) : Nat := node.kind.rank

def attribute? (node : Node) (name : String) : Option Attribute :=
  node.attributes.find? fun a => a.name == name

/-- The value stored under a name, empty where there is none. -/
def value (node : Node) (name : String) : String := node.slots.value name

/-- Name and value of every attribute that is not empty. -/
def pairs (node : Node) : List (String × String) :=
  (node.attributes.map fun a => (a.name, node.value a.name)).filter fun p => !p.2.isEmpty

/-- How often the written form of an attribute has changed. -/
def displayVersion (node : Node) (name : String) : Nat :=
  ((node.attribute? name).map (·.display.version)).getD 0

/-- The text of the element as it is written, if it has any. -/
def content? (node : Node) : Option String :=
  ((node.attribute? contentName).map (·.display.value)).filter fun text => !text.isEmpty

/-- The label of a node that shows no attribute. -/
def fallbackLabel (node : Node) : String :=
  if node.kind = .unknown then node.tag else node.kind.defaultName

/-- The written forms of the attributes that are shown, or else the fallback. -/
def labelNow (node : Node) : String :=
  let shown := ((node.attributes.filter (·.displayable)).map (·.display.value)).filter
    fun text => !text.isEmpty
  if shown.isEmpty then node.fallbackLabel else " ".intercalate shown

/-- A blank and the written form of every attribute that is written in the start tag. -/
def markupNow (node : Node) : String :=
  let fragments := ((node.attributes.filter fun a => !a.content).map (·.display.value)).filter
    fun text => !text.isEmpty
  String.join (fragments.map fun text => " " ++ text)

/-- All findings: of the rules, of the schema, and of the attributes in their order. -/
def issuesNow (node : Node) : List Issue :=
  node.rules.flatMap (·.outcome.issues) ++ (node.schema.map (·.issues)).getD []
    ++ node.attributes.flatMap (·.issues)

/-- Brings up to date what follows from the attributes and checks. -/
def settle (node : Node) : Node :=
  { node with
    label := node.labelNow
    markup := node.markupNow
    validation := node.validation.set node.issuesNow }

/-- What the rules of the node look at. -/
def scope (node : Node) (rootAggregate : String) : Rule.Scope where
  kind := node.kind
  own := node.value
  rootAggregate := rootAggregate
  childCount := node.childCount

/-- Evaluates one rule again. -/
def recheckRule (node : Node) (rootAggregate : String) (index : Nat) : Node :=
  settle { node with
    rules := node.rules.modify index fun c =>
      { c with outcome := c.outcome.again (c.rule.issues (node.scope rootAggregate)) } }

/-- Changes the attribute with a name, if there is one. -/
def alterAttribute (node : Node) (name : String) (f : Attribute → Attribute) : Node :=
  { node with attributes := node.attributes.map fun a => if a.name = name then f a else a }

/-- Lets the attribute with a name follow a change of its value. -/
def followSlot (node : Node) (name : String) (watcher : Watcher) : Node :=
  settle (node.alterAttribute name fun a => a.follow (node.value name) watcher)

def setSlot (node : Node) (name value : String) : Node :=
  { node with slots := node.slots.alter name (·.set value) }

/-- Adds an attribute that holds what its slot holds. -/
def insertAttribute (node : Node) (name : String) : Node :=
  let a := Attribute.create node.kind name (node.value name)
  settle { node with
    slots := node.slots.alter name fun slot => a.watchers.foldl Slot.watch slot
    attributes := a.insertInto node.attributes }

/-- Takes an attribute away. Its slot stays, unwatched by it. -/
def eraseAttribute (node : Node) (name : String) : Node :=
  settle { node with
    slots := node.slots.alter name Slot.release
    attributes := node.attributes.filter fun a => a.name ≠ name }

/-- Stores the answer of the schema. -/
def answerSchema (node : Node) (rejection : Option String) : Node :=
  settle { node with schema := node.schema.map (·.answer rejection) }

/-- What the schema is asked about a node in a table with this name. There is no
question while the table or the column has no name. -/
def inquiry? (node : Node) (table : String) : Option Inquiry :=
  if table.isEmpty then none
  else match node.kind.columnName? with
    | none => some (.table table)
    | some name => if (node.value name).isEmpty then none else some (.column table (node.value name))

/-- The rules of a new node, evaluated for the first time. -/
def firstRules (node : Node) (rootAggregate : String) : List RuleCheck :=
  node.kind.rules.map fun rule => ⟨rule, .first (rule.issues (node.scope rootAggregate))⟩

end Node

/-- The watchers that the rules of a node place, each with what it watches. -/
def Kind.ruleWatchers (kind : Kind) (id : NodeId) : List (Watch × Watcher) :=
  kind.rules.zipIdx.flatMap fun (rule, index) =>
    rule.watches.map fun watch => (watch, .rule id index)

end QueryMarkup
