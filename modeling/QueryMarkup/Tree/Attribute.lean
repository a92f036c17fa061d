import QueryMarkup.Text.Range
import QueryMarkup.Text.Reference
import QueryMarkup.Tree.Slot
import QueryMarkup.Validation.Rule

/-!
One attribute of a node. Its value is in the slot of its name; the attribute
keeps what follows from the value: the written form and the result of the check
against the declared kind of value.
-/
namespace QueryMarkup

/-- The last result of a check and the number of times it was made. -/
structure Outcome where
  issues : List Issue
  evaluations : Nat
  deriving DecidableEq

namespace Outcome

/-- The first evaluation. -/
def first (issues : List Issue) : Outcome := ⟨issues, 1⟩

def again (outcome : Outcome) (issues : List Issue) : Outcome := ⟨issues, outcome.evaluations + 1⟩

def passed (outcome : Outcome) : Bool := outcome.issues.isEmpty

end Outcome

/-- What is checked about an attribute. -/
inductive AttributeCheck where
  | valueKind
  /-- The name is not declared; the finding stays as long as the attribute. -/
  | knownName
  deriving DecidableEq

def AttributeCheck.name : AttributeCheck → String
  | valueKind => "value-kind"
  | knownName => "known-name"

structure Attribute where
  name : String
  order : Nat
  valueKind : ValueKind
  /-- The kind of the node declares the name. -/
  declared : Bool
  displayable : Bool
  content : Bool
  /-- What the attribute adds to the markup. -/
  display : Cell String
  check : Option (AttributeCheck × Outcome)
  /-- Where the name stands in the text last read or written. -/
  span : Option Text.Range := none
  deriving DecidableEq

namespace Attribute

/-- The written form of a value. An empty value is not written at all. -/
def written (name : String) (content : Bool) (value : String) : String :=
  if value.isEmpty then ""
  else if content then Text.encode value
  else name ++ "=\"" ++ Text.encode value ++ "\""

/-- A new attribute of a node of this kind, with the value that its slot holds. -/
def create (kind : Kind) (name value : String) : Attribute :=
  match kind.attribute? name with
  | some spec =>
    { name
      order := spec.order
      valueKind := spec.valueKind
      declared := true
      displayable := spec.displayable
      content := spec.content
      display := ⟨written name spec.content value, 0⟩
      check :=
        if spec.valueKind = .text then none
        else some (.valueKind, .first (spec.valueKind.issues name value)) }
  | none =>
    { name
      order := undeclaredOrder
      valueKind := .text
      declared := false
      displayable := false
      content := false
      display := ⟨written name false value, 0⟩
      check := some (.knownName, .first [undeclaredIssue kind name]) }

/-- What the reader of markup reports when it meets a new attribute. -/
def nameIssues (kind : Kind) (name : String) : List StructuralIssue :=
  if (kind.attribute? name).isSome then [] else [⟨.unknownAttribute, name⟩]

/-- What an attribute watches of its own slot. -/
def watchers (a : Attribute) : List Watcher :=
  .display :: if a.valueKind = .text then [] else [.valueCheck]

def redisplay (a : Attribute) (value : String) : Attribute :=
  { a with display := a.display.set (written a.name a.content value) }

/-- Checks a changed value. -/
def recheck (a : Attribute) (value : String) : Attribute :=
  { a with check := a.check.map fun (check, outcome) =>
      (check, outcome.again (a.valueKind.issues a.name value)) }

def issues (a : Attribute) : List Issue := (a.check.map (·.2.issues)).getD []

/-- Follows a change of the value, on behalf of one watcher. -/
def follow (a : Attribute) (value : String) : Watcher → Attribute
  | .display => a.redisplay value
  | .valueCheck => a.recheck value
  | .rule _ _ | .schema _ => a

/-- Stores a value in the slot of an attribute on its own and brings the attribute up to date. -/
def assign (a : Attribute) (slot : Slot) (value : String) : Slot × Attribute :=
  if slot.value = value then (slot, a)
  else (slot.set value, a.watchers.foldl (fun a w => a.follow value w) a)

/-- Puts an attribute after all that come before it or have the same place. -/
def insertInto (a : Attribute) : List Attribute → List Attribute
  | [] => [a]
  | b :: rest => if b.order ≤ a.order then b :: insertInto a rest else a :: b :: rest

end Attribute

end QueryMarkup
