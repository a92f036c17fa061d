import QueryMarkup.Proofs.Tree.Rewiring
import QueryMarkup.Proofs.Tree.Change
import QueryMarkup.Proofs.Validation.Desk

/-!
# Dockets

What the schema has to do with a tree. A docket says whose a schema check is, its number
at the desk and the slots that it is told of; it stays as long as its node is there. The
values of those slots and the rejection that holds come and go.
-/
namespace QueryMarkup

/-- A schema check: its node, its number, and the slots with the names that it watches. -/
structure Docket where
  owner : NodeId
  check : Nat
  watches : List (NodeId × String)
  deriving DecidableEq

namespace Node

def docket? (n : Node) : Option Docket :=
  n.schema.map fun check => ⟨n.id, check.number, Tree.schemaWatches n.id n.kind check⟩

/-- The message of the rejection that holds now. -/
def rejection? (n : Node) : Option String := n.schema.bind (·.rejection)

/-- A schema check is told of a slot of the node. -/
def Tells (n : Node) (name : String) (owner : NodeId) : Prop :=
  .schema owner ∈ (n.slots.get name).watchers

end Node

/-- The id and the parent of a node, its docket, and which schema checks are told of which of its
slots. -/
structure Wiring where
  id : NodeId
  parent : Option NodeId
  docket? : Option Docket
  tells : String → NodeId → Prop

def Node.wiring (n : Node) : Wiring where
  id := n.id
  parent := n.parent
  docket? := n.docket?
  tells := n.Tells

/-- All of a node that matters to the schema: its wiring, its value under each name and the
rejection that holds now. -/
structure SchemaView where
  wiring : Wiring
  value : String → String
  rejection? : Option String

def Node.schemaView (n : Node) : SchemaView where
  wiring := n.wiring
  value := n.value
  rejection? := n.rejection?

namespace Node

theorem wiring_answerSchema (n : Node) (rejection : Option String) :
    (n.answerSchema rejection).wiring = n.wiring := by
  have docket : (n.answerSchema rejection).docket? = n.docket? := by
    cases checked : n.schema with
    | none => simp [docket?, answerSchema, settle, checked]
    | some check =>
      simp only [docket?, answerSchema, settle, checked, Option.map_some, SchemaCheck.answer]
      split <;> rfl
  simp only [wiring, docket]
  rfl

theorem rejection?_answerSchema (n : Node) (rejection : Option String) :
    (n.answerSchema rejection).rejection? = if n.docket? = none then none else rejection := by
  cases checked : n.schema with
  | none => simp [docket?, rejection?, answerSchema, settle, checked]
  | some check =>
    simp only [docket?, rejection?, answerSchema, settle, checked, Option.map_some, SchemaCheck.answer,
      reduceCtorEq, ↓reduceIte, Option.bind_some]
    split
    · assumption
    · rfl

theorem wiring_setSlot (n : Node) (name value : String) : (n.setSlot name value).wiring = n.wiring := by
  have tells : (n.setSlot name value).Tells = n.Tells := by
    funext x owner
    change (.schema owner ∈ ((n.slots.alter name (·.set value)).get x).watchers) = _
    rw [Slots.get_alter _ _ (·.set value) fun _ => rfl]
    split
    · rename_i same
      subst same
      rfl
    · rfl
  simp only [wiring, tells]
  rfl

theorem schemaView_insertAttribute (n : Node) (name : String) :
    (n.insertAttribute name).schemaView = n.schemaView := by
  have value : (n.insertAttribute name).value = n.value := n.value_insertAttribute name
  have tells : (n.insertAttribute name).Tells = n.Tells := by
    funext x owner
    have own : .schema owner ∉ (Attribute.create n.kind name (n.value name)).watchers := by
      unfold Attribute.watchers
      split <;> simp
    rw [Tells, watchers_insertAttribute, List.mem_append, Tells]
    split <;> simp [own]
  simp only [schemaView, wiring, value, tells]
  rfl

theorem schemaView_eraseAttribute (n : Node) (name : String) :
    (n.eraseAttribute name).schemaView = n.schemaView := by
  have value : (n.eraseAttribute name).value = n.value := n.value_eraseAttribute name
  have tells : (n.eraseAttribute name).Tells = n.Tells := by
    funext x owner
    rw [Tells, mem_watchers_eraseAttribute, Tells]
    simp
  simp only [schemaView, wiring, value, tells]
  rfl

end Node

namespace Tree

/-- The desk with all checks and inquiries. -/
def records (t : Tree) : Desk := t.desk.getD (.new none)

/-- All schema checks in a tree. -/
def dockets (t : Tree) : List Docket := t.nodes.filterMap Node.docket?

/-- The value of a slot, empty where there is no node. -/
def valueAt (t : Tree) (place : NodeId × String) : String :=
  ((t.node? place.1).map (·.value place.2)).getD ""

/-- The names that a check watches: that of the table, then that of the column if it has one. -/
def names (t : Tree) (x : Docket) : List String := x.watches.map t.valueAt

/-- The names that the check with a number watches, while its node is there. -/
def watched? (t : Tree) (check : Nat) : Option (List String) :=
  (t.dockets.find? fun x => x.check == check).map t.names

/-- The rejection that holds for a node. -/
def rejectionAt (t : Tree) (owner : NodeId) : Option String := (t.node? owner).bind (·.rejection?)

/-- The schema check of a node is told of a slot. -/
def Hears (t : Tree) (owner : NodeId) (place : NodeId × String) : Prop :=
  ∃ n ∈ t.nodes, n.id = place.1 ∧ n.Tells place.2 owner

/-- A node is another or a descendant of it. -/
inductive Under (t : Tree) (top : NodeId) : NodeId → Prop where
  | self : Under t top top
  | child {n : Node} {parent : NodeId} :
    n ∈ t.nodes → n.parent = some parent → Under t top parent → Under t top n.id

section
variable {t t' : Tree}

theorem mem_dockets {x : Docket} : x ∈ t.dockets ↔ ∃ n ∈ t.nodes, n.docket? = some x :=
  List.mem_filterMap

theorem owner_docket? {n : Node} {x : Docket} (h : n.docket? = some x) : x.owner = n.id := by
  obtain ⟨check, -, rfl⟩ := Option.map_eq_some_iff.mp h
  rfl

theorem watched?_eq_none {check : Nat} :
    t.watched? check = none ↔ ∀ x ∈ t.dockets, x.check ≠ check := by
  simp [watched?]

theorem records_congr (same : t'.desk = t.desk) : t'.records = t.records :=
  congrArg (Option.getD · (Desk.new none)) same

/-- Looking up what a view shows of a node. -/
theorem map_node? {β : Type} {view : Node → β} (ids : β → NodeId) (named : ∀ n, ids (view n) = n.id)
    (t : Tree) (id : NodeId) :
    (t.node? id).map view = (t.nodes.map view).find? fun b => ids b == id := by
  rw [node?, List.find?_map]
  congr 2
  funext n
  rw [Function.comp_apply, named]

/-! ## Steps that leave the desk alone -/

theorem desk_setSelection (t : Tree) (selection : Option NodeId) :
    (t.setSelection selection).desk = t.desk := by
  unfold setSelection
  split <;> rfl

theorem desk_setChildCount (t : Tree) (id : NodeId) (count : Nat) :
    (t.setChildCount id count).desk = t.desk := by
  have rules (t : Tree) (xs : List (RuleCheck × Nat)) :
      (xs.foldl (fun t x => t.recheckRule id x.2) t).desk = t.desk := by
    induction xs generalizing t with
    | nil => rfl
    | cons x xs ih => exact ih _
  unfold setChildCount
  split
  · rfl
  · split
    · rfl
    · exact rules _ _

theorem desk_refreshVisibility (t : Tree) (id : NodeId) : (t.refreshVisibility id).desk = t.desk := by
  unfold refreshVisibility
  split <;> rfl

theorem desk_adopt (t : Tree) (parent : NodeId) (count : Nat) : (t.adopt parent count).desk = t.desk :=
  (desk_refreshVisibility _ _).trans (desk_setChildCount _ _ _)

theorem desk_followSlot (t : Tree) (id : NodeId) (name : String) (watcher : Watcher) :
    (t.followSlot id name watcher).desk = t.desk := by
  unfold followSlot
  dsimp only
  split <;> rfl

theorem desk_answerCheck (t : Tree) (check : Nat) (rejection : Option String) :
    (t.answerCheck check rejection).desk = t.desk := by
  unfold answerCheck
  split <;> rfl

/-! ## What depends on wirings and views -/

theorem dockets_congr (same : t'.nodes.map Node.wiring = t.nodes.map Node.wiring) :
    t'.dockets = t.dockets := by
  have read (t : Tree) : t.dockets = (t.nodes.map Node.wiring).filterMap Wiring.docket? := by
    rw [List.filterMap_map]
    rfl
  rw [read, read, same]

theorem hears_congr (same : t'.nodes.map Node.wiring = t.nodes.map Node.wiring) {owner : NodeId}
    {place : NodeId × String} : t'.Hears owner place ↔ t.Hears owner place := by
  have read (t : Tree) : t.Hears owner place ↔
      ∃ s ∈ t.nodes.map Node.wiring, s.id = place.1 ∧ s.tells place.2 owner := by
    simp only [List.mem_map, exists_exists_and_eq_and]
    rfl
  rw [read, read, same]

theorem Under.mono {top id : NodeId} (h : t.Under top id)
    (sub : ∀ n ∈ t.nodes, ∃ m ∈ t'.nodes, m.id = n.id ∧ m.parent = n.parent) : t'.Under top id := by
  induction h with
  | self => exact .self
  | child hn parent _ ih =>
    obtain ⟨m, hm, id, same⟩ := sub _ hn
    rw [← id]
    exact .child hm (same.trans parent) ih

theorem under_congr (same : t'.nodes.map Node.wiring = t.nodes.map Node.wiring) {top id : NodeId}
    (h : t.Under top id) : t'.Under top id := by
  refine h.mono fun n hn => ?_
  have there : n.wiring ∈ t'.nodes.map Node.wiring := same ▸ List.mem_map_of_mem hn
  obtain ⟨m, hm, e⟩ := List.mem_map.mp there
  exact ⟨m, hm, congrArg Wiring.id e, congrArg Wiring.parent e⟩

/-- A step that the schema does not notice. -/
structure Still (t t' : Tree) : Prop where
  schemaViews : t'.nodes.map Node.schemaView = t.nodes.map Node.schemaView
  desk : t'.desk = t.desk

theorem Keeps.still (h : Keeps Node.schemaView t t') (desk : t'.desk = t.desk) : Still t t' :=
  ⟨h.nodes, desk⟩

theorem Still.refl (t : Tree) : Still t t := ⟨rfl, rfl⟩

theorem Still.trans {t'' : Tree} (h : Still t t') (h' : Still t' t'') : Still t t'' :=
  ⟨h'.schemaViews.trans h.schemaViews, h'.desk.trans h.desk⟩

theorem Still.wirings (h : Still t t') : t'.nodes.map Node.wiring = t.nodes.map Node.wiring := by
  have := congrArg (List.map SchemaView.wiring) h.schemaViews
  rwa [List.map_map, List.map_map] at this

theorem Still.dockets (h : Still t t') : t'.dockets = t.dockets := dockets_congr h.wirings

theorem Still.records (h : Still t t') : t'.records = t.records := records_congr h.desk

theorem Still.schemaView? (h : Still t t') (id : NodeId) :
    (t'.node? id).map Node.schemaView = (t.node? id).map Node.schemaView := by
  rw [map_node? (·.wiring.id) (fun _ => rfl), map_node? (·.wiring.id) (fun _ => rfl), h.schemaViews]

theorem Still.valueAt (h : Still t t') : t'.valueAt = t.valueAt := by
  funext place
  have same := congrArg (Option.map fun s : SchemaView => s.value place.2) (h.schemaView? place.1)
  rw [Option.map_map, Option.map_map] at same
  exact congrArg (Option.getD · "") same

theorem Still.names (h : Still t t') : t'.names = t.names := by
  funext x
  rw [Tree.names, h.valueAt, Tree.names]

theorem Still.rejectionAt (h : Still t t') : t'.rejectionAt = t.rejectionAt := by
  funext owner
  have read (t : Tree) : t.rejectionAt owner =
      ((t.node? owner).map Node.schemaView).bind SchemaView.rejection? := by
    rw [Option.bind_map]
    rfl
  rw [read, read, h.schemaView? owner]

end

end Tree

end QueryMarkup
