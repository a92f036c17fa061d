import QueryMarkup.Proofs.Document.Chronicle
import QueryMarkup.Proofs.Document.Recomputed
import QueryMarkup.Proofs.Tree.Listeners

/-!
# The attributes of a node

A node has its attributes, the slots of their values, and what follows from the values. However it was
worked on, the attributes are in order, each shows what its slot holds, and no other slot holds
anything.
-/
namespace QueryMarkup

/-! ## In order -/

theorem eraseDups_of_nodup {names : List String} (h : names.Nodup) : names.eraseDups = names := by
  induction names with
  | nil => rfl
  | cons name names ih =>
    obtain ⟨new, distinct⟩ := List.nodup_cons.mp h
    have others : names.filter (fun x => !x == name) = names := by
      refine List.filter_eq_self.mpr fun x hx => ?_
      have other : x ≠ name := fun same => new (same ▸ hx)
      simp [other]
    rw [List.eraseDups_cons, others, ih distinct]

/-- The attributes of a node, given the names in the order in which they were created. -/
structure Node.Collected (history : List String) (n : Node) : Prop where
  unique : n.names.Nodup
  sorted : n.attributes.Pairwise fun a b => a.order ≤ b.order
  order : ∀ a ∈ n.attributes, a.order = ((n.kind.attribute? a.name).map (·.order)).getD undeclaredOrder
  /-- Names that the table does not have come last, in the order in which they came last. -/
  names : n.names = (n.kind.attributes.map (·.name)).filter (fun name => name ∈ n.names) ++
    (latest history n.names).filter fun name => n.kind.attribute? name = none
  /-- An attribute watches the slot of its name. -/
  bound : ∀ a ∈ n.attributes, ∀ w ∈ a.watchers, w ∈ (n.slots.get a.name).watchers
  written : ∀ a ∈ n.attributes, a.display.value = Attribute.written a.name a.content (n.value a.name) ∧
    a.issues = Attribute.issuesAnew n.kind a.name (n.value a.name)
  blank : ∀ name ∉ n.names, n.value name = ""
  stored : ∀ name, n.value name ≠ "" → (name, n.value name) ∈ n.pairs

theorem Entry.Follows.names_eq {e : Entry} {history : List String} (h : e.Follows history) :
    e.names = (e.kind.attributes.map (·.name)).filter (fun name => name ∈ e.names) ++
      (latest history e.names).filter fun name => e.kind.attribute? name = none := by
  have arranged : e.names = e.kind.arrange (latest history e.names) := by
    have names := congrArg (List.map (·.name)) h.has
    rw [List.map_map] at names
    exact names.trans ((List.map_congr_left fun name _ => e.kind.name_bareAttribute name).trans
      (List.map_id _))
  have distinct : (latest history e.names).Nodup := (List.nodup_dedup history).filter _
  have same : (latest history e.names).contains = fun name => decide (name ∈ e.names) := by
    funext name
    have there : name ∈ e.names ↔ name ∈ latest history e.names := h.has.mem_names
    simp only [List.contains_eq_mem, there]
  have unknown : (fun name => (e.kind.attribute? name).isNone) =
      fun name => decide (e.kind.attribute? name = none) := by
    funext name
    cases e.kind.attribute? name <;> rfl
  refine arranged.trans ?_
  rw [Kind.arrange, eraseDups_of_nodup distinct, same, unknown]

namespace Tree

variable {t t' : Tree} {n : Node} {id : NodeId} {name value : String} {desk : Option Desk}
  {log : Chronicle}

theorem Dated.collected (h : Dated desk t log) (current : t.Current) (hn : n ∈ t.nodes) :
    n.Collected (log.at n.id) := by
  have fitted := current.fitted n hn
  have fresh := current.fresh n hn
  have follows := h.recorded n.entry (List.mem_map_of_mem hn)
  have names : n.entry.names = n.names := Node.names_entry n
  have blank : ∀ name ∉ n.names, n.value name = "" := names ▸ follows.blank
  refine ⟨fitted.names, fitted.sorted, fun a ha => ?_, ?_, (current.wired n hn).attributes,
    fun a ha => ⟨fresh.display a ha ?_, fresh.check a ha ?_⟩, blank, fun name filled => ?_⟩
  · have same := congrArg Attribute.order (fitted.attributes a ha)
    simp only [Attribute.order_base] at same
    rw [same, Attribute.create]
    cases n.kind.attribute? a.name <;> rfl
  · have arranged := follows.names_eq
    rw [names] at arranged
    exact arranged
  · simp
  · simp
  · have there : name ∈ n.names := of_not_not fun out => filled (blank name out)
    obtain ⟨a, ha, rfl⟩ := List.mem_map.mp there
    exact List.mem_filter.mpr ⟨List.mem_map.mpr ⟨a, ha, rfl⟩, by simpa using filled⟩

/-! ## In place -/

/-- Overwriting an attribute moves none. -/
theorem names_overwrite {e : Edit} (slot : e.slot? = some (id, name)) (present : name ∈ t.namesAt id)
    (stays : e ≠ .removeAttribute id name) :
    (t.edit e).nodes.map (fun n => (n.id, n.names)) = t.nodes.map fun n => (n.id, n.names) := by
  cases hn : t.node? id with
  | none => rw [edit_slot_of_none slot hn]
  | some n =>
    rcases edit_slot_cases slot hn with ⟨same, -⟩ | ⟨-, -, value, made⟩ | ⟨-, absent, -⟩ | ⟨removed, -⟩
    · rw [same]
    · rw [made]
      exact (names_writeSlot t id name value).nodes
    · rw [namesAt_of_mem hn] at present
      exact absurd present (attribute?_eq_none.mp absent)
    · exact absurd removed stays

/-- A write leaves a node as it is, but for what one slot holds. -/
theorem node?_writeSlot (hn : t.node? id = some n) (name value : String) :
    ∃ m, (t.writeSlot id name value).node? id = some m ∧ m.kind = n.kind ∧ m.names = n.names ∧
      m.slots.get name = (n.slots.get name).set value := by
  rcases t.writeSlot_cases id name value with ⟨same, held⟩ | kept
  · have stored : (n.slots.get name).cell.value = value := held n hn
    refine ⟨n, same.symm ▸ hn, rfl, rfl, ?_⟩
    rw [Slot.set, ← stored, Cell.set_self]
  · have view (n : Node) : (n.fixture.id, n.fixture.kind, n.fixture.slots) = (n.id, n.kind, n.slots) := rfl
    have through : Keeps (fun n : Node => (n.id, n.kind, n.slots))
      (t.alter id fun n => n.setSlot name value) (t.writeSlot id name value) := kept.through view
    have same := map_node?_congr through.nodes id
    rw [node?_alter_self (f := fun n => n.setSlot name value) (fun _ => rfl) hn] at same
    obtain ⟨m, hm, same⟩ := Option.map_eq_some_iff.mp same
    obtain ⟨kind, slots⟩ := Prod.mk.inj same
    have names := map_node?_congr (names_writeSlot t id name value).nodes id
    rw [hn, hm] at names
    refine ⟨m, hm, kind, Option.some.inj names, ?_⟩
    rw [slots]
    exact (Slots.get_alter n.slots name (·.set value) (fun _ => rfl) name).trans (if_pos rfl)

/-- A new attribute watches the slot of its name, with all who watched it before. -/
theorem node?_createAttribute (hn : t.node? id = some n) (name value : String) :
    ∃ m, (t.createAttribute id name value).node? id = some m ∧ name ∈ m.names ∧
      m.slots.get name = { n.slots.get name with
        cell := (n.slots.get name).cell.set value
        watchers := (n.slots.get name).watchers ++
          .display :: if n.kind.valueKind name = .text then [] else [.valueCheck] } := by
  obtain ⟨m, hm, kind, -, slot⟩ := node?_writeSlot hn name value
  have made : (t.createAttribute id name value).node? id = some (m.insertAttribute name) :=
    node?_alter_self (f := fun n => n.insertAttribute name) (fun _ => rfl) hm
  refine ⟨_, made, ?_, ?_⟩
  · rw [← namesAt_of_mem made]
    exact namesAt_createAttribute hn name value
  · refine (Slots.get_alter m.slots name _ (fun s => s.name_foldl_watch _) name).trans ?_
    rw [if_pos rfl, Slot.foldl_watch, slot, Attribute.watchers_create, kind]
    rfl

/-- An attribute that goes no longer watches its slot. -/
theorem node?_eraseAttribute (hn : t.node? id = some n) (name : String) :
    ∃ m, ((t.writeSlot id name "").alter id fun n => n.eraseAttribute name).touch.node? id = some m ∧
      m.kind = n.kind ∧ name ∉ m.names ∧
      m.slots.get name = ((n.slots.get name).set "").release := by
  obtain ⟨m, hm, kind, -, slot⟩ := node?_writeSlot hn name ""
  have gone : ((t.writeSlot id name "").alter id fun n => n.eraseAttribute name).touch.node? id =
      some (m.eraseAttribute name) :=
    node?_alter_self (f := fun n => n.eraseAttribute name) (fun _ => rfl) hm
  refine ⟨_, gone, kind, ?_, ?_⟩
  · intro there
    obtain ⟨a, ha, same⟩ := List.mem_map.mp there
    exact absurd same (of_decide_eq_true (List.mem_filter.mp ha).2)
  · rw [← slot]
    exact (Slots.get_alter m.slots name Slot.release (fun _ => rfl) name).trans (if_pos rfl)

/-- An attribute that is removed and comes again has the slot that it had, with all who watched it
from elsewhere. -/
theorem rebound (hn : t.node? id = some n) (present : name ∈ n.names) {e : Edit}
    (again : e = .setAttribute id name value ∨ e = .insertParsed id name value) :
    ∃ m m', (t.edit (.removeAttribute id name)).node? id = some m ∧ name ∉ m.names ∧
      ((t.edit (.removeAttribute id name)).edit e).node? id = some m' ∧ name ∈ m'.names ∧
      m'.slots.get name = { n.slots.get name with
        cell := ((n.slots.get name).cell.set "").set value
        watchers := (n.slots.get name).release.watchers ++
          .display :: if n.kind.valueKind name = .text then [] else [.valueCheck] } := by
  have there : (n.attribute? name).isSome := Node.isSome_attribute?.mpr present
  obtain ⟨m, hm, kind, absent, slot⟩ := node?_eraseAttribute hn name
  have removed : t.edit (.removeAttribute id name) = _ := edit_removeAttribute hn
  rw [if_pos there] at removed
  rw [← removed] at hm
  have made : (t.edit (.removeAttribute id name)).edit e =
      (t.edit (.removeAttribute id name)).createAttribute id name value := by
    rcases again with rfl | rfl
    · rw [edit_setAttribute hm, attribute?_eq_none.mpr absent]
      rfl
    · rw [edit_insertParsed hm, attribute?_eq_none.mpr absent]
      rfl
  obtain ⟨m', hm', present', slot'⟩ := node?_createAttribute hm name value
  refine ⟨m, m', hm, absent, made ▸ hm', present', ?_⟩
  rw [slot', slot, kind]
  rfl

/-! ## In every tree that is reached -/

/-- In every tree that is reached, and for every account of which attributes were created on the way,
the attributes of a node are in order, each with the value of its slot, and no other slot has a value.
Overwriting moves no attribute. One that is removed and comes again, at once or after other edits,
watches the slot that it had, which has only been written to. -/
theorem reached_collected (h : Reached desk t) :
    (∃ log, Dated desk t log) ∧
    (∀ log, Dated desk t log → ∀ n ∈ t.nodes, n.Collected (log.at n.id)) ∧
    (∀ e id name, e.slot? = some (id, name) → name ∈ t.namesAt id → e ≠ .removeAttribute id name →
      (t.edit e).nodes.map (fun n => (n.id, n.names)) = t.nodes.map fun n => (n.id, n.names)) ∧
    (∀ n ∈ t.nodes, ∀ name ∈ n.names, ∀ value e,
      e = .setAttribute n.id name value ∨ e = .insertParsed n.id name value →
      ∃ m m', (t.edit (.removeAttribute n.id name)).node? n.id = some m ∧ name ∉ m.names ∧
        ((t.edit (.removeAttribute n.id name)).edit e).node? n.id = some m' ∧ name ∈ m'.names ∧
        m'.slots.get name = { n.slots.get name with
          cell := ((n.slots.get name).cell.set "").set value
          watchers := (n.slots.get name).release.watchers ++
            .display :: if n.kind.valueKind name = .text then [] else [.valueCheck] }) ∧
    ∀ edits : List Edit, (∀ e ∈ edits, e.replaces = false) → t.Continues (edits.foldl edit t) :=
  ⟨h.dated, fun _ dated _ hn => dated.collected h.current hn, fun _ _ _ => names_overwrite,
    fun _ hn _ present _ _ again => rebound (node?_of_mem h.sound.nodup hn) present again,
    fun _ goesOn => continues_edits goesOn⟩

/-- An attribute that the table does not have goes and comes again behind the other. The name stays
in front. -/
theorem reached_collected_run :
    let t := ((((((new none).edit (.addParsed .entity "entity" none)).edit
      (.setAttribute ⟨0⟩ "x" "1")).edit (.setAttribute ⟨0⟩ "y" "2")).edit
      (.setAttribute ⟨0⟩ "name" "account")).edit (.removeAttribute ⟨0⟩ "x")).edit
      (.insertParsed ⟨0⟩ "x" "3")
    let log : Chronicle := [(⟨0⟩, "x"), (⟨0⟩, "y"), (⟨0⟩, "name"), (⟨0⟩, "x")]
    Reached none t ∧ Dated none t log ∧ t.namesAt ⟨0⟩ = ["name", "y", "x"] ∧
      ∀ n ∈ t.nodes, n.Collected (log.at n.id) := by
  intro t log
  have reached : Reached none t := .edit _ (.edit _ (.edit _ (.edit _ (.edit _ (.edit _ .new)))))
  have dated : Dated none t log := by
    have dated : Dated none t _ := .edit _ (.edit _ (.edit _ (.edit _ (.edit _ (.edit _ .new)))))
    refine Eq.mp (congrArg (Dated none t) ?_) dated
    decide +kernel
  exact ⟨reached, dated, by decide +kernel, (reached_collected reached).2.1 log dated⟩

end Tree

end QueryMarkup
