import QueryMarkup.Proofs.Tree.Filing
import QueryMarkup.Proofs.Tree.Listeners
import QueryMarkup.Proofs.Tree.Tally

/-!
# Who is evaluated again

A change of a value lets every validator be evaluated as often as it watches the slot, and a child
that comes or goes only the rule that demands one.
-/
namespace QueryMarkup

/-- An attribute whose value is checked does not hold any text. -/
theorem Node.Fitted.valueKind_ne_text {n : Node} {a : Attribute} {k : Nat} (h : n.Fitted)
    (ha : a ∈ n.attributes) (checked : a.runs? = some k) : n.kind.valueKind a.name ≠ .text := by
  have same := congrArg (fun b : Attribute => b.check.map (·.1)) (h.attributes a ha)
  simp only [Attribute.base, Option.map_map, Function.comp_def] at same
  unfold Attribute.runs? at checked
  unfold Kind.valueKind
  intro text
  unfold Attribute.create at same
  cases declared : n.kind.attribute? a.name with
  | none =>
    cases found : a.check with
    | none =>
      rw [found] at checked
      cases checked
    | some c =>
      simp only [found, declared, Option.map_some, Option.some_inj] at same
      simp [found, same] at checked
  | some spec =>
    rw [declared] at text
    have text : spec.valueKind = .text := text
    have none : a.check = none := by simpa [declared, text] using same
    rw [none] at checked
    cases checked

/-- The slot that an edit of an attribute writes. -/
def Edit.slot? : Edit → Option (NodeId × String)
  | .setAttribute id name _ | .insertParsed id name _ | .writeAttribute id name _
  | .removeAttribute id name => some (id, name)
  | _ => none

namespace Tree

variable {t t' : Tree} {n : Node} {name : String} {v : Validator} {k : Nat}

/-- How often a validator looks at a slot of a node. -/
def timesWatched (t : Tree) (v : Validator) (id : NodeId) (name : String) : Nat :=
  match v with
  | .rule owner index =>
    (((t.node? owner).bind (·.kind.rules[index]?)).map
      (·.timesWatching owner ((t.root?.map (·.id)).getD owner) id name)).getD 0
  | .value owner x => if owner = id ∧ x = name then 1 else 0

/-- In a slot that is attended, a validator has as many watchers as it looks there. -/
theorem Attended.countP_watchers (h : t.Attended) (nd : t.ids.Nodup) (fitted : ∀ n ∈ t.nodes, n.Fitted)
    (hn : n ∈ t.nodes) (name : String) (existed : t.runs? v = some k) :
    (n.slots.get name).watchers.countP (fun w => w.validator? n.id name = some v) =
      t.timesWatched v n.id name := by
  have heard := (h n.slotWatchers (List.mem_map_of_mem hn) name).countP_eq
    fun w => decide (w.validator? n.id name = some v)
  refine heard.trans ?_
  rw [List.countP_append]
  obtain ⟨m, found, runs⟩ := Option.bind_eq_some_iff.mp existed
  obtain ⟨hm, here⟩ := node?_eq_some found
  cases v with
  | rule owner index =>
    have here : m.id = owner := here
    subst here
    have distinct : (t.slotWatchers.map (·.id)).Nodup := by
      rw [slotWatchers, List.map_map]
      exact nd
    have root : SlotWatchers.rootOf t.slotWatchers = t.root?.map (·.id) := by
      rw [rootOf_slotWatchers, ids, List.head?_map]
      rfl
    have own : (n.slotWatchers.own name).countP
        (fun w => w.validator? n.id name = some (.rule m.id index)) =
        0 := by
      refine List.countP_eq_zero.mpr fun w hw => ?_
      rcases Node.mem_ownWatchers hw with rfl | rfl <;> simp [Watcher.validator?]
    have rules (ws : List Watcher) : ws.countP (fun w => w.validator? n.id name =
        some (.rule m.id index)) = ws.count (.rule m.id index) := by
      rw [List.count]
      refine List.countP_congr fun w _ => ?_
      cases w <;> simp [Watcher.validator?]
    have placed := SlotWatchers.count_ruled distinct (List.mem_map_of_mem hm)
      (SlotWatchers.rootOf t.slotWatchers)
      n.id name index
    have found : t.node? m.id = some m := found
    rw [own, rules, timesWatched, found, ← root]
    exact placed
  | value owner x =>
    have here : m.id = owner := here
    subst here
    have none : (SlotWatchers.ruled (SlotWatchers.rootOf t.slotWatchers) t.slotWatchers n.id name).countP
        (fun w => w.validator? n.id name = some (.value m.id x)) = 0 := by
      refine List.countP_eq_zero.mpr fun w hw => ?_
      obtain ⟨owner, index, rfl⟩ := SlotWatchers.rule_of_mem_ruled hw
      simp [Watcher.validator?]
    have own : (n.ownWatchers name).countP (fun w => w.validator? n.id name = some (.value m.id x)) =
        if m.id = n.id ∧ x = name then 1 else 0 := by
      split
      · rename_i here
        obtain ⟨same, rfl⟩ := here
        obtain rfl := List.inj_on_of_nodup_map nd hm hn same
        obtain ⟨a, present, checked⟩ := Option.bind_eq_some_iff.mp runs
        obtain ⟨ha, rfl⟩ := Node.attribute?_eq_some present
        rw [(fitted m hm).ownWatchers, if_pos (List.mem_map_of_mem ha),
          if_neg ((fitted m hm).valueKind_ne_text ha checked)]
        simp [Watcher.validator?]
      · rename_i other
        refine List.countP_eq_zero.mpr fun w hw => ?_
        rcases Node.mem_ownWatchers hw with rfl | rfl
        · simp [Watcher.validator?]
        · simp only [Watcher.validator?, decide_eq_true_eq, Option.some_inj, Validator.value.injEq]
          exact fun same => other ⟨same.1.symm, same.2.symm⟩
    have plus := congrArg (· + (n.ownWatchers name).countP fun w =>
      w.validator? n.id name = some (.value m.id x)) none
    refine plus.trans ?_
    rw [Nat.zero_add, own]
    rfl

/-! ## Attributes -/

theorem valueAt_writeSlot (nd : t.ids.Nodup) (hn : n ∈ t.nodes) (name value : String) :
    (t.writeSlot n.id name value).valueAt (n.id, name) = value := by
  rcases t.writeSlot_cases n.id name value with ⟨same, held⟩ | kept
  · rw [same, valueAt, node?_of_mem nd hn]
    exact held n (node?_of_mem nd hn)
  · have same (n : Node) : (n.fixture.id, n.fixture.value) = (n.id, n.value) := rfl
    have values := valueAt_congr (kept.through same).nodes
    rw [values, valueAt_setSlot nd hn, if_pos rfl]

section
variable {id : NodeId} {value : String}

theorem edit_slot_of_none {e : Edit} (slot : e.slot? = some (id, name)) (hn : t.node? id = none) :
    t.edit e = t := by
  have missing : t.getNode id = .error (.unknownNode id) := by
    rw [getNode, hn]
  cases e <;> cases slot
  · rw [Tree.edit, perform, setAttribute, missing]
    rfl
  · rw [Tree.edit, perform, insertParsed, missing]
    rfl
  · rw [Tree.edit, perform, removeAttribute, missing]
    rfl
  · rw [Tree.edit, perform, writeAttribute, hn]
    rfl

theorem edit_insertParsed (hn : t.node? id = some n) : t.edit (.insertParsed id name value) =
    if (n.attribute? name).isSome then t.writeSlot id name value
    else t.createAttribute id name value := by
  rw [Tree.edit, perform, insertParsed, getNode_eq_ok.mpr hn]
  simp only [bind, Except.bind]
  cases n.attribute? name <;> rfl

theorem edit_setAttribute (hn : t.node? id = some n) : t.edit (.setAttribute id name value) =
    if (n.attribute? name).isSome then t.writeSlot id name value
    else t.createAttribute id name value := by
  rw [Tree.edit, perform, setAttribute, getNode_eq_ok.mpr hn]
  simp only [bind, Except.bind]
  cases n.attribute? name <;> rfl

theorem edit_removeAttribute (hn : t.node? id = some n) : t.edit (.removeAttribute id name) =
    if (n.attribute? name).isSome then
      ((t.writeSlot id name "").alter id fun n => n.eraseAttribute name).touch
    else t := by
  rw [Tree.edit, perform, removeAttribute, getNode_eq_ok.mpr hn]
  simp only [bind, Except.bind]
  cases n.attribute? name <;> rfl

theorem edit_writeAttribute (hn : t.node? id = some n) : t.edit (.writeAttribute id name value) =
    if (n.attribute? name).isSome then t.writeSlot id name value else t := by
  rw [Tree.edit, perform, writeAttribute, hn]
  cases found : n.attribute? name <;> simp [found]

/-- An edit of an attribute does nothing where there is nothing to write to or to remove. Else it
is a write, a new attribute, or the end of one. -/
theorem edit_slot_cases {e : Edit} (slot : e.slot? = some (id, name)) (hn : t.node? id = some n) :
    (t.edit e = t ∧ n.attribute? name = none) ∨
      (e ≠ .removeAttribute id name ∧ name ∈ n.attributes.map (·.name) ∧
        ∃ value, t.edit e = t.writeSlot id name value) ∨
      (e ≠ .removeAttribute id name ∧ n.attribute? name = none ∧
        ∃ value, t.edit e = t.createAttribute id name value) ∨
      (e = .removeAttribute id name ∧ name ∈ n.attributes.map (·.name) ∧
        t.edit e = ((t.writeSlot id name "").alter id fun n => n.eraseAttribute name).touch) := by
  have present {a : Attribute} (found : n.attribute? name = some a) :
      name ∈ n.attributes.map (·.name) :=
    Node.isSome_attribute?.mp (Option.isSome_of_eq_some found)
  cases e <;> cases slot
  · rename_i value
    rw [edit_setAttribute hn]
    cases found : n.attribute? name with
    | none => exact .inr (.inr (.inl ⟨nofun, rfl, value, rfl⟩))
    | some a => exact .inr (.inl ⟨nofun, present found, value, rfl⟩)
  · rename_i value
    rw [edit_insertParsed hn]
    cases found : n.attribute? name with
    | none => exact .inr (.inr (.inl ⟨nofun, rfl, value, rfl⟩))
    | some a => exact .inr (.inl ⟨nofun, present found, value, rfl⟩)
  · rw [edit_removeAttribute hn]
    cases found : n.attribute? name with
    | none => exact .inl ⟨rfl, rfl⟩
    | some a => exact .inr (.inr (.inr ⟨rfl, present found, rfl⟩))
  · rename_i value
    rw [edit_writeAttribute hn]
    cases found : n.attribute? name with
    | none => exact .inl ⟨rfl, rfl⟩
    | some a => exact .inr (.inl ⟨nofun, present found, value, rfl⟩)

end

theorem valueAt_alter {f : Node → Node} (t : Tree) (id : NodeId) (named : ∀ n, (f n).id = n.id)
    (values : ∀ n, (f n).value = n.value) : (t.alter id f).valueAt = t.valueAt :=
  valueAt_congr (keeps_alter t id f fun n => Prod.ext (named n) (values n)).nodes

section
variable (attended : t.Attended) (nd : t.ids.Nodup) (fitted : ∀ n ∈ t.nodes, n.Fitted)
include attended nd fitted

theorem Attended.runs?_writeSlot (hn : n ∈ t.nodes) (name value : String) (existed : t.runs? v = some k) :
    (t.writeSlot n.id name value).runs? v =
      some (k + if n.value name = value then 0 else t.timesWatched v n.id name) := by
  rw [Tree.runs?_writeSlot (node?_of_mem nd hn), existed,
    attended.countP_watchers nd fitted hn name existed]
  rfl

theorem Attended.runs?_createAttribute (hn : n ∈ t.nodes) (absent : n.attribute? name = none)
    (value : String) (existed : t.runs? v = some k) :
    (t.createAttribute n.id name value).runs? v =
      some (k + if n.value name = value then 0 else t.timesWatched v n.id name) := by
  have written := attended.runs?_writeSlot nd fitted hn name value existed
  have names := map_node?_congr (names_writeSlot t n.id name value).nodes n.id
  rw [node?_of_mem nd hn] at names
  obtain ⟨m, hm, same⟩ := Option.map_eq_some_iff.mp names
  refine runs?_insertAttribute hm ?_ written
  rw [attribute?_eq_none] at absent ⊢
  rwa [same]

/-- Every validator but that of an attribute that is removed is evaluated as often as it looks at a
slot whose value is changed, and not at all when it is not. -/
theorem Attended.runs?_edit {e : Edit} {id : NodeId} (slot : e.slot? = some (id, name))
    (existed : t.runs? v = some k) :
    (t.edit e).runs? v = if e = .removeAttribute id name ∧ v = .value id name then none
      else some (k + if (t.edit e).valueAt (id, name) = t.valueAt (id, name) then 0
        else t.timesWatched v id name) := by
  cases hn : t.node? id with
  | none =>
    have apart : v ≠ .value id name := by
      rintro rfl
      rw [runs?, Validator.node, hn] at existed
      cases existed
    rw [edit_slot_of_none slot hn, if_neg fun gone => apart gone.2, if_pos rfl, existed]
    rfl
  | some n =>
    obtain ⟨there, rfl⟩ := node?_eq_some hn
    have held : t.valueAt (n.id, name) = n.value name := by
      rw [valueAt, hn]
      rfl
    have changed (value : String) : (if value = n.value name then 0 else t.timesWatched v n.id name) =
        if n.value name = value then 0 else t.timesWatched v n.id name := if_congr eq_comm rfl rfl
    rcases edit_slot_cases slot hn with ⟨same, absent⟩ | ⟨stays, -, value, made⟩ |
      ⟨stays, absent, value, made⟩ | ⟨removed, -, made⟩
    · have apart : v ≠ .value n.id name := by
        rintro rfl
        rw [runs?, Validator.node, hn, Option.bind_some, Node.runs?, absent] at existed
        cases existed
      rw [same, if_neg fun gone => apart gone.2, if_pos rfl, existed]
      rfl
    · rw [if_neg fun gone => stays gone.1, made, valueAt_writeSlot nd there, held, changed]
      exact attended.runs?_writeSlot nd fitted there name value existed
    · have values : (t.createAttribute n.id name value).valueAt =
          (t.writeSlot n.id name value).valueAt :=
        valueAt_alter _ n.id (fun _ => rfl) fun m => m.value_insertAttribute name
      rw [if_neg fun gone => stays gone.1, made, values, valueAt_writeSlot nd there, held, changed]
      exact attended.runs?_createAttribute nd fitted there absent value existed
    · have values : (((t.writeSlot n.id name "").alter n.id fun n => n.eraseAttribute name).touch).valueAt =
          (t.writeSlot n.id name "").valueAt :=
        valueAt_alter _ n.id (fun _ => rfl) fun m => m.value_eraseAttribute name
      rw [made, values, valueAt_writeSlot nd there, held, changed, runs?_touch, runs?_eraseAttribute,
        attended.runs?_writeSlot nd fitted there name "" existed]
      simp only [removed, true_and]

end

end Tree

end QueryMarkup
