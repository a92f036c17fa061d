import QueryMarkup.Proofs.Tree.Departure
import QueryMarkup.Proofs.Tree.Lookup
import QueryMarkup.Proofs.Tree.Schemaless

/-!
# Who listens to a slot

Where there is no schema, the watchers of a slot are those that the rules of the nodes place
there, and those of the slot's own attribute. So who is told of a change follows from the nodes
that are in the tree now, and not from what was added and removed before.
-/
namespace QueryMarkup

/-- The watchers of a list that go into one slot of one node. -/
def watchersAt (id : NodeId) (name : String) (entries : List (NodeId × String × Watcher)) :
    List Watcher :=
  (entries.filter fun e => decide (e.1 = id) && decide (e.2.1 = name)).map (·.2.2)

/-- What the attribute of a name, if there is one, watches of its own slot. -/
def Node.ownWatchers (n : Node) (name : String) : List Watcher :=
  ((n.attribute? name).map (·.watchers)).getD []

/-- The id and the kind of a node, what the attribute of each name watches of its own slot, and the
watchers of the slot of each name. -/
structure SlotWatchers where
  id : NodeId
  kind : Kind
  own : String → List Watcher
  watchers : String → List Watcher

def Node.slotWatchers (n : Node) : SlotWatchers where
  id := n.id
  kind := n.kind
  own := n.ownWatchers
  watchers name := (n.slots.get name).watchers

namespace SlotWatchers

/-- The name of the first node. -/
def rootOf (all : List SlotWatchers) : Option NodeId := all.head?.map (·.id)

/-- What the rules of a node watch in the tree of this root. -/
def places (root : Option NodeId) (h : SlotWatchers) : List (NodeId × String × Watcher) :=
  Tree.ruleWatches h.id (root.getD h.id) h.kind

/-- The watchers that the rules of the nodes place in a slot of one of them. -/
def ruled (root : Option NodeId) (all : List SlotWatchers) (id : NodeId) (name : String) : List Watcher :=
  all.flatMap fun h => watchersAt id name (h.places root)

/-- Every slot is watched by the rules that look at it and by its own attribute, and by nobody
else. -/
def Attended (all : List SlotWatchers) : Prop :=
  ∀ h ∈ all, ∀ name, (h.watchers name).Perm (ruled (rootOf all) all h.id name ++ h.own name)

/-- A node that more watchers listen to. -/
def watchAll (entries : List (NodeId × String × Watcher)) (h : SlotWatchers) : SlotWatchers :=
  { h with watchers := fun name => h.watchers name ++ watchersAt h.id name entries }

/-- A node that some others no longer listen to. -/
def forget (gone : List NodeId) (h : SlotWatchers) : SlotWatchers :=
  { h with watchers := fun name => (h.watchers name).filter fun w => !w.servesAny gone }

end SlotWatchers

/-! ## The watchers of a node -/

namespace Node

theorem slotWatchers_setSlot (n : Node) (name value : String) :
    (n.setSlot name value).slotWatchers = n.slotWatchers := by
  unfold slotWatchers
  rw [funext (n.watchers_setSlot name value)]
  rfl

theorem ownWatchers_fixture (n : Node) : n.fixture.ownWatchers = n.ownWatchers := by
  funext name
  have found := n.unchecked.attribute?_map (f := Attribute.fixture) (fun _ => rfl) name
  change n.fixture.attribute? name = (n.attribute? name).map Attribute.fixture at found
  rw [ownWatchers, found, Option.map_map]
  rfl

theorem slotWatchers_fixture (n : Node) : n.fixture.slotWatchers = n.slotWatchers := by
  unfold slotWatchers
  rw [ownWatchers_fixture]
  rfl

theorem slotWatchers_setAttributeSpan (n : Node) (name : String) (span : Option Text.Range) :
    (n.alterAttribute name fun a => { a with span }).slotWatchers = n.slotWatchers := by
  have own : (n.alterAttribute name fun a => { a with span }).ownWatchers = n.ownWatchers := by
    funext x
    have found := n.attribute?_alterAttribute name (f := fun a => { a with span }) (fun _ => rfl) x
    rw [ownWatchers, found, Option.map_map, ownWatchers]
    refine congrArg (Option.getD · []) (Option.map_congr fun a _ => ?_)
    rw [Function.comp_apply]
    split <;> rfl
  unfold slotWatchers
  rw [own]
  rfl

theorem slotWatchers_forget (n : Node) (gone : List NodeId) :
    Node.slotWatchers { n with slots := n.slots.forget gone } = n.slotWatchers.forget gone := by
  unfold slotWatchers SlotWatchers.forget
  simp only [Slots.get_forget]
  rfl

theorem watchers_watchAll (entries : List (NodeId × String × Watcher)) (n : Node) (name : String) :
    ((n.watchAll entries).slots.get name).watchers =
      (n.slots.get name).watchers ++ watchersAt n.id name entries := by
  induction entries generalizing n with
  | nil => exact (List.append_nil _).symm
  | cons e entries ih =>
    obtain ⟨id, x, w⟩ := e
    unfold watchAll
    rw [ih]
    by_cases here : n.id = id
    · rw [if_pos here, watchersAt, watchersAt]
      dsimp only
      rw [Slots.get_watch]
      by_cases named : x = name
      · simp [named, here]
      · simp [named]
    · rw [if_neg here]
      simp [watchersAt, Ne.symm here]

theorem slotWatchers_watchAll (entries : List (NodeId × String × Watcher)) (n : Node) :
    (n.watchAll entries).slotWatchers = n.slotWatchers.watchAll entries := by
  have watchers := watchers_watchAll entries n
  obtain ⟨slots, e, -, -⟩ := watchAll_eq entries n
  rw [e] at watchers ⊢
  unfold slotWatchers SlotWatchers.watchAll
  dsimp only
  simp only [watchers]
  rfl

end Node

/-! ## What changes keep -/

theorem rule_of_mem_watchersAt {id root : NodeId} {owner : NodeId} {kind : Kind} {name : String}
    {w : Watcher} (h : w ∈ watchersAt id name (Tree.ruleWatches owner root kind)) :
    ∃ index, w = .rule owner index := by
  obtain ⟨⟨i, x, v⟩, he, rfl⟩ := List.mem_map.mp h
  obtain ⟨index, -, -, rfl, -⟩ := Tree.mem_ruleWatches.mp (List.mem_filter.mp he).1
  exact ⟨index, rfl⟩

/-- A node that is not the root is watched by its own rules only. -/
theorem watchersAt_eq_nil {id root owner : NodeId} (kind : Kind) (name : String) (other : owner ≠ id)
    (inner : root ≠ id) : watchersAt id name (Tree.ruleWatches owner root kind) = [] := by
  refine List.map_eq_nil_iff.mpr (List.filter_eq_nil_iff.mpr ?_)
  rintro ⟨i, x, w⟩ he placed
  have here : i = id := (by simpa using placed : i = id ∧ x = name).1
  obtain ⟨-, -, -, -, ⟨-, rfl⟩ | ⟨-, rfl⟩⟩ := Tree.mem_ruleWatches.mp he
  · exact other here
  · exact inner here

namespace SlotWatchers

variable {all before after : List SlotWatchers} {x : SlotWatchers} {root : Option NodeId}

/-- The watchers that rules place are rules. -/
theorem rule_of_mem_ruled {id : NodeId} {name : String} {w : Watcher} (h : w ∈ ruled root all id name) :
    ∃ owner index, w = .rule owner index := by
  obtain ⟨m, -, hm⟩ := List.mem_flatMap.mp h
  exact ⟨m.id, rule_of_mem_watchersAt hm⟩

theorem rootOf_congr {all' : List SlotWatchers}
    (same : all'.map (fun h => (h.id, h.kind)) = all.map fun h => (h.id, h.kind)) :
    rootOf all' = rootOf all := by
  have first := congrArg (fun l => l.head?.map Prod.fst) same
  simp only [List.head?_map, Option.map_map] at first
  exact first

/-- What the rules watch depends on names and kinds only. -/
theorem ruled_congr {all' : List SlotWatchers} (root : Option NodeId)
    (same : all'.map (fun h => (h.id, h.kind)) = all.map fun h => (h.id, h.kind)) :
    ruled root all' = ruled root all := by
  funext id name
  have placed (all : List SlotWatchers) :
      ruled root all id name = (all.map fun h => (h.id, h.kind)).flatMap
      fun h => watchersAt id name (Tree.ruleWatches h.1 (root.getD h.1) h.2) := by
    rw [List.flatMap_map]
    rfl
  rw [placed, placed, same]

/-- As long as no node comes or goes, only what each node hears matters. -/
theorem Attended.of_same {all' : List SlotWatchers} (h : Attended all)
    (same : all'.map (fun h => (h.id, h.kind)) = all.map fun h => (h.id, h.kind))
    (heard : ∀ m' ∈ all', ∃ m ∈ all, m'.id = m.id ∧ ∀ (name : String) (rules : List Watcher),
      (∀ w ∈ rules, ∃ owner index, w = .rule owner index) →
      (m.watchers name).Perm (rules ++ m.own name) → (m'.watchers name).Perm (rules ++ m'.own name)) :
    Attended all' := by
  intro m' hm' name
  obtain ⟨m, hm, named, heard⟩ := heard m' hm'
  rw [rootOf_congr same, ruled_congr _ same, named]
  exact heard name _ (fun w hw => rule_of_mem_ruled hw) (h m hm name)

theorem ruled_middle (root : Option NodeId) (before after : List SlotWatchers) (x : SlotWatchers)
    (id : NodeId)
    (name : String) : (ruled root (before ++ x :: after) id name).Perm
      (watchersAt id name (x.places root) ++ ruled root (before ++ after) id name) :=
  List.Perm.flatMap_right _ List.perm_middle

/-- A node that is not the root is listened to by its own rules only. -/
theorem ruled_eq_nil {id : NodeId} (name : String) (others : ∀ h ∈ all, h.id ≠ id)
    (inner : ∀ r ∈ root, r ≠ id) : ruled root all id name = [] := by
  refine List.flatMap_eq_nil_iff.mpr fun h hh => ?_
  refine watchersAt_eq_nil h.kind name (others h hh) ?_
  cases root with
  | none => exact others h hh
  | some r => exact inner r rfl

/-- Where some nodes are gone, the rules that are left are those of the others. -/
theorem filter_ruled (root : Option NodeId) (gone : List NodeId) (all : List SlotWatchers) (id : NodeId)
    (name : String) : (ruled root all id name).filter (fun w => !w.servesAny gone) =
      ruled root (all.filter fun h => !gone.contains h.id) id name := by
  induction all with
  | nil => rfl
  | cons h all ih =>
    have cut (all : List SlotWatchers) : ruled root (h :: all) id name =
      watchersAt id name (h.places root) ++ ruled root all id name := List.flatMap_cons
    have serves : ∀ w ∈ watchersAt id name (h.places root), w.servesAny gone = gone.contains h.id := by
      intro w hw
      obtain ⟨index, rfl⟩ := rule_of_mem_watchersAt hw
      rfl
    rw [cut, List.filter_append, ih, List.filter_cons]
    by_cases hg : gone.contains h.id = true
    · rw [List.filter_eq_nil_iff.mpr fun w hw => by rw [serves w hw, hg]; simp, hg]
      rfl
    · rw [Bool.not_eq_true] at hg
      rw [List.filter_eq_self.mpr fun w hw => by rw [serves w hw, hg]; rfl, hg]
      exact (cut _).symm

/-- A new node without attributes is listened to by its own rules as soon as these are placed,
and its rules listen to the others. Only in an empty tree it comes first. -/
theorem Attended.join (h : Attended (before ++ after)) (fresh : ∀ m ∈ before ++ after, m.id ≠ x.id)
    (silent : ∀ name, x.watchers name = []) (bare : ∀ name, x.own name = [])
    (first : before = [] → after = []) :
    Attended ((before ++ x :: after).map
      (watchAll (x.places (rootOf (before ++ x :: after))))) := by
  rintro _ mem name
  obtain ⟨m, hm, rfl⟩ := List.mem_map.mp mem
  have audience := ruled_middle (rootOf (before ++ x :: after)) before after x m.id name
  have same : ((before ++ x :: after).map (watchAll (x.places (rootOf (before ++ x :: after))))).map
      (fun h => (h.id, h.kind)) = (before ++ x :: after).map fun h => (h.id, h.kind) := List.map_map ..
  rw [rootOf_congr same, ruled_congr _ same]
  change (m.watchers name ++ watchersAt m.id name _).Perm (ruled _ _ m.id name ++ m.own name)
  rcases List.mem_cons.mp (List.perm_middle.mem_iff.mp hm) with rfl | hm
  · have none : ruled (rootOf (before ++ m :: after)) (before ++ after) m.id name = [] := by
      cases before with
      | nil =>
        rw [first rfl]
        rfl
      | cons b before =>
        refine ruled_eq_nil name fresh fun r hr => ?_
        cases hr
        exact fresh b List.mem_cons_self
    rw [none, List.append_nil] at audience
    rw [silent, bare, List.nil_append, List.append_nil]
    exact audience.symm
  · have old : rootOf (before ++ x :: after) = rootOf (before ++ after) := by
      cases before with
      | nil =>
        rw [first rfl] at hm
        cases hm
      | cons b before => rfl
    rw [old] at audience ⊢
    have heard := (h m hm name).append_left (watchersAt m.id name (x.places (rootOf (before ++ after))))
    rw [← List.append_assoc] at heard
    exact List.perm_append_comm.trans (heard.trans (audience.symm.append_right _))

theorem marks_forget (gone : List NodeId) (all : List SlotWatchers) :
    (all.map (forget gone)).map (fun h => (h.id, h.kind)) = all.map fun h => (h.id, h.kind) :=
  List.map_map ..

theorem rootOf_forget (gone : List NodeId) (all : List SlotWatchers) :
    rootOf (all.map (forget gone)) = rootOf all :=
  rootOf_congr (marks_forget gone all)

/-- Nodes other than the root may go, together with all that their rules watch. -/
theorem Attended.leave {gone : List NodeId} (h : Attended all)
    (own : ∀ m ∈ all, ∀ name, ∀ w ∈ m.own name, w.servesAny gone = false)
    (root : rootOf (all.filter fun m => !gone.contains m.id) = rootOf all) :
    Attended ((all.filter fun m => !gone.contains m.id).map (forget gone)) := by
  rintro _ mem name
  obtain ⟨m, hm, rfl⟩ := List.mem_map.mp mem
  have hm := (List.mem_filter.mp hm).1
  have stays : (m.own name).filter (fun w => !w.servesAny gone) = m.own name :=
    List.filter_eq_self.mpr fun w hw => by rw [own m hm name w hw]; rfl
  have kept := (h m hm name).filter fun w => !w.servesAny gone
  rw [List.filter_append, filter_ruled, stays] at kept
  rw [rootOf_forget, ruled_congr _ (marks_forget gone _), root]
  exact kept

end SlotWatchers

/-! ## Trees -/

namespace Node

variable {n : Node} {name : String}

/-- An attribute listens to its own slot only. -/
theorem mem_ownWatchers {w : Watcher} (h : w ∈ n.ownWatchers name) : w = .display ∨ w = .valueCheck := by
  unfold ownWatchers at h
  cases found : n.attribute? name with
  | none =>
    rw [found] at h
    cases h
  | some a =>
    rw [found] at h
    change w ∈ a.watchers at h
    unfold Attribute.watchers at h
    split at h
    · exact .inl (List.mem_singleton.mp h)
    · simpa using h

end Node

namespace Tree

variable {t t' : Tree}

def slotWatchers (t : Tree) : List SlotWatchers := t.nodes.map Node.slotWatchers

/-- Every slot in the tree is watched by the rules that look at it and by its own attribute. -/
def Attended (t : Tree) : Prop := SlotWatchers.Attended t.slotWatchers

theorem Attended.congr (h : t.Attended) (same : t'.slotWatchers = t.slotWatchers) : t'.Attended := by
  unfold Attended
  rw [same]
  exact h

theorem Attended.of_keeps (h : t.Attended) (kept : Keeps Node.slotWatchers t t') : t'.Attended :=
  h.congr kept.nodes

theorem Attended.setSelection (h : t.Attended) (selection : Option NodeId) :
    (t.setSelection selection).Attended :=
  h.congr (congrArg (List.map Node.slotWatchers) (nodes_setSelection t selection))

theorem writeSlot_attended (h : t.Attended) (id : NodeId) (name value : String) :
    (t.writeSlot id name value).Attended :=
  h.of_keeps (writeSlot_keeps Node.slotWatchers_fixture Node.slotWatchers_setSlot t id name value)

/-- A change of what one node hears by its own attributes. -/
theorem Attended.alter {id : NodeId} {f : Node → Node} (h : t.Attended)
    (named : ∀ n, (f n).id = n.id) (kinds : ∀ n, (f n).kind = n.kind)
    (heard : ∀ n ∈ t.nodes, n.id = id → ∀ (name : String) (rules : List Watcher),
      (∀ w ∈ rules, ∃ owner index, w = .rule owner index) →
      (n.slots.get name).watchers.Perm (rules ++ n.ownWatchers name) →
      ((f n).slots.get name).watchers.Perm (rules ++ (f n).ownWatchers name)) :
    (t.alter id f).Attended := by
  refine SlotWatchers.Attended.of_same h ?_ fun m' hm' => ?_
  · have kept : Keeps (fun n => (n.id, n.kind)) t (t.alter id f) :=
      keeps_alter t id f fun n => Prod.ext (named n) (kinds n)
    unfold slotWatchers
    rw [List.map_map, List.map_map]
    exact kept.nodes
  · obtain ⟨n', hn', rfl⟩ := List.mem_map.mp hm'
    obtain ⟨n, hn, ⟨here, rfl⟩ | ⟨-, rfl⟩⟩ := mem_alter hn'
    · exact ⟨n.slotWatchers, List.mem_map_of_mem hn, named n, heard n hn here⟩
    · exact ⟨n'.slotWatchers, List.mem_map_of_mem hn, rfl, fun _ _ _ same => same⟩

/-- A new attribute listens to its slot. -/
theorem insertAttribute_attended {id : NodeId} {name : String} (h : t.Attended)
    (absent : ∀ n ∈ t.nodes, n.id = id → n.attribute? name = none) :
    (t.alter id fun n => n.insertAttribute name).Attended := by
  refine h.alter (fun _ => rfl) (fun _ => rfl) fun n hn here x rules _ heard => ?_
  have none := absent n hn here
  rw [n.watchers_insertAttribute, Node.ownWatchers, Node.attribute?_insertAttribute none]
  by_cases same : name = x
  · subst same
    rw [Node.ownWatchers, none] at heard
    rw [if_pos rfl, if_pos rfl]
    simpa using heard.append_right (Attribute.create n.kind name (n.value name)).watchers
  · rw [if_neg same, if_neg same, List.append_nil]
    exact heard

/-- An attribute that is taken away no longer listens. -/
theorem eraseAttribute_attended (h : t.Attended) (id : NodeId) (name : String) :
    (t.alter id fun n => n.eraseAttribute name).Attended := by
  refine h.alter (fun _ => rfl) (fun _ => rfl) fun n _ _ x rules plain heard => ?_
  have erased : ((n.eraseAttribute name).slots.get x).watchers =
      if name = x then (n.slots.get name).release.watchers else (n.slots.get x).watchers := by
    have slots := Slots.get_alter n.slots name Slot.release (fun _ => rfl) x
    change ((n.slots.alter name Slot.release).get x).watchers = _
    rw [slots]
    split <;> rfl
  rw [erased, Node.ownWatchers, Node.attribute?_eraseAttribute]
  by_cases same : name = x
  · subst same
    rw [if_pos rfl, if_pos rfl]
    have left := heard.filter fun w => w != .display && w != .valueCheck
    have rules_stay : rules.filter (fun w => w != .display && w != .valueCheck) = rules := by
      refine List.filter_eq_self.mpr fun w hw => ?_
      obtain ⟨owner, index, rfl⟩ := plain w hw
      rfl
    have own_goes : (n.ownWatchers name).filter (fun w => w != .display && w != .valueCheck) = [] := by
      refine List.filter_eq_nil_iff.mpr fun w hw => ?_
      rcases Node.mem_ownWatchers hw with rfl | rfl <;> decide
    rw [List.filter_append, rules_stay, own_goes] at left
    exact left
  · rw [if_neg same, if_neg same]
    exact heard

theorem discard_attended (h : t.Attended) (id : NodeId) (name : String) :
    ((t.writeSlot id name "").alter id fun n => n.eraseAttribute name).Attended :=
  eraseAttribute_attended (writeSlot_attended h id name "") id name

theorem createAttribute_attended {n : Node} {id : NodeId} {name : String} (nd : t.ids.Nodup)
    (h : t.Attended) (value : String) (found : t.node? id = some n) (absent : n.attribute? name = none) :
    (t.createAttribute id name value).Attended := by
  refine Attended.of_keeps (insertAttribute_attended (writeSlot_attended h id name value) ?_)
    (keeps_touch _ _)
  intro m hm here
  have kept := List.mem_map_of_mem (f := fun n : Node => (n.id, n.attributes.map (·.name))) hm
  rw [(names_writeSlot t id name value).nodes] at kept
  obtain ⟨k, hk, same⟩ := List.mem_map.mp kept
  obtain ⟨ids, names⟩ := Prod.mk.inj same
  have there := node?_of_mem nd hk
  rw [ids, here, found] at there
  rw [attribute?_eq_none, ← names, ← Option.some.inj there]
  exact attribute?_eq_none.mp absent

theorem rootOf_slotWatchers (t : Tree) : SlotWatchers.rootOf t.slotWatchers = t.ids.head? := by
  rw [SlotWatchers.rootOf, slotWatchers, ids, List.head?_map, List.head?_map, Option.map_map]
  rfl

/-- Without a schema check only the rules of a new node place watchers. -/
theorem slotWatchers_wire {x : Node} (schema : x.schema = none) :
    (t.wire x).slotWatchers = t.slotWatchers.map
      (SlotWatchers.watchAll (x.slotWatchers.places (SlotWatchers.rootOf t.slotWatchers))) := by
  have root : t.root?.map (·.id) = SlotWatchers.rootOf t.slotWatchers := by
    rw [rootOf_slotWatchers, ids, List.head?_map]
    rfl
  unfold wire
  dsimp only
  rw [schema, root]
  have nodes := nodes_foldl_watchSlot t
    (ruleWatches x.id ((SlotWatchers.rootOf t.slotWatchers).getD x.id) x.kind)
  refine (congrArg (List.map Node.slotWatchers) nodes).trans ?_
  rw [slotWatchers, List.map_map, List.map_map]
  exact List.map_congr_left fun n _ => n.slotWatchers_watchAll _

/-- A new node that has its watchers placed is listened to by its own rules only. -/
theorem wire_attended (before after : List Node) {x : Node} (nodes : t.nodes = before ++ x :: after)
    (h : SlotWatchers.Attended ((before ++ after).map Node.slotWatchers))
    (fresh : ∀ n ∈ before ++ after, n.id ≠ x.id) (schema : x.schema = none) (slots : x.slots = .empty)
    (attributes : x.attributes = []) (first : before = [] → after = []) : (t.wire x).Attended := by
  have all : t.slotWatchers =
      before.map Node.slotWatchers ++ x.slotWatchers :: after.map Node.slotWatchers := by
    rw [slotWatchers, nodes, List.map_append, List.map_cons]
  unfold Attended
  rw [slotWatchers_wire schema, all]
  rw [List.map_append] at h
  refine h.join ?_ ?_ ?_ fun none => by rw [first (List.map_eq_nil_iff.mp none), List.map_nil]
  · rw [← List.map_append]
    intro m hm
    obtain ⟨n, hn, rfl⟩ := List.mem_map.mp hm
    exact fresh n hn
  · intro name
    change (x.slots.get name).watchers = []
    rw [slots, Slots.watchers_empty]
  · intro name
    change ((x.attributes.find? _).map _).getD [] = []
    rw [attributes]
    rfl

theorem plantRoot_attended (schemaless : t.Schemaless) (kind : Kind) (tag : String) :
    (t.plantRoot kind tag).Attended :=
  wire_attended [] [] rfl (fun _ hm => absurd hm List.not_mem_nil)
    (fun _ hn => absurd hn List.not_mem_nil) (schema_fresh schemaless kind tag none) rfl rfl fun _ => rfl

theorem insert_attended {kind : Kind} {tag : String} {parent id : NodeId} (sound : t.Sound)
    (schemaless : t.Schemaless) (h : t.Attended) (e : t.insert kind tag parent = .ok (t', id)) :
    t'.Attended := by
  obtain ⟨before, above, after, cut, -, rfl⟩ := insert_eq_ok e
  have nodes := (splitAt_eq_some cut).1
  have passed : before ++ above :: after.takeWhile (passes (above.level + 1) kind.rank) ++
      after.dropWhile (passes (above.level + 1) kind.rank) = t.nodes := by
    rw [List.append_assoc, List.cons_append, List.takeWhile_append_dropWhile, nodes]
  have wired : ((t.placed kind tag before above after).wire
      (t.fresh kind tag (some above))).Attended := by
    refine wire_attended (before ++ above :: after.takeWhile (passes (above.level + 1) kind.rank))
      (after.dropWhile (passes (above.level + 1) kind.rank)) (by simp [placed]) ?_ ?_
        (schema_fresh schemaless kind tag _) rfl rfl (by simp)
    · rw [passed]
      exact h
    · rw [passed]
      exact fun n hn same => sound.issued_not_mem (List.mem_map.mpr ⟨n, hn, same⟩)
  exact (wired.of_keeps (adopt_keeps_of (fun _ _ _ => rfl) (fun _ _ _ _ _ => rfl) _ parent _)).of_keeps
    (keeps_touch _ _)

/-- The first node stays the first when another goes. -/
theorem head?_ids_remove {id : NodeId} (nd : t.ids.Nodup) (e : t.remove id = .ok t') :
    t'.ids.head? = t.ids.head? := by
  obtain ⟨before, last, n, run, rest, parent, shapes, -, -, -, -, shapes', -⟩ := shapes_remove nd e
  have same (s : Shape) (deeper : Bool) : (s.bereave last.id parent deeper).id = s.id := by
    unfold Shape.bereave
    split <;> split <;> rfl
  rw [ids_eq_shapes, ids_eq_shapes, shapes, shapes']
  cases before with
  | nil => exact congrArg some (same last _)
  | cons b before => exact congrArg some (same b _)

theorem remove_attended {id : NodeId} (sound : t.Sound) (h : t.Attended) (e : t.remove id = .ok t') :
    t'.Attended := by
  have left : t'.slotWatchers = (t.slotWatchers.filter fun h => !(t.goneWith id).contains h.id).map _ :=
    map_remove SlotWatchers.id SlotWatchers.forget (fun _ => rfl)
      (fun n gone => n.slotWatchers_forget gone)
      (fun _ _ _ => rfl) (fun _ _ _ => rfl) e
  have root := head?_ids_remove sound.nodup e
  rw [← rootOf_slotWatchers, ← rootOf_slotWatchers, left, SlotWatchers.rootOf_forget] at root
  unfold Attended
  rw [left]
  refine SlotWatchers.Attended.leave h ?_ root
  intro m hm name w hw
  obtain ⟨n, hn, rfl⟩ := List.mem_map.mp hm
  rcases Node.mem_ownWatchers hw with rfl | rfl <;> rfl

/-- No change leaves a watcher behind or forgets to place one. -/
theorem Change.attended (c : Change t t') (sound : t.Sound) (schemaless : t.Schemaless)
    (h : t.Attended) : t'.Attended := by
  cases c with
  | touch => exact h
  | clear =>
    unfold Attended slotWatchers
    rw [nodes_clear]
    exact fun _ hm => absurd hm List.not_mem_nil
  | plant kind tag empty => exact plantRoot_attended schemaless kind tag
  | insert e => exact insert_attended sound schemaless h e
  | remove e => exact remove_attended sound h e
  | flip _ => exact h.of_keeps (flip_keeps (fun _ _ _ => rfl) t _)
  | select _ => exact h.setSelection _
  | write id name value => exact writeSlot_attended h id name value
  | create value found absent => exact createAttribute_attended sound.nodup h value found absent
  | discard id name => exact discard_attended h id name
  | resolve e =>
    unfold Tree.resolve at e
    rw [schemaless.desk] at e
    cases e

end Tree

end QueryMarkup
