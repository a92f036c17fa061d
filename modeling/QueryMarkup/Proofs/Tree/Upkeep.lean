import QueryMarkup.Proofs.Tree.Rewiring
import QueryMarkup.Proofs.Tree.Sound
import QueryMarkup.Proofs.Tree.Wiring

/-!
# Every edit keeps results current

Results do not depend on flags, levels or places in the text. The other changes of a
tree are writes, counts of children, and nodes and attributes that come or go.
-/
namespace QueryMarkup

/-- An attribute without its place in the text. -/
def Attribute.unplaced (a : Attribute) : Attribute := { a with span := none }

/-- A node without flags, its place in the tree and places in the text. -/
def Node.core (n : Node) : Node :=
  { n with
    level := 0, parent := none, expandable := false, expanded := false, visible := false
    attributes := n.attributes.map Attribute.unplaced, observers := 0, span := none }

namespace Node

section
variable {n : Node} {root : Slots}

theorem labelNow_core (n : Node) : n.core.labelNow = n.labelNow := by
  simp only [labelNow, core, List.filter_map, List.map_map]
  rfl

theorem markupNow_core (n : Node) : n.core.markupNow = n.markupNow := by
  simp only [markupNow, core, List.filter_map, List.map_map]
  rfl

theorem issuesNow_core (n : Node) : n.core.issuesNow = n.issuesNow := by
  simp only [issuesNow, core, List.flatMap_map]
  rfl

theorem fitted_core : n.core.Fitted ↔ n.Fitted := by
  have same : n.core.attributes.map (·.name) = n.attributes.map (·.name) := by
    simp only [core, List.map_map]
    rfl
  constructor
  · rintro ⟨rules, attributes, names, sorted⟩
    refine ⟨rules, fun a ha => attributes a.unplaced (List.mem_map_of_mem ha), same ▸ names, ?_⟩
    exact (List.pairwise_map (f := Attribute.unplaced)).mp sorted
  · rintro ⟨rules, attributes, names, sorted⟩
    refine ⟨rules, ?_, same.symm ▸ names, (List.pairwise_map (f := Attribute.unplaced)).mpr sorted⟩
    intro b hb
    obtain ⟨a, ha, rfl⟩ := List.mem_map.mp hb
    exact attributes a ha

theorem wired_core : n.core.Wired root ↔ n.Wired root := by
  constructor
  · rintro ⟨own, root, attributes, declared⟩
    exact ⟨own, root, fun a ha => attributes a.unplaced (List.mem_map_of_mem ha), declared⟩
  · rintro ⟨own, root, attributes, declared⟩
    refine ⟨own, root, ?_, declared⟩
    intro b hb
    obtain ⟨a, ha, rfl⟩ := List.mem_map.mp hb
    exact attributes a ha

theorem settled_core : n.core.Settled ↔ n.Settled := by
  constructor
  · rintro ⟨label, markup, validation⟩
    exact ⟨n.labelNow_core ▸ label, n.markupNow_core ▸ markup, n.issuesNow_core ▸ validation⟩
  · rintro ⟨label, markup, validation⟩
    refine ⟨?_, ?_, ?_⟩
    · rw [labelNow_core]
      exact label
    · rw [markupNow_core]
      exact markup
    · rw [issuesNow_core]
      exact validation

theorem freshBut_core {id : NodeId} {name aggregate : String} {ws : List Watcher} :
    n.core.FreshBut id name ws aggregate ↔ n.FreshBut id name ws aggregate := by
  constructor
  · rintro ⟨rules, display, check⟩
    exact ⟨rules, fun a ha => display a.unplaced (List.mem_map_of_mem ha),
      fun a ha => check a.unplaced (List.mem_map_of_mem ha)⟩
  · rintro ⟨rules, display, check⟩
    refine ⟨rules, ?_, ?_⟩
    · intro b hb
      obtain ⟨a, ha, rfl⟩ := List.mem_map.mp hb
      exact display a ha
    · intro b hb
      obtain ⟨a, ha, rfl⟩ := List.mem_map.mp hb
      exact check a ha

end

end Node

namespace Tree

section
variable {t t' : Tree}

/-- Results stay current under changes that show in no core. -/
theorem Current.of_keeps (h : t.Current) (k : Keeps Node.core t t') : t'.Current := by
  have slots : t'.rootSlots = t.rootSlots := by
    have roots := congrArg List.head? k.nodes
    rw [List.head?_map, List.head?_map] at roots
    have slots := congrArg (Option.map Node.slots) roots
    rw [Option.map_map, Option.map_map] at slots
    exact congrArg (fun s => Option.getD s Slots.empty) slots
  have node {m : Node} (hm : m ∈ t'.nodes) : ∃ n ∈ t.nodes, n.core = m.core := by
    have : m.core ∈ t.nodes.map Node.core := k.nodes ▸ List.mem_map_of_mem hm
    exact List.mem_map.mp this
  refine ⟨?_, ?_, ?_, ?_, by simp⟩
  · intro m hm
    obtain ⟨n, hn, e⟩ := node hm
    rw [← Node.fitted_core, ← e, Node.fitted_core]
    exact h.fitted n hn
  · intro m hm
    obtain ⟨n, hn, e⟩ := node hm
    rw [slots, ← Node.wired_core, ← e, Node.wired_core]
    exact h.wired n hn
  · intro m hm
    obtain ⟨n, hn, e⟩ := node hm
    rw [← Node.settled_core, ← e, Node.settled_core]
    exact h.settled n hn
  · intro m hm
    obtain ⟨n, hn, e⟩ := node hm
    rw [rootAggregate_eq, slots, ← rootAggregate_eq, ← Node.freshBut_core, ← e, Node.freshBut_core]
    exact h.fresh n hn

theorem Current.touch (h : t.Current) : t.touch.Current := CurrentBut.of_nodes h rfl

theorem Current.setSelection (h : t.Current) (selection : Option NodeId) :
    (t.setSelection selection).Current :=
  CurrentBut.of_nodes h (nodes_setSelection t selection)

theorem current_of_empty (h : t.nodes = []) : t.Current := by
  refine ⟨?_, ?_, ?_, ?_, by simp⟩ <;> rw [h] <;> intro n hn <;> cases hn

/-! ## Nodes that come -/

theorem plantRoot_current (empty : t.nodes = []) (kind : Kind) (tag : String) :
    (t.plantRoot kind tag).Current := by
  have aggregate : t.rootAggregate = "" := by
    rw [rootAggregate, root?, empty]
    rfl
  have newborn := t.fresh_newborn kind tag none
  have same : Tree.rootAggregate { t with
      nodes := [t.fresh kind tag none], issued := t.issued + 1 } = t.rootAggregate := by
    rw [aggregate, rootAggregate_eq]
    rfl
  refine wire_current List.mem_cons_self (same ▸ newborn) ?_ ?_
  · intro n hn _
    exact List.mem_singleton.mp hn
  · intro n hn hi
    exact absurd (congrArg Node.id (List.mem_singleton.mp hn)) hi

theorem adopt_current (h : t.Current) (nd : t.ids.Nodup) (parent : NodeId) (count : Nat) :
    (t.adopt parent count).Current := by
  have linked : Keeps Node.core t (t.alter parent fun n => { n with expandable := true }) :=
    keeps_alter t parent _ fun _ => rfl
  have ids := ids_alter t parent (fun n => { n with expandable := true }) fun _ => rfl
  have counted := setChildCount_current (h.of_keeps linked) (by rw [ids]; exact nd) parent count
  have opened := counted.of_keeps
    (keeps_alter _ parent (fun n => { n with expanded := true }) fun _ => rfl)
  exact opened.of_keeps (refreshVisibility_keeps (fun _ _ => rfl) _ _)

theorem rootSlots_placed {kind : Kind} {tag : String} {before after : List Node} {above : Node}
    (h : t.nodes = before ++ above :: after) :
    (t.placed kind tag before above after).rootSlots = t.rootSlots := by
  unfold rootSlots root?
  rw [h, placed]
  cases before <;> rfl

theorem insert_current {kind : Kind} {tag : String} {parent id : NodeId} (sound : t.Sound)
    (h : t.Current) (e : t.insert kind tag parent = .ok (t', id)) : t'.Current := by
  have sound' := insert_sound sound e
  obtain ⟨before, above, after, hs, -, rfl⟩ := insert_eq_ok e
  obtain ⟨-, kept⟩ := insert_keeps hs e
  obtain ⟨hn, -, -⟩ := splitAt_eq_some hs
  have slots := @rootSlots_placed t kind tag _ _ _ hn
  have aggregate : (t.placed kind tag before above after).rootAggregate = t.rootAggregate := by
    rw [rootAggregate_eq, rootAggregate_eq, slots]
  have old {n : Node} (hm : n ∈ t.nodes) : n.id ≠ (t.fresh kind tag (some above)).id :=
    fun e => sound.issued_not_mem (List.mem_map.mpr ⟨n, hm, e⟩)
  have wired : ((t.placed kind tag before above after).wire
      (t.fresh kind tag (some above))).Current := by
    refine wire_current ((mem_placed hn).mpr (.inl rfl)) ?_ ?_ ?_
    · rw [aggregate]
      exact t.fresh_newborn kind tag (some above)
    · intro n hm hi
      rcases (mem_placed hn).mp hm with e | hm
      · exact e
      · exact absurd hi (old hm)
    · intro n hm hi
      rcases (mem_placed hn).mp hm with e | hm
      · exact absurd (congrArg Node.id e) hi
      · rw [slots, aggregate]
        exact ⟨h.fitted n hm, h.wired n hm, h.settled n hm, h.fresh n hm⟩
  refine (adopt_current wired ?_ _ _).touch
  have nd := sound'.nodup
  rw [kept.ids_of_entry] at nd
  rw [(wire_keeps _ _).entry.ids_of_entry]
  exact nd

theorem clear_current (t : Tree) : t.clear.Current := current_of_empty t.nodes_clear

/-! ## Nodes that go -/

theorem remove_current {id : NodeId} (sound : t.Sound) (h : t.Current)
    (e : t.remove id = .ok t') : t'.Current := by
  obtain ⟨before, last, n, after, parent, hs, hp, rfl⟩ := remove_eq_ok e
  obtain ⟨hn, rfl, first⟩ := splitAt_eq_some hs
  generalize ((after.drop (runOf n.level after).length).head?.map fun m =>
    decide (last.level < m.level)).getD false = deeper
  have linked : Keeps Node.core t (t.alter last.id fun n => { n with expandable := deeper }) :=
    keeps_alter t last.id _ fun _ => rfl
  have ids := ids_alter t last.id (fun n => { n with expandable := deeper }) fun _ => rfl
  have counted := setChildCount_current (h.of_keeps linked) (by rw [ids]; exact sound.nodup) parent
    (((t.node? parent).map (·.childCount)).getD 0 - 1)
  refine Current.touch ((forget_cut_current counted fun r hr hg => ?_).setSelection _)
  -- the root stands before the removed node and so is not among those that go
  have names : ((t.alter last.id fun n => { n with expandable := deeper }).setChildCount parent
      (((t.node? parent).map (·.childCount)).getD 0 - 1)).ids = t.ids :=
    (setChildCount_keeps_entry _ _ _).ids_of_entry.trans ids
  have nd := sound.nodup
  have head : t.ids.head? = some r.id := by
    rw [← names, Tree.ids, List.head?_map]
    exact congrArg (Option.map _) hr
  rw [Tree.ids, hn] at head nd
  have behind : r.id ∈ (n :: after).map (·.id) := by
    rcases List.mem_cons.mp hg with e | hg
    · exact e ▸ List.mem_cons_self
    · refine List.mem_cons_of_mem _ ?_
      obtain ⟨m, hm, e⟩ := List.mem_map.mp hg
      exact e ▸ List.mem_map_of_mem (List.takeWhile_subset _ hm)
  have ahead : r.id ∈ (before ++ [last]).map (·.id) := by
    cases before with
    | nil =>
      have e : last.id = r.id := Option.some.inj head
      simp [e]
    | cons b before =>
      have e : b.id = r.id := Option.some.inj head
      simp [e]
  rw [List.map_append, List.nodup_append] at nd
  exact nd.2.2 _ ahead _ behind rfl

theorem flip_current (h : t.Current) (id : NodeId) : (t.flip id).Current :=
  h.of_keeps (flip_keeps (fun _ _ _ => rfl) t id)

/-! ## Attributes -/

theorem attribute?_eq_none {n : Node} {name : String} :
    n.attribute? name = none ↔ name ∉ n.attributes.map (·.name) := by
  simp [Node.attribute?]

/-- A write leaves every node the attributes that it has. -/
theorem names_writeSlot (t : Tree) (id : NodeId) (name value : String) :
    Keeps (fun n => (n.id, n.attributes.map (·.name))) t (t.writeSlot id name value) := by
  refine writeSlot_keeps (fun n => ?_) (fun _ _ _ => rfl) t id name value
  simp only [Node.fixture, Node.unchecked, List.map_map]
  rfl

theorem createAttribute_current {n : Node} {id : NodeId} {name value : String} (sound : t.Sound)
    (h : t.Current) (hn : t.node? id = some n) (absent : n.attribute? name = none) :
    (t.createAttribute id name value).Current := by
  refine Current.touch (insertAttribute_current (writeSlot_current h sound.nodup id name value) ?_)
  intro m hm hi
  have hm' := List.mem_map_of_mem (f := fun n : Node => (n.id, n.attributes.map (·.name))) hm
  rw [(names_writeSlot t id name value).nodes] at hm'
  obtain ⟨k, hk, e⟩ := List.mem_map.mp hm'
  have found := node?_of_mem sound.nodup hk
  rw [(Prod.mk.inj e).1, hi, hn] at found
  rw [← (Prod.mk.inj e).2, ← Option.some.inj found]
  exact attribute?_eq_none.mp absent

theorem discard_current (sound : t.Sound) (h : t.Current) (id : NodeId) (name : String) :
    ((t.writeSlot id name "").alter id fun n => n.eraseAttribute name).Current :=
  eraseAttribute_current (writeSlot_current h sound.nodup id name "")

theorem resolve_current {number : Nat} {verdict : Verdict} {late : Bool} (h : t.Current)
    (e : t.resolve number verdict = some (t', late)) : t'.Current := by
  obtain ⟨desk, request, -, -, -, rfl⟩ := resolve_eq_some e
  split
  · exact CurrentBut.desk h _
  · exact answerCheck_current (CurrentBut.desk h _) _ _

/-- Every change of a sound tree keeps all results current. -/
theorem Change.current (c : Change t t') (sound : t.Sound) (h : t.Current) : t'.Current := by
  cases c with
  | touch => exact h.touch
  | clear => exact clear_current t
  | plant kind tag empty => exact plantRoot_current empty kind tag
  | insert e => exact insert_current sound h e
  | remove e => exact remove_current sound h e
  | flip _ => exact flip_current h _
  | select _ => exact h.setSelection _
  | write id name value => exact writeSlot_current h sound.nodup id name value
  | create value hn absent => exact createAttribute_current sound h hn absent
  | discard id name => exact discard_current sound h id name
  | resolve e => exact resolve_current h e

end

end Tree

end QueryMarkup
