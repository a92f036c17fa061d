import QueryMarkup.Proofs.Tree.Docket
import QueryMarkup.Proofs.Tree.Sound
import QueryMarkup.Proofs.Tree.Wiring

/-!
# Who is told of which names

A schema check is told of the slots in its docket and of no others. A table is named by the
node itself or by one above it, so it is there as long as the node is.
-/
namespace QueryMarkup

namespace Wiring

/-- A node when watchers have been placed in its slots. -/
def watchAll (entries : List (NodeId × String × Watcher)) (s : Wiring) : Wiring :=
  { s with
    tells := fun name owner => s.tells name owner ∨ (s.id, name, .schema owner) ∈ entries }

/-- A node when a schema check has been let in on its slots. -/
def enlist (x : Docket) (s : Wiring) : Wiring :=
  { s with
    tells := fun name owner => s.tells name owner ∨ (x.owner = owner ∧ (s.id, name) ∈ x.watches) }

theorem watchAll_of_not_mem {entries : List (NodeId × String × Watcher)}
    (none : ∀ id name owner, (id, name, .schema owner) ∉ entries) (s : Wiring) :
    s.watchAll entries = s := by
  simp [watchAll, none]

theorem watchAll_schema (x : Docket) (s : Wiring) :
    s.watchAll (x.watches.map fun e => (e.1, e.2, .schema x.owner)) = s.enlist x := by
  simp only [watchAll, enlist, mk.injEq, true_and]
  funext name owner
  refine propext (or_congr_right ?_)
  constructor
  · intro placed
    obtain ⟨e, he, same⟩ := List.mem_map.mp placed
    simp only [Prod.mk.injEq, Watcher.schema.injEq] at same
    obtain ⟨id, rfl, owner⟩ := same
    exact ⟨owner, id ▸ he⟩
  · rintro ⟨rfl, he⟩
    exact List.mem_map.mpr ⟨_, he, rfl⟩

/-- A node when nodes that are gone are no longer told of anything. -/
def leave (gone : List NodeId) (s : Wiring) : Wiring :=
  { s with tells := fun name owner => s.tells name owner ∧ owner ∉ gone }

end Wiring

namespace Tree

/-- Every check is told of the names in its docket, and nobody else of any name. -/
structure Posted (t : Tree) : Prop where
  under : ∀ {x place}, x ∈ t.dockets → place ∈ x.watches → t.Under place.1 x.owner
  told : ∀ {x place}, x ∈ t.dockets → place ∈ x.watches → t.Hears x.owner place
  asked : ∀ {owner place}, t.Hears owner place → ∃ x ∈ t.dockets, x.owner = owner ∧ place ∈ x.watches
  single : ∀ {x y}, x ∈ t.dockets → y ∈ t.dockets → x.check = y.check → x = y
  entered : ∀ {x}, x ∈ t.dockets → x.check < t.records.tickets.length

section
variable {t t' : Tree}

theorem Posted.congr (h : t.Posted) (same : t'.nodes.map Node.wiring = t.nodes.map Node.wiring)
    (tickets : t.records.tickets.length ≤ t'.records.tickets.length) : t'.Posted := by
  have dockets := dockets_congr same
  refine ⟨fun hx hp => ?_, fun hx hp => ?_, fun hears => ?_, fun hx hy => ?_, fun hx => ?_⟩
  · exact under_congr same (h.under (dockets ▸ hx) hp)
  · exact (hears_congr same).mpr (h.told (dockets ▸ hx) hp)
  · rw [dockets]
    exact h.asked ((hears_congr same).mp hears)
  · exact h.single (dockets ▸ hx) (dockets ▸ hy)
  · exact Nat.lt_of_lt_of_le (h.entered (dockets ▸ hx)) tickets

theorem Posted.watched?_eq (h : t.Posted) {x : Docket} (hx : x ∈ t.dockets) :
    t.watched? x.check = some (t.names x) := by
  have found : t.dockets.find? (fun y => y.check == x.check) = some x := by
    cases looked : t.dockets.find? fun y => y.check == x.check with
    | none => exact absurd (List.find?_eq_none.mp looked x hx) (by simp)
    | some y =>
      have same := List.find?_some looked
      rw [h.single (List.mem_of_find?_eq_some looked) hx (beq_iff_eq.mp same)]
  rw [watched?, found, Option.map_some]

theorem Posted.still (h : t.Posted) (still : Still t t') : t'.Posted :=
  h.congr still.wirings (by rw [still.records])

theorem posted_of_empty (empty : t.nodes = []) : t.Posted := by
  have none : t.dockets = [] := by rw [dockets, empty]; rfl
  refine ⟨fun hx => ?_, fun hx => ?_, fun hears => ?_, fun hx => ?_, fun hx => ?_⟩
  · simp [none] at hx
  · simp [none] at hx
  · obtain ⟨n, hn, -⟩ := hears
    simp [empty] at hn
  · simp [none] at hx
  · simp [none] at hx

/-! ## Placing the watchers of a check -/

theorem wiring_watchAll (entries : List (NodeId × String × Watcher)) (n : Node) :
    (n.watchAll entries).wiring = n.wiring.watchAll entries := by
  have tells : (n.watchAll entries).Tells = (n.wiring.watchAll entries).tells := by
    funext name owner
    exact propext Node.mem_watchers_watchAll
  obtain ⟨slots, same, -⟩ := n.watchAll_eq entries
  rw [Node.wiring, tells, same]
  rfl

/-- Rules are not told on behalf of the schema. -/
theorem schema_not_mem_ruleWatches {i root : NodeId} {kind : Kind} (id : NodeId) (name : String)
    (owner : NodeId) : (id, name, Watcher.schema owner) ∉ ruleWatches i root kind := by
  intro placed
  obtain ⟨_, _, _, e, _⟩ := mem_ruleWatches.mp placed
  cases e

theorem schemaView_watchAll (entries : List (NodeId × String × Watcher)) (n : Node) :
    (n.watchAll entries).schemaView = { n.schemaView with wiring := n.wiring.watchAll entries } := by
  have values : (n.watchAll entries).value = n.value := Node.value_watchAll
  have rejection : (n.watchAll entries).rejection? = n.rejection? := by
    obtain ⟨slots, same, -⟩ := n.watchAll_eq entries
    rw [same]
    rfl
  rw [Node.schemaView, values, rejection, wiring_watchAll]
  rfl

/-- Places the watchers of a schema check that has been entered at the desk. -/
def enlist (t : Tree) (x : Docket) : Tree :=
  x.watches.foldl (fun t place => t.watchSlot place.1 place.2 (.schema x.owner))
    { t with desk := t.desk.map Desk.register }

theorem desk_foldl_watchSlot (t : Tree) (entries : List (NodeId × String × Watcher)) :
    (entries.foldl (fun t (id, name, w) => t.watchSlot id name w) t).desk = t.desk := by
  induction entries generalizing t with
  | nil => rfl
  | cons e entries ih => exact ih _

theorem enlist_eq (t : Tree) (x : Docket) : t.enlist x =
    (x.watches.map fun place => (place.1, place.2, Watcher.schema x.owner)).foldl
      (fun t (id, name, w) => t.watchSlot id name w) { t with desk := t.desk.map Desk.register } := by
  rw [List.foldl_map]
  rfl

theorem schemaViews_enlist (t : Tree) (x : Docket) : (t.enlist x).nodes.map Node.schemaView =
    t.nodes.map fun n => { n.schemaView with wiring := n.wiring.enlist x } := by
  rw [enlist_eq, nodes_foldl_watchSlot, List.map_map]
  refine List.map_congr_left fun n _ => ?_
  rw [Function.comp_apply, schemaView_watchAll, Wiring.watchAll_schema]

theorem ids_enlist (t : Tree) (x : Docket) : (t.enlist x).ids = t.ids := by
  have shown := congrArg (List.map fun s : SchemaView => s.wiring.id) (schemaViews_enlist t x)
  rwa [List.map_map, List.map_map] at shown

theorem desk_enlist (t : Tree) (x : Docket) : (t.enlist x).desk = t.desk.map Desk.register := by
  rw [enlist_eq, desk_foldl_watchSlot]

theorem records_enlist (staffed : t.desk = some t.records) (x : Docket) :
    (t.enlist x).records = t.records.register := by
  rw [records, desk_enlist, staffed]
  rfl

/-- The schema notices a new node when it has a check: that is entered, let in on its slots,
and puts its first question. -/
theorem wire_eq (t : Tree) (x : Node) : ∃ ruled, Still t ruled ∧ t.wire x =
    match x.docket? with
    | none => ruled
    | some docket => (ruled.enlist docket).askSchema docket.owner := by
  refine ⟨(ruleWatches x.id ((t.root?.map (·.id)).getD x.id) x.kind).foldl
    (fun t (id, name, w) => t.watchSlot id name w) t, ⟨?_, desk_foldl_watchSlot _ _⟩, ?_⟩
  · rw [nodes_foldl_watchSlot, List.map_map]
    refine List.map_congr_left fun n _ => ?_
    rw [Function.comp_apply, schemaView_watchAll, Wiring.watchAll_of_not_mem schema_not_mem_ruleWatches]
    rfl
  · unfold wire Node.docket?
    cases x.schema <;> rfl

theorem wirings_wire (t : Tree) (x : Node) : (t.wire x).nodes.map Node.wiring =
    (t.nodes.map Node.wiring).map (x.docket?.elim id Wiring.enlist) := by
  obtain ⟨ruled, still, wired⟩ := t.wire_eq x
  rw [wired]
  cases x.docket? with
  | none => exact still.wirings.trans (List.map_id _).symm
  | some docket =>
    have enlisted := congrArg (List.map SchemaView.wiring) (schemaViews_enlist ruled docket)
    rw [List.map_map, List.map_map] at enlisted
    dsimp only
    rw [(askSchema_keeps_of Node.wiring_answerSchema _ _).nodes, ← still.wirings, List.map_map]
    exact enlisted

/-- No check is entered when the schema is asked. -/
@[simp] theorem length_tickets_askSchema (t : Tree) (id : NodeId) :
    (t.askSchema id).records.tickets.length = t.records.tickets.length := by
  unfold askSchema
  split
  · rename_i desk node check found _
    have renewed : (desk.renew check.number).tickets.length = t.records.tickets.length := by
      rw [records, found]
      simp [Desk.renew]
    dsimp only
    split
    · exact renewed
    · split
      · rw [records, desk_answerCheck]
        exact renewed
      · exact renewed
  · rfl

/-! ## A new node -/

/-- The table of a check is named by the node itself or by the nearest one above it that
names a table. -/
theorem schemaCheckFor_eq_some {id : NodeId} {kind : Kind} {parent : Option NodeId}
    {check : SchemaCheck} (h : t.schemaCheckFor id kind parent = some check) :
    t.desk = some t.records ∧ check.number = t.records.tickets.length ∧ check.rejection = none ∧
      (check.table = id ∨ ∃ above, parent = some above ∧ t.nearestEntity above = some check.table) := by
  unfold schemaCheckFor at h
  cases found : t.desk with
  | none => simp [found] at h
  | some desk =>
    have records : t.records = desk := by rw [Tree.records, found]; rfl
    simp only [found, bind, Option.bind_some, pure] at h
    split at h
    · cases h
      exact ⟨by rw [records], by rw [records], rfl, .inl rfl⟩
    · split at h
      · obtain ⟨table, above, e⟩ := Option.bind_eq_some_iff.mp h
        cases e
        exact ⟨by rw [records], by rw [records], rfl, .inr (Option.bind_eq_some_iff.mp above)⟩
      · cases h

theorem nearestEntity_under {id table : NodeId} (h : t.nearestEntity id = some table) :
    t.Under table id ∧ table ∈ t.ids := by
  unfold nearestEntity at h
  generalize t.nodes.length = fuel at h
  induction fuel generalizing id with
  | zero => cases h
  | succ fuel ih =>
    simp only [nearestEntityWithin, bind, Option.bind_eq_some_iff] at h
    obtain ⟨n, found, h⟩ := h
    obtain ⟨hn, rfl⟩ := node?_eq_some found
    split at h
    · cases h
      exact ⟨.self, List.mem_map_of_mem hn⟩
    · obtain ⟨parent, above, h⟩ := Option.bind_eq_some_iff.mp h
      obtain ⟨under, live⟩ := ih h
      exact ⟨.child hn above under, live⟩

/-- A node has come into a tree that has no watchers placed yet. -/
structure Joined (t : Tree) (x : Node) (joined : Tree) : Prop where
  mem : ∀ n, n ∈ joined.nodes ↔ n = x ∨ n ∈ t.nodes
  desk : joined.desk = t.desk
  distinct : joined.ids.Nodup
  fresh : x.id ∉ t.ids
  slots : x.slots = .empty
  rejection : x.rejection? = none
  entered : ∀ {docket}, x.docket? = some docket →
    t.desk = some t.records ∧ docket.check = t.records.tickets.length
  watches : ∀ {docket place}, x.docket? = some docket → place ∈ docket.watches → place.1 = x.id ∨
    ∃ above, x.parent = some above ∧ t.Under place.1 above ∧ place.1 ∈ t.ids

theorem docket?_fresh {kind : Kind} {tag : String} {above : Option Node} {docket : Docket}
    (h : (t.fresh kind tag above).docket? = some docket) :
    ∃ check, t.schemaCheckFor ⟨t.issued⟩ kind (above.map (·.id)) = some check ∧
      docket = ⟨⟨t.issued⟩, check.number, schemaWatches ⟨t.issued⟩ kind check⟩ := by
  obtain ⟨check, found, rfl⟩ := Option.map_eq_some_iff.mp h
  exact ⟨check, found, rfl⟩

/-- The check of a new node gets the next number at the desk. -/
theorem entered_fresh {kind : Kind} {tag : String} {above : Option Node} {docket : Docket}
    (h : (t.fresh kind tag above).docket? = some docket) :
    t.desk = some t.records ∧ docket.check = t.records.tickets.length := by
  obtain ⟨check, found, rfl⟩ := docket?_fresh h
  obtain ⟨staffed, number, -⟩ := schemaCheckFor_eq_some found
  exact ⟨staffed, number⟩

theorem joined_fresh {p : Tree} (kind : Kind) (tag : String) (above : Option Node)
    (mem : ∀ n, n ∈ p.nodes ↔ n = t.fresh kind tag above ∨ n ∈ t.nodes) (desk : p.desk = t.desk)
    (distinct : p.ids.Nodup) (fresh : ⟨t.issued⟩ ∉ t.ids) : Joined t (t.fresh kind tag above) p := by
  refine ⟨mem, desk, distinct, fresh, rfl, ?_, entered_fresh, fun {docket place} hd hp => ?_⟩
  · cases found : t.schemaCheckFor ⟨t.issued⟩ kind (above.map (·.id)) with
    | none => exact congrArg (Option.bind · SchemaCheck.rejection) found
    | some check =>
      exact (congrArg (Option.bind · SchemaCheck.rejection) found).trans
        (schemaCheckFor_eq_some found).2.2.1
  · obtain ⟨check, found, rfl⟩ := docket?_fresh hd
    obtain ⟨-, -, -, named⟩ := schemaCheckFor_eq_some found
    rcases List.mem_cons.mp hp with rfl | own
    · rcases named with self | ⟨parent, hp, nearest⟩
      · exact .inl self
      · exact .inr ⟨parent, hp, nearestEntity_under nearest⟩
    · obtain ⟨name, -, rfl⟩ := List.mem_map.mp own
      exact .inl rfl

section
variable {x : Node} {p : Tree} {y : Docket}

theorem Joined.mem_dockets_wire (join : Joined t x p) :
    y ∈ (p.wire x).dockets ↔ x.docket? = some y ∨ y ∈ t.dockets := by
  have kept (s : Wiring) : (x.docket?.elim id Wiring.enlist s).docket? = s.docket? := by
    cases x.docket? <;> rfl
  have read (t : Tree) : y ∈ t.dockets ↔ ∃ s ∈ t.nodes.map Node.wiring, s.docket? = some y := by
    simp only [mem_dockets, List.mem_map, exists_exists_and_eq_and]
    rfl
  have docket (n : Node) : n.wiring.docket? = n.docket? := rfl
  rw [read, wirings_wire]
  simp only [List.mem_map, exists_exists_and_eq_and, kept, docket, mem_dockets, join.mem]
  constructor
  · rintro ⟨n, rfl | hn, hy⟩
    · exact .inl hy
    · exact .inr ⟨n, hn, hy⟩
  · rintro (hy | ⟨n, hn, hy⟩)
    · exact ⟨x, .inl rfl, hy⟩
    · exact ⟨n, .inr hn, hy⟩

theorem Joined.hears_wire (join : Joined t x p) {owner : NodeId} {place : NodeId × String} :
    (p.wire x).Hears owner place ↔ t.Hears owner place ∨ ∃ docket, x.docket? = some docket ∧
      docket.owner = owner ∧ place ∈ docket.watches ∧ place.1 ∈ p.ids := by
  have read : (p.wire x).Hears owner place ↔ ∃ s ∈ (p.wire x).nodes.map Node.wiring,
      s.id = place.1 ∧ s.tells place.2 owner := by
    simp only [List.mem_map, exists_exists_and_eq_and]
    rfl
  have silent : ¬ x.Tells place.2 owner := by
    rw [Node.Tells, join.slots, Slots.watchers_empty]
    exact List.not_mem_nil
  have told (n : Node) : (x.docket?.elim id Wiring.enlist n.wiring).tells place.2 owner ↔
      n.Tells place.2 owner ∨ ∃ docket, x.docket? = some docket ∧ docket.owner = owner ∧
        (n.id, place.2) ∈ docket.watches := by
    cases x.docket? with
    | none => simp [Node.wiring]
    | some docket => simp [Wiring.enlist, Node.wiring]
  have id (n : Node) : (x.docket?.elim id Wiring.enlist n.wiring).id = n.id := by
    cases x.docket? <;> rfl
  rw [read, wirings_wire]
  simp only [List.mem_map, exists_exists_and_eq_and, told, id]
  constructor
  · rintro ⟨n, hn, here, old | ⟨docket, hd, owned, watched⟩⟩
    · rcases (join.mem n).mp hn with rfl | hn
      · exact absurd old silent
      · exact .inl ⟨n, hn, here, old⟩
    · rw [here] at watched
      exact .inr ⟨docket, hd, owned, watched, here ▸ List.mem_map_of_mem hn⟩
  · rintro (⟨n, hn, here, old⟩ | ⟨docket, hd, owned, watched, live⟩)
    · exact ⟨n, (join.mem n).mpr (.inr hn), here, .inl old⟩
    · obtain ⟨n, hn, here⟩ := List.mem_map.mp live
      exact ⟨n, hn, here, .inr ⟨docket, hd, owned, here ▸ watched⟩⟩

theorem Under.wire {top low : NodeId} (h : p.Under top low) (x : Node) : (p.wire x).Under top low := by
  refine h.mono fun n hn => ?_
  have there : x.docket?.elim id Wiring.enlist n.wiring ∈ (p.wire x).nodes.map Node.wiring := by
    rw [wirings_wire]
    exact List.mem_map_of_mem (List.mem_map_of_mem hn)
  obtain ⟨m, hm, e⟩ := List.mem_map.mp there
  refine ⟨m, hm, (congrArg Wiring.id e).trans ?_, (congrArg Wiring.parent e).trans ?_⟩
  · cases x.docket? <;> rfl
  · cases x.docket? <;> rfl

/-- Wiring a new node lets it in on the names that it watches. -/
theorem Joined.posted_wire (join : Joined t x p) (h : t.Posted) : (p.wire x).Posted := by
  have old {top id : NodeId} (under : t.Under top id) : p.Under top id :=
    under.mono fun n hn => ⟨n, (join.mem n).mpr (.inr hn), rfl, rfl⟩
  have here : x ∈ p.nodes := (join.mem x).mpr (.inl rfl)
  have live {place : NodeId × String} {docket : Docket} (hd : x.docket? = some docket)
      (hp : place ∈ docket.watches) : place.1 ∈ p.ids := by
    rcases join.watches hd hp with own | ⟨above, -, -, there⟩
    · exact own ▸ List.mem_map_of_mem here
    · obtain ⟨n, hn, id⟩ := List.mem_map.mp there
      exact id ▸ List.mem_map_of_mem ((join.mem n).mpr (.inr hn))
  have tickets : t.records.tickets.length ≤ (p.wire x).records.tickets.length ∧
      (x.docket? ≠ none → t.records.tickets.length < (p.wire x).records.tickets.length) := by
    have same := records_congr join.desk
    obtain ⟨ruled, still, wired⟩ := p.wire_eq x
    rw [wired, ← same, ← still.records]
    cases hd : x.docket? with
    | none => simp
    | some docket =>
      have staffed : ruled.desk = some ruled.records := by
        rw [still.desk, still.records, same, join.desk]
        exact (join.entered hd).1
      dsimp only
      rw [length_tickets_askSchema, records_enlist staffed]
      simp [Desk.register]
  refine ⟨fun hy hp => ?_, fun hy hp => ?_, fun hears => ?_, fun {y z} hy hz same => ?_, fun hy => ?_⟩
  · rcases join.mem_dockets_wire.mp hy with hd | hy
    · rw [owner_docket? hd]
      refine Under.wire ?_ x
      rcases join.watches hd hp with own | ⟨above, parent, under, -⟩
      · exact own ▸ .self
      · exact .child here parent (old under)
    · exact (old (h.under hy hp)).wire x
  · rcases join.mem_dockets_wire.mp hy with hd | hy
    · exact join.hears_wire.mpr (.inr ⟨_, hd, rfl, hp, live hd hp⟩)
    · exact join.hears_wire.mpr (.inl (h.told hy hp))
  · rcases join.hears_wire.mp hears with before | ⟨docket, hd, owned, watched, -⟩
    · obtain ⟨y, hy, owned, watched⟩ := h.asked before
      exact ⟨y, join.mem_dockets_wire.mpr (.inr hy), owned, watched⟩
    · exact ⟨docket, join.mem_dockets_wire.mpr (.inl hd), owned, watched⟩
  · rcases join.mem_dockets_wire.mp hy with hd | hy <;>
      rcases join.mem_dockets_wire.mp hz with he | hz
    · exact Option.some.inj (hd.symm.trans he)
    · have := (join.entered hd).2
      have := h.entered hz
      omega
    · have := (join.entered he).2
      have := h.entered hy
      omega
    · exact h.single hy hz same
  · rcases join.mem_dockets_wire.mp hy with hd | hy
    · rw [(join.entered hd).2]
      exact tickets.2 (by simp [hd])
    · exact Nat.lt_of_lt_of_le (h.entered hy) tickets.1

end

/-! ## Nodes that go -/

theorem schemaViews_remove {id : NodeId} (e : t.remove id = .ok t') : t'.nodes.map Node.schemaView =
    ((t.nodes.map Node.schemaView).filter fun s => !(t.goneWith id).contains s.wiring.id).map fun s =>
      { s with wiring := s.wiring.leave (t.goneWith id) } := by
  refine @map_remove t _ Node.schemaView id t' (fun s => s.wiring.id)
    (fun gone s => { s with wiring := s.wiring.leave gone }) (fun _ => rfl) (fun n gone => ?_)
    (fun _ _ _ => rfl) (fun _ _ _ => rfl) e
  have tells : (n.forgetting gone).Tells = (n.wiring.leave gone).tells := by
    funext name owner
    rw [Node.Tells, Node.mem_watchers_forgetting]
    simp [Wiring.leave, Watcher.servesAny, Node.wiring, Node.Tells]
  have value := n.value_forgetting gone
  change (n.forgetting gone).schemaView = _
  rw [Node.schemaView, Node.wiring, tells, value]
  rfl

/-- The nodes that stay are told of as much as before, but for what is gone. -/
theorem mem_remove {id : NodeId} (e : t.remove id = .ok t') (s : SchemaView) :
    s ∈ t'.nodes.map Node.schemaView ↔ ∃ n ∈ t.nodes, n.id ∉ t.goneWith id ∧
      s = { n.schemaView with wiring := n.wiring.leave (t.goneWith id) } := by
  rw [schemaViews_remove e]
  simp only [List.mem_map, List.mem_filter, Bool.not_eq_true', List.contains_eq_mem,
    decide_eq_false_iff_not]
  constructor
  · rintro ⟨_, ⟨⟨n, hn, rfl⟩, stays⟩, rfl⟩
    exact ⟨n, hn, stays, rfl⟩
  · rintro ⟨n, hn, stays, rfl⟩
    exact ⟨_, ⟨⟨n, hn, rfl⟩, stays⟩, rfl⟩

section
variable {id : NodeId}

theorem exists_of_mem_remove (e : t.remove id = .ok t') {m : Node} (hm : m ∈ t'.nodes) :
    ∃ n ∈ t.nodes, n.id ∉ t.goneWith id ∧
      m.schemaView = { n.schemaView with wiring := n.wiring.leave (t.goneWith id) } :=
  (mem_remove e m.schemaView).mp (List.mem_map_of_mem hm)

theorem exists_remove (e : t.remove id = .ok t') {n : Node} (hn : n ∈ t.nodes)
    (stays : n.id ∉ t.goneWith id) : ∃ m ∈ t'.nodes,
      m.schemaView = { n.schemaView with wiring := n.wiring.leave (t.goneWith id) } :=
  List.mem_map.mp ((mem_remove e _).mpr ⟨n, hn, stays, rfl⟩)

/-- What is above a node that stays does so too. -/
theorem Under.stays (sound : t.Sound) (e : t.remove id = .ok t') {top low : NodeId}
    (h : t.Under top low) (stays : low ∉ t.goneWith id) :
    t'.Under top low ∧ top ∉ t.goneWith id := by
  induction h with
  | self => exact ⟨.self, stays⟩
  | @child n parent hn above _ ih =>
    obtain ⟨m, hm, same⟩ := exists_remove e hn stays
    have name : m.id = n.id := congrArg (·.wiring.id) same
    have above' : m.parent = some parent := (congrArg (·.wiring.parent) same).trans above
    have live := (remove_sound sound e).parent_mem hm above'
    obtain ⟨k, hk, rfl⟩ := List.mem_map.mp live
    obtain ⟨j, -, stays', same'⟩ := exists_of_mem_remove e hk
    have name' : k.id = j.id := congrArg (·.wiring.id) same'
    obtain ⟨under, stays⟩ := ih (name' ▸ stays')
    exact ⟨name ▸ .child hm above' under, stays⟩

theorem mem_dockets_remove (e : t.remove id = .ok t') {x : Docket} :
    x ∈ t'.dockets ↔ x ∈ t.dockets ∧ x.owner ∉ t.goneWith id := by
  simp only [mem_dockets]
  constructor
  · rintro ⟨m, hm, hx⟩
    obtain ⟨n, hn, stays, same⟩ := exists_of_mem_remove e hm
    have docket : n.docket? = some x := (congrArg (·.wiring.docket?) same).symm.trans hx
    exact ⟨⟨n, hn, docket⟩, owner_docket? docket ▸ stays⟩
  · rintro ⟨⟨n, hn, hx⟩, stays⟩
    obtain ⟨m, hm, same⟩ := exists_remove e hn (owner_docket? hx ▸ stays)
    exact ⟨m, hm, (congrArg (·.wiring.docket?) same).trans hx⟩

theorem hears_remove (e : t.remove id = .ok t') {owner : NodeId} {place : NodeId × String} :
    t'.Hears owner place ↔
      t.Hears owner place ∧ place.1 ∉ t.goneWith id ∧ owner ∉ t.goneWith id := by
  constructor
  · rintro ⟨m, hm, here, tells⟩
    obtain ⟨n, hn, stays, same⟩ := exists_of_mem_remove e hm
    have name : m.id = n.id := congrArg (·.wiring.id) same
    have told : m.Tells = _ := congrArg (·.wiring.tells) same
    rw [told] at tells
    exact ⟨⟨n, hn, name.symm.trans here, tells.1⟩, here ▸ name ▸ stays, tells.2⟩
  · rintro ⟨⟨n, hn, here, tells⟩, stays, stays'⟩
    obtain ⟨m, hm, same⟩ := exists_remove e hn (here ▸ stays)
    have name : m.id = n.id := congrArg (·.wiring.id) same
    have told : m.Tells = _ := congrArg (·.wiring.tells) same
    refine ⟨m, hm, name.trans here, ?_⟩
    rw [told]
    exact ⟨tells, stays'⟩

theorem desk_remove (e : t.remove id = .ok t') : t'.desk = t.desk := by
  obtain ⟨before, last, n, after, parent, -, -, rfl⟩ := remove_eq_ok e
  exact (desk_setSelection _ _).trans (desk_setChildCount _ _ _)

/-- Nobody who stays watches a name that is gone. -/
theorem Posted.remove (h : t.Posted) (sound : t.Sound) (e : t.remove id = .ok t') : t'.Posted := by
  have records := records_congr (desk_remove e)
  refine ⟨fun hx hp => ?_, fun hx hp => ?_, fun hears => ?_, fun hx hy => ?_, fun hx => ?_⟩
  · obtain ⟨hx, stays⟩ := (mem_dockets_remove e).mp hx
    exact ((h.under hx hp).stays sound e stays).1
  · obtain ⟨hx, stays⟩ := (mem_dockets_remove e).mp hx
    exact (hears_remove e).mpr ⟨h.told hx hp, ((h.under hx hp).stays sound e stays).2, stays⟩
  · obtain ⟨before, -, stays⟩ := (hears_remove e).mp hears
    obtain ⟨x, hx, rfl, watched⟩ := h.asked before
    exact ⟨x, (mem_dockets_remove e).mpr ⟨hx, stays⟩, rfl, watched⟩
  · exact h.single ((mem_dockets_remove e).mp hx).1 ((mem_dockets_remove e).mp hy).1
  · rw [records]
    exact h.entered ((mem_dockets_remove e).mp hx).1

end

/-! ## Every change -/

theorem still_touch (t : Tree) : Still t t.touch := ⟨rfl, rfl⟩

theorem still_adopt (t : Tree) (parent : NodeId) (count : Nat) : Still t (t.adopt parent count) :=
  (adopt_keeps_of (fun _ _ _ => rfl) (fun _ _ _ _ _ => rfl) t parent count).still (desk_adopt _ _ _)

theorem plant_joined (empty : t.nodes = []) (kind : Kind) (tag : String) :
    Joined t (t.fresh kind tag none)
      { t with nodes := [t.fresh kind tag none], issued := t.issued + 1 } := by
  refine joined_fresh kind tag none (fun n => ?_) rfl ?_ ?_
  · simp [empty]
  · simp [ids]
  · simp [ids, empty]

/-- An insertion wires a new node. What follows the schema does not notice. -/
theorem insert_joined {kind : Kind} {tag : String} {parent id : NodeId} (sound : t.Sound)
    (e : t.insert kind tag parent = .ok (t', id)) :
    ∃ x p, Joined t x p ∧ Still (p.wire x) t' := by
  obtain ⟨before, above, after, cut, -, rfl⟩ := insert_eq_ok e
  have distinct := (insert_sound sound e).nodup
  rw [(insert_keeps cut e).2.ids_of_entry] at distinct
  have mem (n : Node) := @mem_placed t kind tag _ _ _ n (splitAt_eq_some cut).1
  refine ⟨_, _, joined_fresh kind tag (some above) mem rfl distinct sound.issued_not_mem, ?_⟩
  exact (still_adopt _ parent (above.childCount + 1)).trans (still_touch _)

theorem still_flip (t : Tree) (id : NodeId) : Still t (t.flip id) :=
  (flip_keeps (fun _ _ _ => rfl) t id).still (desk_refreshVisibility _ _)

theorem still_select (t : Tree) (selection : Option NodeId) : Still t (t.setSelection selection) :=
  ⟨by rw [nodes_setSelection], desk_setSelection t selection⟩

theorem still_createAttribute (t : Tree) (id : NodeId) (name value : String) :
    Still (t.writeSlot id name value) (t.createAttribute id name value) :=
  (createAttribute_keeps Node.schemaView_insertAttribute t id name value).still rfl

theorem still_eraseAttribute (t : Tree) (id : NodeId) (name : String) :
    Still t (t.alter id fun n => n.eraseAttribute name) :=
  (keeps_alter t id _ fun n => n.schemaView_eraseAttribute name).still rfl

theorem length_tickets_tell (t : Tree) (id : NodeId) (name : String) (w : Watcher) :
    (t.tell id name w).records.tickets.length = t.records.tickets.length := by
  cases w with
  | rule owner index => rfl
  | schema owner => exact length_tickets_askSchema t owner
  | display => rw [tell, records, desk_followSlot]; rfl
  | valueCheck => rw [tell, records, desk_followSlot]; rfl

theorem length_tickets_writeSlot (t : Tree) (id : NodeId) (name value : String) :
    (t.writeSlot id name value).records.tickets.length = t.records.tickets.length := by
  have told (t : Tree) (ws : List Watcher) :
      (ws.foldl (fun t w => t.tell id name w) t).records.tickets.length =
        t.records.tickets.length := by
    induction ws generalizing t with
    | nil => rfl
    | cons w ws ih => exact (ih _).trans (length_tickets_tell t id name w)
  unfold writeSlot
  split
  · rfl
  · dsimp only
    split
    · rfl
    · exact told _ _

theorem wirings_writeSlot (t : Tree) (id : NodeId) (name value : String) :
    (t.writeSlot id name value).nodes.map Node.wiring = t.nodes.map Node.wiring :=
  (writeSlot_keeps_of (fun _ _ _ => rfl) Node.wiring_answerSchema (fun _ _ _ => rfl)
    Node.wiring_setSlot t id name value).nodes

theorem Posted.writeSlot (h : t.Posted) (id : NodeId) (name value : String) :
    (t.writeSlot id name value).Posted :=
  h.congr (wirings_writeSlot t id name value) (length_tickets_writeSlot t id name value).ge

theorem Posted.resolve {number : Nat} {verdict : Verdict} {late : Bool} (h : t.Posted)
    (e : t.resolve number verdict = some (t', late)) : t'.Posted := by
  refine h.congr (resolve_keeps_of Node.wiring_answerSchema e).nodes ?_
  obtain ⟨desk, request, found, -, -, rfl⟩ := resolve_eq_some e
  have records : t.records = desk := by rw [Tree.records, found]; rfl
  split
  · rw [records]
    exact Nat.le_refl _
  · rw [records, Tree.records, desk_answerCheck]
    exact Nat.le_refl _

/-- Every change keeps everybody told of the names in their docket, and of no others. -/
theorem Change.posted (c : Change t t') (sound : t.Sound) (h : t.Posted) : t'.Posted := by
  cases c with
  | touch => exact h.still (still_touch t)
  | clear => exact posted_of_empty t.nodes_clear
  | plant kind tag empty => exact (plant_joined empty kind tag).posted_wire h
  | insert e =>
    obtain ⟨x, p, join, still⟩ := insert_joined sound e
    exact (join.posted_wire h).still still
  | remove e => exact h.remove sound e
  | flip => exact h.still (still_flip t _)
  | select => exact h.still (still_select t _)
  | write id name value => exact h.writeSlot id name value
  | create value _ _ => exact (h.writeSlot _ _ value).still (still_createAttribute t _ _ value)
  | discard id name => exact (h.writeSlot id name "").still (still_eraseAttribute _ id name)
  | resolve e => exact h.resolve e

end

end Tree

end QueryMarkup
