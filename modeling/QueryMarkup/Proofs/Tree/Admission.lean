import QueryMarkup.Proofs.Tree.Lineage
import QueryMarkup.Proofs.Tree.Recount
import QueryMarkup.Proofs.Tree.Upkeep
import QueryMarkup.Proofs.Tree.Watching

/-!
# Letting a node in

What an insertion does to the nodes of a tree, exactly. A new node only places watchers, the node
above it counts its children and checks the rule about them anew, and what is below that node is
shown or hidden anew. Nothing else of any older node changes.
-/
namespace QueryMarkup

namespace Node

variable {n : Node}

/-! ## Watchers -/

theorem Settled.settle_eq (h : n.Settled) : n.settle = n :=
  calc n.settle
      = { n with
          label := n.labelNow
          markup := n.markupNow
          validation := n.validation.set n.issuesNow } := rfl
    _ = n := by rw [← h.label, ← h.markup, ← h.validation, Cell.set_self]

/-- Withdrawing an answer that was never given changes nothing. -/
theorem Settled.answerSchema_none (h : n.Settled) (open_ : ∀ check ∈ n.schema, check.rejection = none) :
    n.answerSchema none = n := by
  have same : n.schema.map (·.answer none) = n.schema := by
    cases found : n.schema with
    | none => rfl
    | some check => rw [Option.map_some, SchemaCheck.answer, if_pos (open_ check found)]
  rw [answerSchema, same]
  exact h.settle_eq

theorem watchAll_append (front back : List (NodeId × String × Watcher)) (n : Node) :
    n.watchAll (front ++ back) = (n.watchAll front).watchAll back := by
  induction front generalizing n with
  | nil => rfl
  | cons e front ih => exact ih _

section
variable (entries : List (NodeId × String × Watcher)) (n : Node)

@[simp] theorem id_watchAll : (n.watchAll entries).id = n.id := by
  obtain ⟨slots, e, -⟩ := n.watchAll_eq entries
  rw [e]

theorem kind_watchAll : (n.watchAll entries).kind = n.kind := by
  obtain ⟨slots, e, -⟩ := n.watchAll_eq entries
  rw [e]

theorem schema_watchAll : (n.watchAll entries).schema = n.schema := by
  obtain ⟨slots, e, -⟩ := n.watchAll_eq entries
  rw [e]

theorem cell_watchAll (name : String) :
    ((n.watchAll entries).slots.get name).cell = (n.slots.get name).cell := by
  induction entries generalizing n with
  | nil => rfl
  | cons e entries ih =>
    rw [watchAll, ih]
    split
    · rw [Slots.get_watch]
      split
      · rename_i same
        rw [same]
        rfl
      · rfl
    · rfl

end

/-- There is nothing to ask about a node without values: it has no column, or no table. -/
theorem inquiry?_eq_none (blank : ∀ name, n.value name = "") {table : String}
    (h : table = "" ∨ n.kind.columnName?.isSome = true) : n.inquiry? table = none := by
  unfold inquiry?
  split
  · rfl
  · rename_i named
    rcases h with rfl | column
    · exact absurd rfl named
    · obtain ⟨name, found⟩ := Option.isSome_iff_exists.mp column
      rw [found]
      dsimp only
      rw [blank name]
      rfl

/-! ## Taking a child in -/

/-- A node that takes a child in: it is open, and counts its children anew. -/
def takeIn (parent : NodeId) (rootAggregate : String) (count : Nat) (n : Node) : Node :=
  if n.id = parent then
    { ({ n with expandable := true } : Node).recount rootAggregate count with expanded := true }
  else n

/-- What the arrival of a node may change of one that was there before. -/
structure Hosting (parent : NodeId) (n n' : Node) : Prop where
  /-- A node may be watched by the new one, and be shown. -/
  beside : n.id ≠ parent → n' = { n with slots := n'.slots, visible := n'.visible }
  /-- The node above has one child more and is opened for it. -/
  above : n.id = parent → n'.childCount = n.childCount + 1 ∧ Recounted
    { n with slots := n'.slots, visible := n'.visible, expandable := true, expanded := true } n'
  cells : ∀ name, (n'.slots.get name).cell = (n.slots.get name).cell

theorem Hosting.id {parent : NodeId} {n n' : Node} (h : Hosting parent n n') : n'.id = n.id := by
  by_cases here : n.id = parent
  · rw [(h.above here).2.same]
  · rw [h.beside here]

/-- A second arrival below another node is as if there had been only the first. -/
theorem Hosting.trans {parent other : NodeId} {n n' n'' : Node} (h : Hosting parent n n')
    (h' : Hosting other n' n'') (apart : n'.id ≠ other) : Hosting parent n n'' := by
  have same := h'.beside apart
  have cells := h'.cells
  generalize n''.slots = slots at same cells
  generalize n''.visible = visible at same
  subst same
  refine ⟨fun here => ?_, fun here => ?_, fun name => (cells name).trans (h.cells name)⟩
  · rw [h.beside here]
  · obtain ⟨count, recounted⟩ := h.above here
    refine ⟨count, ⟨?_, recounted.rules, recounted.others⟩⟩
    rw [recounted.same]

/-- A node that takes no child in is as it was but for its watchers, and one that does stays
settled. -/
theorem Settled.hosting (h : n.Settled) (entries : List (NodeId × String × Watcher)) (parent : NodeId)
    (aggregate : String) {count : Nat} (counted : n.id = parent → count = n.childCount + 1)
    (visible : Bool) :
    Hosting parent n { (n.watchAll entries).takeIn parent aggregate count with visible } := by
  have settled : (n.watchAll entries).Settled := h.watchAll
  have cells := n.cell_watchAll entries
  obtain ⟨slots, e, -⟩ := n.watchAll_eq entries
  rw [e] at settled cells ⊢
  unfold takeIn
  by_cases here : n.id = parent
  · have opened : Node.Settled { n with slots, expandable := true } :=
      ⟨settled.label, settled.markup, settled.validation⟩
    obtain ⟨recounted, told⟩ := opened.recounted aggregate count
    rw [if_pos here]
    generalize recount aggregate count { n with slots, expandable := true } = m at recounted told
    obtain ⟨number, checks, findings, rfl⟩ : ∃ childCount rules validation,
      m = { n with slots, expandable := true, childCount, rules, validation } :=
        ⟨_, _, _, recounted.same⟩
    exact ⟨fun other => absurd here other,
      fun _ => ⟨told.trans (counted here), ⟨rfl, recounted.rules, recounted.others⟩⟩, cells⟩
  · rw [if_neg here]
    exact ⟨fun _ => rfl, fun same => absurd same here, cells⟩

end Node

namespace Tree

variable {t t' : Tree} {n : Node}

/-! ## A new node only places watchers -/

/-- Nothing changes where the schema is asked about a node that it has no answer about and that
there is nothing to ask about. -/
theorem nodes_askSchema (nd : t.ids.Nodup) (hn : n ∈ t.nodes) (settled : n.Settled)
    (silent : ∀ check ∈ n.schema, check.rejection = none ∧
      n.inquiry? (((t.node? check.table).map (·.value "name")).getD "") = none) :
    (t.askSchema n.id).nodes = t.nodes := by
  unfold askSchema
  split
  · rename_i desk node check _ found
    rw [node?_of_mem nd hn, Option.bind_some, Option.map_eq_some_iff] at found
    obtain ⟨_, has, e⟩ := found
    cases e
    obtain ⟨-, mute⟩ := silent check has
    dsimp only
    rw [mute]
    dsimp only
    rw [nodes_alter]
    refine (List.map_congr_left fun m hm => ?_).trans (List.map_id _)
    by_cases here : m.id = n.id
    · rw [if_pos here, List.inj_on_of_nodup_map nd hm hn here,
        settled.answerSchema_none fun check has => (silent check has).1, id]
    · rw [if_neg here, id]
  · rfl

/-- The check of a new node has no answer, and no question as long as the node has no values. -/
theorem schema_fresh_silent {kind : Kind} {tag : String} {above : Option Node} {check : SchemaCheck}
    (h : (t.fresh kind tag above).schema = some check) : check.rejection = none ∧
      (check.table = (t.fresh kind tag above).id ∨ kind.columnName?.isSome = true) := by
  change t.schemaCheckFor ⟨t.issued⟩ kind (above.map (·.id)) = some check at h
  refine ⟨(schemaCheckFor_eq_some h).2.2.1, ?_⟩
  obtain ⟨staffed, -, -, -⟩ := schemaCheckFor_eq_some h
  unfold schemaCheckFor at h
  simp only [staffed, bind, Option.bind_some, pure] at h
  split at h
  · cases h
    exact .inl rfl
  · split at h
    · rename_i column
      exact .inr column
    · cases h

/-- Letting a node in is placing watchers, and then asking the schema if the node has a check. -/
theorem wire_eq_asked (p : Tree) (x : Node) : ∃ entries u, u.nodes = p.nodes.map (Node.watchAll entries) ∧
    p.wire x = if x.schema.isSome then u.askSchema x.id else u := by
  let rules := ruleWatches x.id ((p.root?.map (·.id)).getD x.id) x.kind
  obtain ⟨ruled, nodes, wired⟩ : ∃ ruled : Tree, ruled.nodes = p.nodes.map (Node.watchAll rules) ∧
      p.wire x = x.docket?.elim ruled fun docket => (ruled.enlist docket).askSchema docket.owner := by
    refine ⟨_, nodes_foldl_watchSlot p rules, ?_⟩
    unfold wire Node.docket?
    cases x.schema <;> rfl
  rw [wired, Node.docket?]
  cases x.schema with
  | none => exact ⟨rules, ruled, nodes, rfl⟩
  | some check =>
    let docket : Docket := ⟨x.id, check.number, schemaWatches x.id x.kind check⟩
    let placed := docket.watches.map fun place => (place.1, place.2, Watcher.schema docket.owner)
    refine ⟨rules ++ placed, ruled.enlist docket, ?_, rfl⟩
    rw [enlist_eq, nodes_foldl_watchSlot, nodes, List.map_map]
    exact List.map_congr_left fun m _ => (Node.watchAll_append rules placed m).symm

/-- A new node that is let in only places watchers. -/
theorem nodes_wire {p : Tree} {kind : Kind} {tag : String} {above : Option Node} (nd : p.ids.Nodup)
    (hx : t.fresh kind tag above ∈ p.nodes) :
    ∃ entries, (p.wire (t.fresh kind tag above)).nodes = p.nodes.map (Node.watchAll entries) := by
  have newborn := t.fresh_newborn kind tag above
  have silent := @schema_fresh_silent t kind tag above
  have sort : (t.fresh kind tag above).kind = kind := rfl
  generalize t.fresh kind tag above = x at hx newborn silent sort
  obtain ⟨entries, u, nodes, wired⟩ := p.wire_eq_asked x
  refine ⟨entries, ?_⟩
  rw [wired, ← nodes]
  split
  · -- the new node with its watchers is settled, and as yet without values
    have there : x.watchAll entries ∈ u.nodes := nodes ▸ List.mem_map_of_mem hx
    have settled : (x.watchAll entries).Settled := newborn.settled.watchAll
    have blank : ∀ name, (x.watchAll entries).value name = "" := by
      intro name
      have values : (x.watchAll entries).slots.value = x.slots.value := Node.value_watchAll
      rw [Node.value, values, newborn.slots]
      rfl
    have same : u.ids = p.ids := by
      rw [ids, ids, nodes, List.map_map]
      exact List.map_congr_left fun m _ => m.id_watchAll entries
    have ids : u.ids.Nodup := same ▸ nd
    have id := x.id_watchAll entries
    have schema := x.schema_watchAll entries
    have kept := x.kind_watchAll entries
    generalize x.watchAll entries = m at there settled blank id schema kept
    rw [← id]
    refine nodes_askSchema ids there settled fun check has => ?_
    rw [schema] at has
    obtain ⟨rejection, table⟩ := silent has
    refine ⟨rejection, Node.inquiry?_eq_none blank ?_⟩
    rcases table with self | column
    · left
      rw [self, ← id, node?_of_mem ids there]
      exact blank "name"
    · right
      rwa [kept, sort]
  · rfl

/-! ## The node above -/

/-- But for what shows, taking a child in is a change of one node. -/
theorem map_adopt (nd : t.ids.Nodup) (hn : n ∈ t.nodes) (count : Nat) : ∃ aggregate,
    (t.adopt n.id count).nodes.map Node.unshaded =
      t.nodes.map fun m => (m.takeIn n.id aggregate count).unshaded := by
  let linked := t.alter n.id fun n => { n with expandable := true }
  refine ⟨linked.rootAggregate, ?_⟩
  have there : ({ n with expandable := true } : Node) ∈ linked.nodes := by
    rw [nodes_alter]
    exact List.mem_map.mpr ⟨n, hn, if_pos rfl⟩
  have ids : linked.ids.Nodup := by
    rw [ids_alter]
    · exact nd
    · exact fun _ => rfl
  have counted : (linked.setChildCount n.id count).nodes = linked.nodes.map fun m =>
      if m.id = n.id then m.recount linked.rootAggregate count else m :=
    nodes_setChildCount ids there count
  have shown := (@refreshVisibility_keeps _ Node.unshaded (fun _ _ => rfl)
    ((linked.setChildCount n.id count).alter n.id fun n => { n with expanded := true }) n.id).nodes
  refine shown.trans ?_
  rw [nodes_alter, counted, nodes_alter, List.map_map, List.map_map, List.map_map]
  refine List.map_congr_left fun m _ => ?_
  by_cases here : m.id = n.id
  · have id : (({ m with expandable := true } : Node).recount linked.rootAggregate count).id = n.id :=
      (Node.id_recount _ _ _).trans here
    simp only [Function.comp_apply, Node.takeIn, if_pos here, if_pos id]
  · simp only [Function.comp_apply, Node.takeIn, if_neg here]

/-- An insertion, up to what shows: the new node in its place, watchers, and the node above
with one child more. -/
theorem insert_eq_map {kind : Kind} {tag : String} {before after : List Node} (h : t.Sound)
    (split : t.nodes = before ++ n :: after) : ∃ t' entries aggregate,
    t.insert kind tag n.id = .ok (t', ⟨t.issued⟩) ∧ t'.nodes.map Node.unshaded =
      (t.placed kind tag before n after).nodes.map fun m =>
        ((m.watchAll entries).takeIn n.id aggregate (n.childCount + 1)).unshaded := by
  have made := @insert_eq t kind tag _ _ _ _ (h.splitAt_eq split)
  have new : t.fresh kind tag (some n) ∈ (t.placed kind tag before n after).nodes :=
    (mem_placed split).mpr (.inl rfl)
  have ids : (t.placed kind tag before n after).ids.Nodup := by
    rw [← (insert_keeps (h.splitAt_eq split) made).2.ids_of_entry]
    exact (insert_sound h made).nodup
  have same := (wire_keeps (t.placed kind tag before n after) (t.fresh kind tag (some n))).entry
  obtain ⟨entries, wired⟩ := nodes_wire ids new
  generalize (t.placed kind tag before n after).wire (t.fresh kind tag (some n)) = u at made wired same
  have there : n.watchAll entries ∈ u.nodes := by
    rw [wired]
    exact List.mem_map_of_mem ((mem_placed split).mpr (.inr (split ▸ by simp)))
  have nd : u.ids.Nodup := same.ids_of_entry ▸ ids
  obtain ⟨aggregate, adopted⟩ := map_adopt nd there (n.childCount + 1)
  refine ⟨_, entries, aggregate, made, ?_⟩
  rw [n.id_watchAll, wired, List.map_map] at adopted
  exact adopted

/-! ## Branches -/

end Tree

/-- An element that has just been made. It has neither attributes nor values. -/
def Entry.blank (id : NodeId) (kind : Kind) (tag : String) (level : Nat) (parent : NodeId) : Entry :=
  ⟨id, kind, tag, level, some parent, [], fun _ => ""⟩

namespace Tree

variable {t t' t'' : Tree} {n : Node}

/-- A branch has come in between two parts of the nodes, below one of them. -/
structure Grafted (parent : NodeId) (front rest : List Node) (branch : List Entry) (t t' : Tree) :
    Prop where
  nodes : t.nodes = front ++ rest
  entries : t'.entries = front.map Node.entry ++ branch ++ rest.map Node.entry
  hosting : ∀ n ∈ t.nodes, ∃ n' ∈ t'.nodes, Node.Hosting parent n n'

/-- An insertion below a node that is there does not fail. The new node comes behind all that it
passes. -/
theorem Sound.exists_insert (h : t.Sound) (current : t.Current) {before after : List Node}
    (split : t.nodes = before ++ n :: after) (kind : Kind) (tag : String) :
    ∃ t', t.insert kind tag n.id = .ok (t', ⟨t.issued⟩) ∧ t'.issued = t.issued + 1 ∧
      t'.selection = t.selection ∧
      Grafted n.id (before ++ n :: after.takeWhile (passes (n.level + 1) kind.rank))
        (after.dropWhile (passes (n.level + 1) kind.rank))
        [.blank ⟨t.issued⟩ kind tag (n.level + 1) n.id] t t' := by
  obtain ⟨t', entries, aggregate, made, nodes⟩ := @insert_eq_map t n kind tag _ _ h split
  obtain ⟨-, kept⟩ := insert_keeps (h.splitAt_eq split) made
  refine ⟨t', made, kept.issued, kept.selection, ?_, ?_, ?_⟩
  · rw [split, List.append_assoc, List.cons_append, List.takeWhile_append_dropWhile]
  · have new : (t.fresh kind tag (some n)).entry =
      .blank ⟨t.issued⟩ kind tag (n.level + 1) n.id := t.entry_fresh kind tag (some n)
    refine kept.nodes.trans ?_
    rw [placed, List.map_append, List.map_cons, List.map_append, List.map_cons, new]
    simp
  · intro m hm
    have there : ((m.watchAll entries).takeIn n.id aggregate (n.childCount + 1)).unshaded ∈
        t'.nodes.map Node.unshaded := by
      rw [nodes]
      exact List.mem_map_of_mem ((mem_placed split).mpr (.inr hm))
    obtain ⟨m', hm', e⟩ := List.mem_map.mp there
    obtain ⟨visible, rfl⟩ := Node.exists_of_unshaded e
    refine ⟨_, hm', (current.settled m hm).hosting entries n.id aggregate (fun here => ?_) visible⟩
    rw [h.eq_of_id (split ▸ by simp) hm here]

theorem lt_level_of_passes {m : Node} {level rank : Nat} (h : passes (level + 1) rank m = true) :
    level < m.level := by
  rcases passes_iff.mp h with deeper | ⟨same, -⟩
  · exact Nat.lt_of_succ_lt deeper
  · exact Nat.lt_of_succ_le (Nat.le_of_eq same.symm)

/-- A branch of one node is extended by a child of this node, which comes right behind it. -/
theorem Grafted.exists_insert {parent id : NodeId} {front rest : List Node} {kind : Kind} {tag : String}
    {level : Nat} (graft : Grafted parent front rest [.blank id kind tag level parent] t t')
    (h' : t'.Sound) (current : t'.Current) (fresh : id ∉ t.ids)
    (stop : ∀ m ∈ rest.head?, m.level ≤ level) (child : Kind) (tag' : String) :
    ∃ t'', t'.insert child tag' id = .ok (t'', ⟨t'.issued⟩) ∧ t''.selection = t'.selection ∧
      Grafted parent front rest [.blank id kind tag level parent,
        .blank ⟨t'.issued⟩ child tag' (level + 1) id] t t'' := by
  have nodes := graft.entries
  rw [List.append_assoc, List.singleton_append] at nodes
  obtain ⟨l, tail, split, hl, ht⟩ := List.map_eq_append_iff.mp nodes
  obtain ⟨x, r, rfl, hx, hr⟩ := List.map_eq_cons_iff.mp ht
  have height : x.level = level := congrArg Entry.level hx
  obtain rfl : x.id = id := congrArg Entry.id hx
  -- the new node has nothing below it, so its child passes nothing
  have passed : r.takeWhile (passes (x.level + 1) child.rank) = [] := by
    cases r with
    | nil => rfl
    | cons m r =>
      obtain ⟨m', rest, rfl, same, -⟩ := List.map_eq_cons_iff.mp hr.symm
      have low := stop m' rfl
      have level : m'.level = m.level := congrArg Entry.level same
      refine List.takeWhile_cons_of_neg fun deeper => ?_
      have higher := lt_level_of_passes deeper
      omega
  have behind : r.dropWhile (passes (x.level + 1) child.rank) = r := by
    have parts := @List.takeWhile_append_dropWhile _ (passes (x.level + 1) child.rank) r
    rwa [passed] at parts
  obtain ⟨t'', made, -, selection, grafted⟩ := h'.exists_insert current split child tag'
  rw [passed, behind, height] at grafted
  refine ⟨t'', made, selection, graft.nodes, ?_, ?_⟩
  · rw [grafted.entries, List.map_append, List.map_cons, List.map_nil, hl, hr, hx]
    simp
  · intro n hn
    obtain ⟨n', hn', host⟩ := graft.hosting n hn
    obtain ⟨n'', hn'', host'⟩ := grafted.hosting n' hn'
    refine ⟨n'', hn'', host.trans host' fun same => fresh ?_⟩
    rw [← same, host.id]
    exact List.mem_map_of_mem hn

end Tree

end QueryMarkup
