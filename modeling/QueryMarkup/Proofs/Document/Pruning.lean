import QueryMarkup.Proofs.Document.Growth
import QueryMarkup.Proofs.Document.Revision
import QueryMarkup.Proofs.Tree.Departure

/-!
# Removing a node

A node goes with exactly those below it, and what is left keeps its order. So a node that has just
been added can be removed again, and nothing shows of it.
-/
namespace QueryMarkup

open Document

namespace Tree

variable {t t' t'' : Tree} {n m last : Node} {before after : List Node}

/-! ## The order of nodes -/

/-- The node after another, read off the names in preorder. -/
theorem Sound.next?_eq (h : t.Sound) {id : NodeId} {front back : List NodeId}
    (split : t.ids = front ++ id :: back) : t.next? id = back.head? := by
  obtain ⟨before, tail, nodes, rfl, ht⟩ := List.map_eq_append_iff.mp split
  obtain ⟨n, after, rfl, rfl, rfl⟩ := List.map_eq_cons_iff.mp ht
  rw [next?, h.splitAt_eq nodes, Option.bind_some, List.head?_map]

theorem Sound.next?_congr (h : t.Sound) (h' : t'.Sound) (same : t'.ids = t.ids) {id : NodeId}
    (live : id ∈ t.ids) : t'.next? id = t.next? id := by
  obtain ⟨front, back, split⟩ := List.append_of_mem live
  rw [h.next?_eq split, h'.next?_eq (same.trans split)]

/-- Trees with the same names in the same order look the same if all their nodes do. -/
theorem map_eq_of_ids {β : Type} {view : Node → β} (h' : t'.Sound) (same : t'.ids = t.ids)
    (alike : ∀ n ∈ t.nodes, ∃ n' ∈ t'.nodes, n'.id = n.id ∧ view n' = view n) :
    t'.nodes.map view = t.nodes.map view := by
  have size : t'.nodes.length = t.nodes.length := by
    simpa [ids] using congrArg List.length same
  refine List.ext_getElem (by simpa using size) fun i hi' hi => ?_
  rw [List.getElem_map, List.getElem_map]
  rw [List.length_map] at hi hi'
  obtain ⟨n', hn', id, seen⟩ := alike t.nodes[i] (List.getElem_mem hi)
  have named : t'.nodes[i].id = t.nodes[i].id := by
    have at_i := List.getElem_of_eq same (by simpa [ids] using hi')
    simpa [ids] using at_i
  rw [← seen, h'.eq_of_id hn' (List.getElem_mem hi') (named.trans id.symm)]

/-- In a sound tree those nodes are expandable that have children. -/
theorem Sound.expandable_count (h : t.Sound) (hn : n ∈ t.nodes) :
    n.expandable = decide (0 < n.childCount) :=
  h.arranged.expandable n.shape (List.mem_map_of_mem hn)

/-! ## Removing -/

/-- Taking a run of different names out leaves what is around it. -/
theorem filter_not_contains {front gone rest : List NodeId} (nd : (front ++ (gone ++ rest)).Nodup) :
    (front ++ (gone ++ rest)).filter (fun m => !gone.contains m) = front ++ rest := by
  obtain ⟨-, inner, ahead⟩ := List.nodup_append.mp nd
  obtain ⟨-, -, behind⟩ := List.nodup_append.mp inner
  have kept {l : List NodeId} (apart : ∀ m ∈ l, m ∉ gone) :
      l.filter (fun m => !gone.contains m) = l :=
    List.filter_eq_self.mpr fun m hm => by simpa using apart m hm
  have dropped : gone.filter (fun m => !gone.contains m) = [] :=
    List.filter_eq_nil_iff.mpr fun m hm => by simpa using hm
  rw [List.filter_append, List.filter_append, dropped, List.nil_append, kept, kept]
  · exact fun m hm hg => behind m hg m hm rfl
  · exact fun m hm hg => ahead m hm m (List.mem_append_left _ hg) rfl

/-- What removing a node does to a tree: `run` are the nodes below it, and `last` is the one before. -/
structure Pruned (id parent last : NodeId) (run : List NodeId) (t t' : Tree) : Prop where
  /-- The others stay in their order, and only the node before gets another one behind it. -/
  chain : ∃ front rest, t.ids = front ++ last :: id :: (run ++ rest) ∧ t'.ids = front ++ last :: rest ∧
    (∀ m ∈ front ++ rest, t'.next? m = t.next? m) ∧ t'.next? last = rest.head?
  below : ∀ m ∈ t.ids, m ∈ id :: run ↔ t.Under id m
  unknown : ∀ m ∈ id :: run, t'.getNode m = .error (.unknownNode m)
  selection : t'.selection = some last
  /-- All but the parent and the node before is as it was, unwatched by what is gone. -/
  bereft : ∀ n ∈ t.nodes, ¬ t.Under id n.id →
    ∃ n' ∈ t'.nodes, Node.Bereft last parent (id :: run) n n'
  expandable : ∀ n ∈ t'.nodes, n.id = last → (n.expandable = true ↔ t'.children last ≠ [])
  /-- The parent has checked the rule about its children. -/
  checked : ∀ n ∈ t'.nodes, n.id = parent → n.validation.value = n.issuesNow ∧
    ∀ c ∈ n.rules, c.outcome.issues = c.rule.issues (n.scope t'.rootAggregate)

/-- The ids that are left when a node goes with those below it. -/
theorem Sound.ids_remove_run (h : t.Sound) {run : List Node} (split : t.nodes = before ++ n :: (run ++ after))
    (below : t.descendants n.id = run) (e : t.remove n.id = .ok t') :
    t'.ids = before.map Node.id ++ after.map Node.id := by
  have named : t.ids = before.map Node.id ++ (t.goneWith n.id ++ after.map Node.id) := by
    rw [goneWith, below, Tree.ids, split]
    simp
  have nd := h.nodup
  rw [named] at nd
  rw [Sound.ids_remove e, named, filter_not_contains nd]

/-- The ids before and after a removal. -/
theorem Sound.ids_around (h : t.Sound) (split : t.nodes = before ++ last :: n :: after)
    (e : t.remove n.id = .ok t') : ∃ rest,
      t.ids = before.map Node.id ++ last.id :: n.id :: ((t.descendants n.id).map Node.id ++ rest) ∧
      t'.ids = before.map Node.id ++ last.id :: rest := by
  rw [List.append_cons] at split
  have parts := @List.takeWhile_append_dropWhile _ (fun m : Node => decide (n.level < m.level)) after
  rw [← runOf, ← h.descendants_split split] at parts
  generalize after.dropWhile (fun m : Node => decide (n.level < m.level)) = rest at parts
  rw [← parts] at split
  refine ⟨rest.map Node.id, ?_, ?_⟩
  · rw [Tree.ids, split]
    simp
  · rw [h.ids_remove_run split rfl e, List.map_append, List.append_assoc]
    rfl

/-- Where a run is taken out, what is behind a node stays so for all but the one before the run. -/
theorem Sound.next?_cut (h : t.Sound) (h' : t'.Sound) {front gone rest : List NodeId} {last m : NodeId}
    (ids : t.ids = front ++ last :: (gone ++ rest)) (ids' : t'.ids = front ++ last :: rest)
    (hm : m ∈ front ++ rest) : t'.next? m = t.next? m := by
  rcases List.mem_append.mp hm with hm | hm
  · obtain ⟨l, r, rfl⟩ := List.append_of_mem hm
    rw [List.append_assoc, List.cons_append] at ids ids'
    rw [h.next?_eq ids, h'.next?_eq ids']
    cases r <;> rfl
  · obtain ⟨l, r, rfl⟩ := List.append_of_mem hm
    have split : t.ids = (front ++ last :: (gone ++ l)) ++ m :: r := by
      rw [ids]
      simp
    have split' : t'.ids = (front ++ last :: l) ++ m :: r := by
      rw [ids']
      simp
    rw [h.next?_eq split, h'.next?_eq split']

theorem Sound.pruned (h : t.Sound) (current : t.Current) (split : t.nodes = before ++ last :: n :: after)
    {p : Node} (hp : p ∈ t.nodes) (inner : n.parent = some p.id) (e : t.remove n.id = .ok t') :
    Pruned n.id p.id last.id ((t.descendants n.id).map (·.id)) t t' := by
  have hn : n ∈ t.nodes := split ▸ by simp
  have sound := remove_sound h e
  have current' := remove_current h current e
  obtain ⟨rest, ids, left⟩ := h.ids_around split e
  refine ⟨⟨_, rest, ids, left, fun m hm => ?_, sound.next?_eq left⟩,
    fun m hm => h.mem_goneWith_iff hn hm, fun m hm => ?_, (h.nodes_remove split hp inner e).1,
    fun m hm stays => h.bereft current split hp inner e hm stays, fun m hm here => ?_,
    fun m hm _ => ⟨(current'.settled m hm).validation, fun c hc => ?_⟩⟩
  · rw [← List.cons_append] at ids
    exact h.next?_cut sound ids left hm
  · have gone : m ∉ t'.ids := by
      rw [Sound.ids_remove e, List.mem_filter]
      rintro ⟨-, stays⟩
      have hm : (t.goneWith n.id).contains m = true := by simpa [goneWith] using hm
      rw [hm] at stays
      cases stays
    have absent : t'.node? m = none :=
      node?_eq_none.mpr fun k hk same => gone (same ▸ List.mem_map_of_mem hk)
    rw [getNode, absent]
  · rw [← here, sound.expandable_count hm, decide_eq_true_iff, ← sound.length_children hm,
      List.length_pos_iff]
  · obtain ⟨i, hi, rfl⟩ := List.mem_iff_getElem.mp hc
    exact (current'.fresh m hm).rules i _ (List.getElem?_eq_getElem hi) (by simp)

/-! ## Removing what was added -/

theorem ids_of_entries {l l' : List Node} (same : l'.map Node.entry = l.map Node.entry) :
    l'.map Node.id = l.map Node.id := by
  have ids := congrArg (List.map Entry.id) same
  rwa [List.map_map, List.map_map] at ids

/-- The nodes of a tree into which a branch has come. -/
theorem Grafted.split {parent : NodeId} {front rest : List Node} {e : Entry} {more : List Entry}
    (graft : Grafted parent front rest (e :: more) t t') : ∃ l x c r, t'.nodes = l ++ x :: (c ++ r) ∧
      l.map Node.entry = front.map Node.entry ∧ x.entry = e ∧ c.map Node.entry = more ∧
      r.map Node.entry = rest.map Node.entry := by
  have nodes := graft.entries
  rw [List.append_assoc, List.cons_append] at nodes
  obtain ⟨l, tail, split, hl, ht⟩ := List.map_eq_append_iff.mp nodes
  obtain ⟨x, tail', rfl, hx, ht'⟩ := List.map_eq_cons_iff.mp ht
  obtain ⟨c, r, rfl, hc, hr⟩ := List.map_eq_append_iff.mp ht'
  exact ⟨l, x, c, r, split, hl, hx, hc, hr⟩

/-- What is below the first node of a branch is the rest of it. -/
theorem Sound.descendants_branch (h : t.Sound) {run : List Node} (split : t.nodes = before ++ n :: (run ++ after))
    (deep : ∀ m ∈ run, n.level < m.level) (stop : ∀ m ∈ after.head?, m.level ≤ n.level) :
    t.descendants n.id = run := by
  rw [h.descendants_split split, runOf, takeWhile_append_of_head, List.takeWhile_eq_self_iff]
  · exact fun m hm => decide_eq_true (deep m hm)
  · exact fun m hm => decide_eq_false (Nat.not_lt.mpr (stop m hm))

end Tree

namespace Node

variable {parent last : NodeId} {gone : List NodeId} {n n' n'' : Node}

/-- What may be left of the arrival and the departure of a node: others may show, the parent is open
and has checked the rule about its children, and the watchers of slots may be in another order. -/
structure Lasting (parent : NodeId) (n n' : Node) : Prop where
  beside : n.id ≠ parent → n' = { n with slots := n'.slots, visible := n'.visible }
  above : n.id = parent → n' = { n with
    slots := n'.slots, visible := n'.visible, expanded := true, rules := n'.rules
    validation := n'.validation }
  cells : ∀ name, (n'.slots.get name).cell = (n.slots.get name).cell

/-- A node that takes a child in and loses it again is as it was, as the number of its children says
whether it is expandable. -/
theorem Hosting.lasting (h : Hosting parent n n') (h' : Bereft last parent gone n' n'')
    (count : n.expandable = decide (0 < n.childCount))
    (count' : n''.expandable = decide (0 < n''.childCount)) : Lasting parent n n'' := by
  refine ⟨fun apart => ?_, fun here => ?_, fun name => (h'.cells name).trans (h.cells name)⟩
  · obtain ⟨slots, visible, rfl⟩ : ∃ slots visible, n' = { n with slots, visible } :=
      ⟨_, _, h.beside apart⟩
    obtain ⟨slots, expandable, rfl⟩ : ∃ slots expandable,
      n'' = { n with slots, visible, expandable } := ⟨_, _, h'.beside apart⟩
    obtain rfl : expandable = n.expandable := count'.trans count.symm
    rfl
  · obtain ⟨more, first⟩ := h.above here
    obtain ⟨slots, visible, childCount, rules, validation, rfl⟩ :
      ∃ slots visible childCount rules validation, n' = { n with
        slots, visible, childCount, rules, validation, expandable := true, expanded := true } :=
      ⟨_, _, _, _, _, first.same⟩
    obtain ⟨less, second⟩ := h'.above here
    obtain ⟨slots, expandable, childCount', rules, validation, rfl⟩ :
      ∃ slots expandable childCount rules validation, n'' = { n with
        slots, visible, childCount, rules, validation, expandable, expanded := true } :=
      ⟨_, _, _, _, _, second.same⟩
    obtain rfl : childCount' = n.childCount := Nat.succ.inj (less.trans more)
    obtain rfl : expandable = n.expandable := count'.trans count.symm
    rfl

theorem Lasting.exists_eq (h : Lasting parent n n') : ∃ slots expanded visible rules validation,
    n' = { n with slots, expanded, visible, rules, validation } ∧ slots.value = n.slots.value ∧
      (n.id ≠ parent → expanded = n.expanded) := by
  have values : n'.slots.value = n.slots.value :=
    funext fun name => congrArg Cell.value (h.cells name)
  by_cases here : n.id = parent
  · exact ⟨_, _, _, _, _, h.above here, values, fun apart => absurd here apart⟩
  · exact ⟨_, n.expanded, _, n.rules, n.validation, h.beside here, values, fun _ => rfl⟩

theorem Lasting.id (h : Lasting parent n n') : n'.id = n.id := by
  obtain ⟨slots, expanded, visible, rules, validation, rfl, -⟩ := h.exists_eq
  rfl

end Node

namespace Tree

variable {t t' : Tree} {n last : Node} {before after : List Node}

/-- What adding a node and removing it again leaves of a tree. -/
structure Restored (parent : NodeId) (t t' : Tree) : Prop where
  ids : t'.ids = t.ids
  next : ∀ id ∈ t.ids, t'.next? id = t.next? id
  /-- Nodes find the same, and those that are not below the parent show as before. -/
  nodes : ∀ n ∈ t.nodes, ∃ n' ∈ t'.nodes, Node.Lasting parent n n' ∧
    n'.validation.value = n.validation.value ∧
    (¬ t.Below parent n.id → n'.visible = n.visible)
  markup : ∀ width, render t' width = render t width

theorem Sound.restored {parent : NodeId} (h : t.Sound) (h' : t'.Sound) (current : t.Current)
    (current' : t'.Current) (ids : t'.ids = t.ids)
    (lasting : ∀ n ∈ t.nodes, ∃ n' ∈ t'.nodes, Node.Lasting parent n n') : Restored parent t t' := by
  have kept {β : Type} {view : Node → β} (blind : ∀ n slots expanded visible rules validation,
      slots.value = n.slots.value →
        view { n with slots, expanded, visible, rules, validation } = view n) :
      t'.nodes.map view = t.nodes.map view := by
    refine map_eq_of_ids h' ids fun n hn => ?_
    obtain ⟨n', hn', last⟩ := lasting n hn
    obtain ⟨slots, expanded, visible, rules, validation, rfl, values, -⟩ := last.exists_eq
    exact ⟨_, hn', rfl, blind n _ _ _ _ _ values⟩
  have aggregate : t'.rootAggregate = t.rootAggregate :=
    rootAggregate_congr (@kept _ Node.value fun _ _ _ _ _ _ values => values)
  have links := @kept _ (fun n => (n.id, n.parent)) fun _ _ _ _ _ _ _ => rfl
  have markupParts := @kept _ Node.markupParts fun _ _ _ _ _ _ _ => rfl
  refine ⟨ids, fun id live => h.next?_congr h' ids live, fun n hn => ?_, render_congr markupParts⟩
  obtain ⟨n', hn', last⟩ := lasting n hn
  refine ⟨n', hn', last, ?_, fun outside => ?_⟩
  · have settled := (current.settled n hn).validation
    have settled' := (current'.settled n' hn').validation
    have rules := Node.ruleIssues_eq (current.fitted n hn) (current.fresh n hn)
    have rules' := Node.ruleIssues_eq (current'.fitted n' hn') (current'.fresh n' hn')
    obtain ⟨slots, expanded, visible, checks, validation, rfl, values, -⟩ := last.exists_eq
    have own : Node.value { n with slots, expanded, visible, rules := checks, validation } = n.value :=
      values
    rw [settled, settled', Node.issuesNow, Node.issuesNow, rules, rules', Node.scope, Node.scope, own,
      aggregate]
  · -- no node above it is the parent, so all of them are expanded as before
    have expanded {m m' : Node} (last : Node.Lasting parent m m') (above : t.Below m.id n.id) :
        m'.expanded = m.expanded := by
      obtain ⟨slots, expanded, visible, checks, validation, rfl, -, same⟩ := last.exists_eq
      exact same fun here => outside (here ▸ above)
    refine h.visible_congr h' hn hn' (fun m hm above => ?_) fun m' hm' above => ?_
    · obtain ⟨m', hm', kept⟩ := lasting m hm
      refine ⟨m', hm', ?_, expanded kept above⟩
      rw [kept.id, last.id]
      exact above.congr links
    · have live : m'.id ∈ t.ids := ids ▸ List.mem_map_of_mem hm'
      obtain ⟨m, hm, named⟩ := List.mem_map.mp live
      obtain ⟨k, hk, kept⟩ := lasting m hm
      obtain rfl : k = m' := h'.eq_of_id hm' hk (kept.id.trans named)
      rw [kept.id, last.id] at above
      have above : t.Below m.id n.id := above.congr links.symm
      exact ⟨m, hm, above, (expanded kept above).symm⟩

/-- A branch that has come in can be removed again by its first node. -/
theorem Grafted.restored {front rest : List Node} {e : Entry} {more : List Entry}
    (graft : Grafted n.id front rest (e :: more) t t') (h : t.Sound) (h' : t'.Sound) (current : t.Current)
    (current' : t'.Current) (hn : n ∈ t.nodes) (behind : front ≠ []) (above : e.parent = some n.id)
    (deep : ∀ f ∈ more, e.level < f.level) (stop : ∀ m ∈ rest.head?, m.level ≤ e.level) :
    ∃ t'', t'.remove e.id = .ok t'' ∧ Restored n.id t t'' := by
  obtain ⟨l, x, c, r, split, hl, rfl, rfl, hr⟩ := graft.split
  have run : t'.descendants x.id = c := by
    refine h'.descendants_branch split (fun m hm => deep _ (List.mem_map_of_mem hm)) fun m hm => ?_
    have first := congrArg List.head? hr
    rw [List.head?_map, List.head?_map, Option.mem_def.mp hm, eq_comm, Option.map_some,
      Option.map_eq_some_iff] at first
    obtain ⟨m', hm', same⟩ := first
    have level : m'.level = m.level := congrArg Entry.level same
    exact level ▸ stop m' hm'
  have inner : l ≠ [] := by
    rintro rfl
    exact behind (List.map_eq_nil_iff.mp hl.symm)
  obtain ⟨l, last, rfl⟩ := (List.eq_nil_or_concat l).resolve_left inner
  rw [List.concat_eq_append] at split hl
  obtain ⟨n', hn', host⟩ := graft.hosting n hn
  have parent : x.parent = some n'.id := host.id ▸ above
  have here : t'.nodes = l ++ last :: x :: (c ++ r) := by rw [split]; simp
  obtain ⟨t'', removed⟩ := h'.exists_remove here parent
  have ids : t''.ids = t.ids := by
    rw [h'.ids_remove_run split run removed, ids_of_entries hl, ids_of_entries hr, Tree.ids, graft.nodes]
    exact List.map_append.symm
  have sound := remove_sound h' removed
  refine ⟨t'', removed, h.restored sound current (remove_current h' current' removed) ids ?_⟩
  intro m hm
  obtain ⟨m', hm', hosting⟩ := graft.hosting m hm
  -- a node that was there before is there again, so it did not go with the branch
  have stays : ¬ t'.Under x.id m'.id := by
    have live : m'.id ∈ t''.ids := ids ▸ hosting.id ▸ List.mem_map_of_mem hm
    rw [Sound.ids_remove removed, List.mem_filter] at live
    rw [← h'.mem_goneWith_iff (split ▸ by simp) live.1]
    simpa using live.2
  obtain ⟨m'', hm'', bereft⟩ := h'.bereft current' here hn' parent removed hm' stays
  rw [host.id] at bereft
  exact ⟨m'', hm'', hosting.lasting bereft (h.expandable_count hm) (sound.expandable_count hm'')⟩

/-- What has just been added can be removed again. -/
theorem Sound.remove_add (h : t.Sound) (current : t.Current) (hn : n ∈ t.nodes) (kind : Kind)
    {parent : Option NodeId} (above : parent.or t.selection = some n.id) :
    ∃ t' t'', t.add kind parent = .ok (t', ⟨t.issued⟩) ∧ t'.remove ⟨t.issued⟩ = .ok t'' ∧
      Restored n.id t t'' := by
  obtain ⟨before, after, split⟩ := List.append_of_mem hn
  obtain ⟨t', made, -, graft⟩ := h.exists_add current split kind above
  obtain ⟨sound, current'⟩ := (add_changes made).keep current_invariant.change ⟨h, current⟩
  have deep : ∀ f ∈ kind.mandatoryChild?.toList.map fun child =>
      Entry.blank ⟨t.issued + 1⟩ child (child.tag?.getD "") (n.level + 2) ⟨t.issued⟩,
      n.level + 1 < f.level := by
    intro f hf
    obtain ⟨child, -, rfl⟩ := List.mem_map.mp hf
    exact Nat.lt_succ_self _
  obtain ⟨t'', removed, restored⟩ := graft.restored h sound current current' hn (by simp) rfl deep
    level_le_of_stop
  exact ⟨t', t'', made, removed, restored⟩

/-- Removing a node takes out exactly this node and those below it, and only its parent and the node
before it can tell. A node that has just been added leaves nothing behind. -/
theorem reached_remove {desk : Option Desk} (h : Reached desk t) (hn : n ∈ t.nodes) :
    (t.root?.map (·.id) ≠ some n.id → ∃ t' parent last, n.parent = some parent ∧
      t.remove n.id = .ok t' ∧ Pruned n.id parent last ((t.descendants n.id).map (·.id)) t t') ∧
    ∀ kind parent, parent.or t.selection = some n.id → ∃ t' t'',
      t.add kind parent = .ok (t', ⟨t.issued⟩) ∧ t'.remove ⟨t.issued⟩ = .ok t'' ∧
        Restored n.id t t'' := by
  refine ⟨fun lower => ?_, fun kind parent above => h.sound.remove_add h.current hn kind above⟩
  obtain ⟨parent, inner⟩ : ∃ parent, n.parent = some parent := by
    refine Option.ne_none_iff_exists'.mp fun top => lower ?_
    rw [root?, h.sound.root_of_parent hn top, Option.map_some]
  obtain ⟨p, hp, rfl, -⟩ := h.sound.exists_parent hn inner
  obtain ⟨front, after, split⟩ := List.append_of_mem hn
  have behind : front ≠ [] := by
    rintro rfl
    refine lower ?_
    rw [root?, split]
    rfl
  obtain ⟨before, last, rfl⟩ := (List.eq_nil_or_concat front).resolve_left behind
  rw [List.concat_eq_append, ← List.append_cons] at split
  obtain ⟨t', removed⟩ := h.sound.exists_remove split inner
  exact ⟨t', p.id, last.id, inner, removed, h.sound.pruned h.current split hp inner removed⟩

/-- The second of two filters goes with its condition. The condition of the first was before it, and
a condition that is added to the second and removed again leaves nothing behind. -/
theorem reached_remove_run :
    let t := (Document.parse (.new none)
      "<fetch><entity><filter><condition/></filter><filter><condition/></filter><link-entity/></entity></fetch>"
      {}).1
    Reached none t ∧ ∃ n ∈ t.nodes, n.id = ⟨4⟩ ∧ t.root?.map (·.id) ≠ some n.id ∧
      (∃ t' parent last, n.parent = some parent ∧ t.remove ⟨4⟩ = .ok t' ∧
        Pruned ⟨4⟩ parent last ((t.descendants ⟨4⟩).map (·.id)) t t' ∧
        t'.ids = [⟨0⟩, ⟨1⟩, ⟨2⟩, ⟨3⟩, ⟨6⟩] ∧ t'.selection = some ⟨3⟩) ∧
      ∃ t' t'', t.add .condition (some ⟨4⟩) = .ok (t', ⟨7⟩) ∧ t'.remove ⟨7⟩ = .ok t'' ∧
        Restored ⟨4⟩ t t'' := by
  intro t
  have reached : Reached none t := Reached.new.parse _ {}
  have issued : t.issued = 7 := by decide +kernel
  obtain ⟨n, found⟩ : ∃ n, t.node? ⟨4⟩ = some n := Option.isSome_iff_exists.mp (by decide +kernel)
  obtain ⟨hn, id⟩ := node?_eq_some found
  have lower : t.root?.map (·.id) ≠ some n.id := by
    rw [id]
    decide +kernel
  obtain ⟨removes, undoes⟩ := reached_remove reached hn
  obtain ⟨t', parent, last, inner, removed, pruned⟩ := removes lower
  obtain ⟨t₁, t₂, added, taken, restored⟩ := undoes .condition (some ⟨4⟩) (by rw [id]; rfl)
  rw [id] at removed pruned restored
  rw [issued] at added taken
  have left : (t.remove ⟨4⟩).toOption.map (fun t' => (t'.ids, t'.selection)) =
      some ([⟨0⟩, ⟨1⟩, ⟨2⟩, ⟨3⟩, ⟨6⟩], some ⟨3⟩) := by decide +kernel
  rw [removed] at left
  obtain ⟨ids, selection⟩ := Prod.mk.inj (Option.some.inj left)
  exact ⟨reached, n, hn, id, lower, ⟨t', parent, last, inner, removed, pruned, ids, selection⟩,
    t₁, t₂, added, taken, restored⟩

end Tree

end QueryMarkup
