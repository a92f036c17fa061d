import QueryMarkup.Proofs.Document.Revision
import QueryMarkup.Proofs.Tree.Lineage

/-!
# Expanding and collapsing

Expanding or collapsing a node changes one flag, and with it what shows of the node's descendants.
What shows is determined by the flags of all nodes, so doing it twice changes nothing.
-/
namespace QueryMarkup

open Document

/-- The node with a name is expanded or collapsed. -/
def Node.turn (id : NodeId) (n : Node) : Node :=
  if n.id = id then { n with expanded := !n.expanded } else n

theorem Node.turn_turn (id : NodeId) (n : Node) : (n.turn id).turn id = n := by
  unfold turn
  by_cases here : n.id = id
  · rw [if_pos here, if_pos here, Bool.not_not]
  · rw [if_neg here, if_neg here]

/-- Turning the flag does not depend on what shows. -/
theorem Node.unshaded_turn_unshaded (n : Node) (id : NodeId) :
    (n.unshaded.turn id).unshaded = (n.turn id).unshaded := by
  unfold turn unshaded
  dsimp only
  split <;> rfl

namespace Tree

variable {t t' t'' : Tree} {n : Node} {id : NodeId}

/-! ## Turning one flag -/

/-- Under a view that does not look at what shows, a flip changes one node. -/
theorem map_flip {β : Type} {view : Node → β} (h : ∀ n visible, view { n with visible } = view n)
    (t : Tree) (id : NodeId) : (t.flip id).nodes.map view =
      t.nodes.map fun n => view (n.turn id) := by
  rw [flip, (refreshVisibility_keeps h _ id).nodes, nodes_alter, List.map_map]
  rfl

theorem Sound.nodes_flip (h : t.Sound) {before after : List Node}
    (split : t.nodes = before ++ n :: after) : (t.flip n.id).nodes =
      before ++ { n with expanded := !n.expanded } ::
        spread [(n.level, n.visible && !n.expanded)] (runOf n.level after) ++
          after.drop (runOf n.level after).length := by
  have nodes := nodes_alter_of_split h.nodup split fun n => { n with expanded := !n.expanded }
  have nd := h.nodup
  rw [ids, split, List.map_append, List.map_cons, List.nodup_append] at nd
  exact nodes_refreshVisibility nodes fun m hm =>
    nd.2.2 _ (List.mem_map_of_mem hm) _ List.mem_cons_self

/-- A flip shows and hides descendants only. -/
theorem Sound.visible_flip (h : t.Sound) (hn : n ∈ t.nodes) {m m' : Node} (hm : m ∈ t.nodes)
    (hm' : m' ∈ (t.flip n.id).nodes) (id : m'.id = m.id) (outside : ¬ t.Below n.id m.id) :
    m'.visible = m.visible := by
  obtain ⟨before, after, split⟩ := List.append_of_mem hn
  have old {k : Node} (hk : k ∈ t.nodes) (same : k.id = m.id) : k.visible = m.visible := by
    rw [h.eq_of_id hm hk same]
  rw [h.nodes_flip split, List.mem_append, List.mem_append, List.mem_cons] at hm'
  rcases hm' with (front | rfl | run) | beyond
  · exact old (split ▸ List.mem_append_left _ front) id
  · have same : n = m := h.eq_of_id hm hn id
    rw [← same]
  · -- the node is a descendant
    have named : m'.id ∈ (runOf n.level after).map (·.id) := by
      rw [← map_spread (fun _ _ => rfl) [(n.level, n.visible && !n.expanded)]]
      exact List.mem_map_of_mem run
    obtain ⟨k, hk, same⟩ := List.mem_map.mp named
    rw [← h.descendants_split split] at hk
    obtain ⟨-, below⟩ := (h.mem_descendants_iff hn).mp hk
    rw [same, id] at below
    exact absurd below outside
  · refine old ?_ id
    rw [split]
    exact List.mem_append_right before (List.mem_cons_of_mem n (List.mem_of_mem_drop beyond))

/-! ## Toggling -/

/-- What is selected, if it shows. -/
def shownSelection (t : Tree) : Option NodeId :=
  t.selection.filter fun id => (t.node? id).any (·.visible)

theorem shownSelection_eq_some {s : NodeId} : t.shownSelection = some s ↔
    t.selection = some s ∧ ∃ n, t.node? s = some n ∧ n.visible = true := by
  rw [shownSelection, Option.filter_eq_some_iff, Option.any_eq_true]

theorem toggle_leaf (found : t.node? id = some n) (leaf : n.expandable = false) :
    t.toggle id = .ok t := by
  rw [toggle, getNode_eq_ok.mpr found]
  simp only [bind, Except.bind, leaf, Bool.not_false, ↓reduceIte]
  rfl

/-- Toggling is a flip that gives the selection up where it hides what is selected. -/
theorem Sound.toggle_eq (h : t.Sound) (found : t.node? id = some n) (inner : n.expandable = true) :
    t.toggle id = .ok ((t.flip id).setSelection (t.flip id).shownSelection) := by
  obtain ⟨hn, rfl⟩ := node?_eq_some found
  have sound := h.flip hn
  have flips : t.toggle n.id = .ok (((t.flip n.id).selection.bind (t.flip n.id).node?).elim (t.flip n.id)
      fun selected => if selected.visible then t.flip n.id else (t.flip n.id).setSelection none) := by
    rw [toggle, getNode_eq_ok.mpr found]
    simp only [bind, Except.bind, inner, Bool.not_true, Bool.false_eq_true, ↓reduceIte]
    unfold Tree.flip
    split <;> (rename_i chosen; rw [chosen]; rfl)
  rw [flips]
  cases chosen : (t.flip n.id).selection with
  | none =>
    rw [shownSelection, chosen, Option.filter_none, Tree.setSelection, if_pos chosen]
    rfl
  | some s =>
    obtain ⟨m, hm, rfl⟩ := List.mem_map.mp (sound.selection s chosen)
    have there := node?_of_mem sound.nodup hm
    rw [Option.bind_some, there, shownSelection, chosen, Option.filter_some, there, Option.any_some,
      Option.elim_some]
    split
    · rw [Tree.setSelection, if_pos chosen]
    · rfl

/-- What toggling a node that has children does to a tree. -/
structure Toggled (id : NodeId) (t t' : Tree) : Prop where
  /-- The same nodes in the same order: but for what shows, one flag of one node changes. -/
  nodes : t'.nodes.map Node.unshaded =
    t.nodes.map fun n => (n.turn id).unshaded
  /-- What shows changes for descendants only. -/
  outside : ∀ n ∈ t.nodes, ∀ n' ∈ t'.nodes, n'.id = n.id → ¬ t.Below id n.id → n'.visible = n.visible
  /-- Those show whose ancestors all show and are expanded. -/
  shows : ∀ n ∈ t'.nodes, n.visible = true ↔
    ∀ m ∈ t'.nodes, t'.Below m.id n.id → m.visible = true ∧ m.expanded = true
  /-- What is selected stays so exactly when it shows. -/
  selection : ∀ s, t'.selection = some s ↔
    t.selection = some s ∧ ∃ n ∈ t'.nodes, n.id = s ∧ n.visible = true
  issued : t'.issued = t.issued
  desk : t'.desk = t.desk
  revision : t'.revision = t.revision
  markup : ∀ width, render t' width = render t width

theorem desk_flip (t : Tree) (id : NodeId) : (t.flip id).desk = t.desk := desk_refreshVisibility _ id

theorem Sound.toggled (h : t.Sound) (hn : n ∈ t.nodes) :
    Toggled n.id t ((t.flip n.id).setSelection (t.flip n.id).shownSelection) := by
  have sound := h.flip hn
  have kept := @flip_keeps _ Node.markupParts (fun _ _ _ => rfl) t n.id
  constructor
  · rw [nodes_setSelection]
    exact map_flip (fun _ _ => rfl) t n.id
  · intro m hm m' hm' id outside
    rw [nodes_setSelection] at hm'
    exact h.visible_flip hn hm hm' id outside
  · intro m hm
    have still : ((t.flip n.id).setSelection (t.flip n.id).shownSelection).Sound := by
      refine sound.setSelection fun s hs => ?_
      exact sound.selection s (shownSelection_eq_some.mp hs).1
    exact still.visible_iff hm
  · intro s
    rw [selection_setSelection, shownSelection_eq_some, kept.selection, nodes_setSelection]
    refine and_congr_right fun _ => ⟨?_, ?_⟩
    · rintro ⟨m, found, visible⟩
      obtain ⟨hm, id⟩ := node?_eq_some found
      exact ⟨m, hm, id, visible⟩
    · rintro ⟨m, hm, rfl, visible⟩
      exact ⟨m, node?_of_mem sound.nodup hm, visible⟩
  · rw [issued_setSelection, kept.issued]
  · rw [desk_setSelection, desk_flip]
  · rw [revision_setSelection]
    exact revision_refreshVisibility _ _
  · intro width
    refine render_congr ?_ width
    rw [nodes_setSelection, kept.nodes]

theorem Sound.exists_toggle (h : t.Sound) (found : t.node? id = some n) (inner : n.expandable = true) :
    ∃ t', t.toggle id = .ok t' ∧ Toggled id t t' := by
  obtain ⟨hn, rfl⟩ := node?_eq_some found
  exact ⟨_, h.toggle_eq found inner, h.toggled hn⟩

/-- A node that was toggled can be toggled again. -/
theorem Toggled.node? (h : Toggled id t t') (sound : t'.Sound) (found : t.node? id = some n) :
    ∃ n', t'.node? id = some n' ∧ n'.expandable = n.expandable := by
  obtain ⟨hn, rfl⟩ := node?_eq_some found
  have turned : (n.turn n.id).unshaded ∈ t'.nodes.map Node.unshaded := by
    rw [h.nodes]
    exact List.mem_map_of_mem hn
  obtain ⟨n', hn', e⟩ := List.mem_map.mp turned
  rw [Node.turn, if_pos rfl] at e
  obtain ⟨visible, rfl⟩ := Node.exists_of_unshaded e
  have there := node?_of_mem sound.nodup hn'
  exact ⟨_, there, rfl⟩

/-- But for what shows, toggling twice turns one flag twice. -/
theorem Toggled.twice (h : Toggled id t t') (h' : Toggled id t' t'') :
    t''.nodes.map Node.unshaded = t.nodes.map Node.unshaded :=
  calc t''.nodes.map Node.unshaded
      = t'.nodes.map fun m => (m.turn id).unshaded := h'.nodes
    _ = (t'.nodes.map Node.unshaded).map fun m => (m.turn id).unshaded := by
      rw [List.map_map]
      exact List.map_congr_left fun m _ => (m.unshaded_turn_unshaded id).symm
    _ = t.nodes.map fun m => ((m.turn id).unshaded.turn id).unshaded := by
      rw [h.nodes, List.map_map]
      rfl
    _ = t.nodes.map Node.unshaded := by
      refine List.map_congr_left fun m _ => ?_
      rw [Node.unshaded_turn_unshaded, Node.turn_turn]

/-- After toggling a node twice all nodes are as before. -/
theorem Sound.toggle_toggle (h : t.Sound) (found : t.node? id = some n) :
    ∃ t' t'', t.toggle id = .ok t' ∧ t'.toggle id = .ok t'' ∧ t''.nodes = t.nodes := by
  cases inner : n.expandable with
  | false => exact ⟨t, t, toggle_leaf found inner, toggle_leaf found inner, rfl⟩
  | true =>
    obtain ⟨t', once, there⟩ := h.exists_toggle found inner
    have sound := (toggle_changes once).keep Change.sound h
    obtain ⟨n', found', same⟩ := there.node? sound found
    obtain ⟨t'', again, back⟩ := sound.exists_toggle found' (same.trans inner)
    have sound' := (toggle_changes again).keep Change.sound sound
    exact ⟨t', t'', once, again, h.nodes_eq_of_unshaded sound' (there.twice back)⟩

/-- Toggling a node does nothing where it has no children. Otherwise it turns one flag and hides
and shows descendants, and a second toggle restores all nodes. -/
theorem reached_toggle {desk : Option Desk} (h : Reached desk t) (found : t.node? id = some n) :
    (n.expandable = false → t.toggle id = .ok t) ∧
      (n.expandable = true → ∃ t', t.toggle id = .ok t' ∧ Toggled id t t') ∧
      ∃ t' t'', t.toggle id = .ok t' ∧ t'.toggle id = .ok t'' ∧ t''.nodes = t.nodes :=
  ⟨toggle_leaf found, h.sound.exists_toggle found, h.sound.toggle_toggle found⟩

/-- A node is collapsed, one below it is selected all the same, and the node above is collapsed,
too: then nothing is selected, and what was collapsed first stays so. -/
theorem reached_toggle_run :
    let t := ((Document.parse (.new none) "<fetch><entity><filter><condition/></filter></entity></fetch>"
      {}).1.edit (.toggle ⟨2⟩)).edit (.select (some ⟨3⟩))
    Reached none t ∧ t.selection = some ⟨3⟩ ∧ ∃ n, t.node? ⟨1⟩ = some n ∧ n.expandable = true ∧
      (∃ t', t.toggle ⟨1⟩ = .ok t' ∧ Toggled ⟨1⟩ t t' ∧ t'.selection = none) ∧
      ∃ t' t'', t.toggle ⟨1⟩ = .ok t' ∧ t'.toggle ⟨1⟩ = .ok t'' ∧ t''.nodes = t.nodes := by
  intro t
  have reached : Reached none t := ((@Reached.new none).parse
    "<fetch><entity><filter><condition/></filter></entity></fetch>" {}).edit (.toggle ⟨2⟩) |>.edit
      (.select (some ⟨3⟩))
  obtain ⟨n, found⟩ : ∃ n, t.node? ⟨1⟩ = some n := Option.isSome_iff_exists.mp (by decide +kernel)
  have inner : n.expandable = true := by
    have held : (t.node? ⟨1⟩).map (·.expandable) = some true := by decide +kernel
    rw [found] at held
    exact Option.some.inj held
  obtain ⟨-, toggles, twice⟩ := reached_toggle reached found
  obtain ⟨t', e, toggled⟩ := toggles inner
  have given_up : (t.toggle ⟨1⟩).toOption.map (·.selection) = some none := by decide +kernel
  rw [e] at given_up
  refine ⟨reached, by decide +kernel, n, found, inner, ⟨t', e, toggled, ?_⟩, twice⟩
  exact Option.some.inj given_up

end Tree

end QueryMarkup
