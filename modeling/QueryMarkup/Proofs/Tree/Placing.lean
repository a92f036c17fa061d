import QueryMarkup.Proofs.Tree.FullEntry
import QueryMarkup.Proofs.Tree.Showing
import QueryMarkup.Proofs.Tree.Splice
import QueryMarkup.Tree.Removal

/-!
# What the operations do to the shapes of nodes

Insertion, removal and refreshing the visibility of a run, each as a change of the
list of shapes.
-/
namespace QueryMarkup

namespace Tree

section
variable {t : Tree}

/-! ## Refreshing the visibility -/

/-- Setting visibility shows under no view that does not look at it. -/
theorem map_spread {β : Type} {view : Node → β} (h : ∀ n visible, view { n with visible } = view n)
    (stack : Path Bool) (nodes : List Node) : (spread stack nodes).map view = nodes.map view := by
  induction nodes generalizing stack with
  | nil => rfl
  | cons n nodes ih => simp only [spread, List.map_cons, h, ih]

theorem drop_length_takeWhile {α : Type} (p : α → Bool) (xs : List α) :
    xs.drop (xs.takeWhile p).length = xs.dropWhile p := by
  induction xs with
  | nil => rfl
  | cons x xs ih => by_cases h : p x <;> simp [h, ih]

theorem drop_runOf (level : Nat) (after : List Node) :
    after.drop (runOf level after).length = after.dropWhile fun n => decide (level < n.level) :=
  drop_length_takeWhile _ after

theorem map_shape_runOf (n : Node) (after : List Node) :
    (runOf n.level after).map Node.shape = n.shape.run (after.map Node.shape) := by
  rw [Shape.run, List.takeWhile_map]
  rfl

theorem map_shape_drop_runOf (n : Node) (after : List Node) :
    (after.drop (runOf n.level after).length).map Node.shape =
      n.shape.beyond (after.map Node.shape) := by
  rw [drop_runOf, Shape.beyond, List.dropWhile_map]
  rfl

theorem nodes_refreshVisibility {before after : List Node} {n : Node}
    (h : t.nodes = before ++ n :: after) (first : ∀ m ∈ before, m.id ≠ n.id) :
    (t.refreshVisibility n.id).nodes =
      before ++ n :: spread [(n.level, n.visible && n.expanded)] (runOf n.level after) ++
        after.drop (runOf n.level after).length := by
  rw [refreshVisibility, h, splitAt_append rfl first]

theorem shapes_refreshVisibility {before after : List Shape} {p : Shape}
    (h : t.shapes = before ++ p :: after) (first : ∀ m ∈ before, m.id ≠ p.id) :
    (t.refreshVisibility p.id).shapes =
      before ++ p :: (Shape.spread [(p.level, p.opens)] (p.run after) ++ p.beyond after) := by
  obtain ⟨l, r, hn, rfl, hr⟩ := List.map_eq_append_iff.mp h
  obtain ⟨n, after, rfl, rfl, rfl⟩ := List.map_eq_cons_iff.mp hr
  have nodes := nodes_refreshVisibility hn fun m hm => first _ (List.mem_map_of_mem hm)
  have id : (Node.shape n).id = n.id := rfl
  rw [id, shapes, nodes, List.append_assoc, List.cons_append, List.map_append, List.map_cons,
    List.map_append, map_shape_spread, map_shape_runOf, map_shape_drop_runOf]
  rfl

theorem refreshVisibility_keeps {β : Type} {view : Node → β}
    (h : ∀ n visible, view { n with visible } = view n) (t : Tree) (id : NodeId) :
    Keeps view t (t.refreshVisibility id) := by
  unfold refreshVisibility
  split
  · exact .refl view t
  · rename_i before n after e
    refine ⟨?_, rfl, rfl⟩
    obtain ⟨hn, _, _⟩ := splitAt_eq_some e
    have split : runOf n.level after ++ after.drop (runOf n.level after).length = after := by
      rw [drop_runOf]
      exact List.takeWhile_append_dropWhile
    dsimp only
    rw [hn, List.append_assoc, List.cons_append, List.map_append, List.map_cons, List.map_append,
      map_spread h, ← List.map_append, split, List.map_append, List.map_cons]

/-- A node is expanded or collapsed, and what is below it is shown or hidden. -/
def flip (t : Tree) (id : NodeId) : Tree :=
  (t.alter id fun n => { n with expanded := !n.expanded }).refreshVisibility id

/-- Under a view that looks at neither flag, a flip changes nothing. -/
theorem flip_keeps {β : Type} {view : Node → β}
    (h : ∀ n expanded visible, view { n with expanded, visible } = view n) (t : Tree) (id : NodeId) :
    Keeps view t (t.flip id) :=
  (keeps_alter t id (fun n => { n with expanded := !n.expanded }) fun n => h n _ n.visible).trans
    (refreshVisibility_keeps (fun n visible => h n n.expanded visible) _ id)

/-! ## Changes of one node -/

theorem shapes_alter (t : Tree) (id : NodeId) (f : Node → Node) (g : Shape → Shape)
    (hg : ∀ n, (f n).shape = g n.shape) :
    (t.alter id f).shapes = t.shapes.map fun s => if s.id = id then g s else s :=
  map_nodes_alter t id f Shape.id g (fun _ => rfl) hg

theorem ids_alter (t : Tree) (id : NodeId) (f : Node → Node) (h : ∀ n, (f n).id = n.id) :
    (t.alter id f).ids = t.ids :=
  (keeps_alter t id f h).nodes

/-- A change of the shape with a name, among shapes with different names. -/
theorem map_shape_of_split {before after : List Shape} {p : Shape}
    (nd : ((before ++ p :: after).map Shape.id).Nodup) (g : Shape → Shape) :
    (before ++ p :: after).map (fun s => if s.id = p.id then g s else s) = before ++ g p :: after := by
  obtain ⟨hb, ha⟩ := not_mem_ids_of_nodup nd
  have other {l : List Shape} (hl : ∀ s ∈ l, s.id ≠ p.id) :
      l.map (fun s => if s.id = p.id then g s else s) = l := by
    refine (List.map_congr_left fun s hs => ?_).trans (List.map_id l)
    simp only [hl s hs, ↓reduceIte, id_eq]
  rw [List.map_append, List.map_cons, other hb, other ha, if_pos rfl]

theorem shapes_setChildCount (nd : t.ids.Nodup) (id : NodeId) (count : Nat) :
    (t.setChildCount id count).shapes =
      t.shapes.map fun s => if s.id = id then { s with childCount := count } else s := by
  cases h : t.node? id with
  | none =>
    have absent : ∀ s ∈ t.shapes, s.id ≠ id := by
      intro s hs
      obtain ⟨n, hn, rfl⟩ := List.mem_map.mp hs
      exact node?_eq_none.mp h n hn
    rw [setChildCount, h]
    refine ((List.map_congr_left fun s hs => ?_).trans (List.map_id _)).symm
    simp only [absent s hs, ↓reduceIte, id_eq]
  | some n =>
    obtain ⟨hn, rfl⟩ := node?_eq_some h
    exact (setChildCount_keeps nd hn count).fixture.base.shape.nodes.trans
      (shapes_alter t n.id _ (fun s => { s with childCount := count }) fun _ => rfl)

/-! ## Adoption -/

/-- The tree with a new node behind the nodes that it passes. -/
def placed (t : Tree) (kind : Kind) (tag : String) (before : List Node) (above : Node)
    (after : List Node) : Tree :=
  { t with
    nodes := before ++ above :: (after.takeWhile (passes (above.level + 1) kind.rank) ++
      t.fresh kind tag (some above) :: after.dropWhile (passes (above.level + 1) kind.rank))
    issued := t.issued + 1 }

/-- A parent takes a node in that has been put below it. -/
def adopt (t : Tree) (parent : NodeId) (count : Nat) : Tree :=
  let linked := t.alter parent fun n => { n with expandable := true }
  let counted := linked.setChildCount parent count
  (counted.alter parent fun n => { n with expanded := true }).refreshVisibility parent

/-- An adoption shows under no view that looks at neither counts and flags nor the results of
rules. -/
theorem adopt_keeps_of {β : Type} {view : Node → β}
    (recheck : ∀ n aggregate index, view (n.recheckRule aggregate index) = view n)
    (flags : ∀ n childCount expandable expanded visible,
      view { n with childCount, expandable, expanded, visible } = view n) (t : Tree) (parent : NodeId)
    (count : Nat) : Keeps view t (t.adopt parent count) := by
  have linked : Keeps view t (t.alter parent fun n => { n with expandable := true }) :=
    keeps_alter t parent _ fun n => flags n n.childCount true n.expanded n.visible
  have counted := linked.trans (setChildCount_keeps_of recheck
    (fun n childCount => flags n childCount n.expandable n.expanded n.visible) _ parent count)
  have opened := counted.trans (keeps_alter _ parent (fun n => { n with expanded := true })
    fun n => flags n n.childCount n.expandable true n.visible)
  exact opened.trans (refreshVisibility_keeps
    (fun n visible => flags n n.childCount n.expandable n.expanded visible) _ parent)

theorem adopt_keeps (t : Tree) (parent : NodeId) (count : Nat) :
    Keeps Node.entry t (t.adopt parent count) :=
  adopt_keeps_of (Node.view_recheckRule fun n => congrArg FullEntry.entry n.fullEntry_unchecked)
    (fun _ _ _ _ _ => rfl) t parent count

theorem shapes_adopt {before after : List Shape} {p : Shape} (h : t.shapes = before ++ p :: after)
    (nd : (t.shapes.map Shape.id).Nodup) :
    (t.adopt p.id (p.childCount + 1)).shapes =
      before ++ p.adopt :: (Shape.spread [(p.level, p.adopt.opens)] (p.run after) ++
        p.beyond after) := by
  rw [h] at nd
  have nd' {q : Shape} (e : q.id = p.id) : ((before ++ q :: after).map Shape.id).Nodup := by
    rw [List.map_append, List.map_cons, e]
    rwa [List.map_append, List.map_cons] at nd
  have linked : (t.alter p.id fun n => { n with expandable := true }).shapes =
      before ++ { p with expandable := true } :: after := by
    rw [shapes_alter t p.id _ (fun s => { s with expandable := true }) fun _ => rfl, h]
    exact map_shape_of_split nd _
  have counted : ((t.alter p.id fun n => { n with expandable := true }).setChildCount p.id
      (p.childCount + 1)).shapes =
        before ++ { p with expandable := true, childCount := p.childCount + 1 } :: after := by
    rw [shapes_setChildCount (by rw [ids_eq_shapes, linked]; exact nd' rfl), linked]
    exact map_shape_of_split (nd' (q := { p with expandable := true }) rfl) fun s =>
      { s with childCount := p.childCount + 1 }
  have opened : (((t.alter p.id fun n => { n with expandable := true }).setChildCount p.id
      (p.childCount + 1)).alter p.id fun n => { n with expanded := true }).shapes =
        before ++ p.adopt :: after := by
    rw [shapes_alter _ p.id _ (fun s => { s with expanded := true }) fun _ => rfl, counted]
    exact map_shape_of_split
      (nd' (q := { p with expandable := true, childCount := p.childCount + 1 }) rfl) _
  exact shapes_refreshVisibility opened (not_mem_ids_of_nodup nd).1

/-- An insertion puts the new node in its place, lets it watch, and has the parent adopt it. -/
theorem insert_eq {kind : Kind} {tag : String} {parent : NodeId} {before after : List Node}
    {above : Node} (h : splitAt parent t.nodes = some (before, above, after)) :
    t.insert kind tag parent =
      .ok ((((t.placed kind tag before above after).wire (t.fresh kind tag (some above))).adopt parent
        (above.childCount + 1)).touch, ⟨t.issued⟩) := by
  unfold insert placed
  rw [h, ← drop_length_takeWhile, ← List.cons_append, ← List.append_assoc]
  rfl

theorem insert_eq_error {kind : Kind} {tag : String} {parent : NodeId}
    (h : splitAt parent t.nodes = none) :
    t.insert kind tag parent = .error (.unknownNode parent) := by
  unfold insert
  rw [h]

/-- An insertion that is not refused puts a new node under a parent that is there. -/
theorem insert_eq_ok {kind : Kind} {tag : String} {parent id : NodeId} {t' : Tree}
    (e : t.insert kind tag parent = .ok (t', id)) :
    ∃ before above after, splitAt parent t.nodes = some (before, above, after) ∧ id = ⟨t.issued⟩ ∧
      t' = (((t.placed kind tag before above after).wire (t.fresh kind tag (some above))).adopt parent
        (above.childCount + 1)).touch := by
  cases cut : splitAt parent t.nodes with
  | none =>
    rw [insert_eq_error cut] at e
    cases e
  | some split =>
    obtain ⟨before, above, after⟩ := split
    rw [insert_eq cut] at e
    cases e
    exact ⟨before, above, after, rfl, rfl, rfl⟩

/-- An insertion adds one node and changes the entry of no other. -/
theorem insert_keeps {kind : Kind} {tag : String} {parent id : NodeId} {before after : List Node}
    {above : Node} {t' : Tree} (h : splitAt parent t.nodes = some (before, above, after))
    (e : t.insert kind tag parent = .ok (t', id)) :
    id = ⟨t.issued⟩ ∧ Keeps Node.entry (t.placed kind tag before above after) t' := by
  rw [insert_eq h] at e
  obtain ⟨rfl, rfl⟩ := Prod.mk.inj (Except.ok.inj e)
  refine ⟨rfl, Keeps.trans ?_ (keeps_touch _ _)⟩
  exact (wire_keeps _ _).entry.trans (adopt_keeps _ _ _)

theorem Keeps.ids_of_entry {t t' : Tree} (h : Keeps Node.entry t t') : t'.ids = t.ids := by
  have := congrArg (List.map Entry.id) h.nodes
  rwa [List.map_map, List.map_map] at this

theorem mem_placed {kind : Kind} {tag : String} {before after : List Node} {above n : Node}
    (h : t.nodes = before ++ above :: after) :
    n ∈ (t.placed kind tag before above after).nodes ↔
      n = t.fresh kind tag (some above) ∨ n ∈ t.nodes := by
  have cut : ∀ n, n ∈ after ↔ n ∈ after.takeWhile (passes (above.level + 1) kind.rank) ∨
      n ∈ after.dropWhile (passes (above.level + 1) kind.rank) := by
    intro n
    rw [← List.mem_append, List.takeWhile_append_dropWhile]
  rw [h, placed]
  simp only [List.mem_append, List.mem_cons, cut]
  constructor
  · rintro (h | h | h | h | h) <;> simp only [h, true_or, or_true]
  · rintro (h | h | h | h | h) <;> simp only [h, true_or, or_true]

/-- An insertion adds one node and changes no other, under a view that looks at neither watchers,
counts, flags nor results. -/
theorem mem_map_insert {β : Type} {view : Node → β} {kind : Kind} {tag : String} {parent id : NodeId}
    {t' : Tree} (unchecked : ∀ n, view n.unchecked = view n)
    (watch : ∀ n name watcher, view { n with slots := n.slots.watch name watcher } = view n)
    (flags : ∀ n childCount expandable expanded visible,
      view { n with childCount, expandable, expanded, visible } = view n)
    (e : t.insert kind tag parent = .ok (t', id)) : ∃ above ∈ t.nodes, ∀ x,
      x ∈ t'.nodes.map view ↔ x = view (t.fresh kind tag (some above)) ∨ x ∈ t.nodes.map view := by
  obtain ⟨before, above, after, cut, -, rfl⟩ := insert_eq_ok e
  have nodes := (splitAt_eq_some cut).1
  have wired := wire_keeps_of unchecked watch (t.placed kind tag before above after)
    (t.fresh kind tag (some above))
  have kept := wired.trans (adopt_keeps_of (Node.view_recheckRule unchecked) flags _ parent
    (above.childCount + 1))
  refine ⟨above, by simp [nodes], fun x => ?_⟩
  rw [touch, kept.nodes]
  simp only [List.mem_map, mem_placed nodes]
  constructor
  · rintro ⟨n, rfl | hn, rfl⟩
    · exact .inl rfl
    · exact .inr ⟨n, hn, rfl⟩
  · rintro (rfl | ⟨n, hn, rfl⟩)
    · exact ⟨_, .inl rfl, rfl⟩
    · exact ⟨n, .inr hn, rfl⟩

theorem mem_ids_placed {kind : Kind} {tag : String} {before after : List Node} {above : Node}
    (h : t.nodes = before ++ above :: after) {id : NodeId} :
    id ∈ (t.placed kind tag before above after).ids ↔ id = ⟨t.issued⟩ ∨ id ∈ t.ids := by
  simp only [ids, List.mem_map, mem_placed h]
  constructor
  · rintro ⟨n, rfl | hn, rfl⟩
    · exact .inl rfl
    · exact .inr ⟨n, hn, rfl⟩
  · rintro (rfl | ⟨n, hn, rfl⟩)
    · exact ⟨_, .inl rfl, rfl⟩
    · exact ⟨n, .inr hn, rfl⟩

theorem passes_iff {level rank : Nat} {n : Node} :
    passes level rank n = true ↔ n.shape.Passed level rank := by
  simp only [passes, Shape.Passed, Bool.or_eq_true, Bool.and_eq_true, beq_iff_eq, decide_eq_true_eq]
  rfl

theorem passed_of_mem {level rank : Nat} {after : List Node} {s : Shape}
    (h : s ∈ (after.takeWhile (passes level rank)).map Node.shape) : s.Passed level rank := by
  obtain ⟨n, hn, rfl⟩ := List.mem_map.mp h
  exact passes_iff.mp (List.mem_takeWhile_imp hn)

theorem not_passed_of_head {level rank : Nat} {after : List Node} {s : Shape}
    (h : s ∈ ((after.dropWhile (passes level rank)).map Node.shape).head?) :
    ¬ s.Passed level rank := by
  rw [List.head?_map] at h
  obtain ⟨n, hn, rfl⟩ := Option.map_eq_some_iff.mp h
  have := List.head?_dropWhile_not (passes level rank) after
  rw [hn] at this
  intro hp
  exact absurd (passes_iff.mpr hp) (by simpa using this)

/-- The shapes before an insertion, cut where the new node goes. -/
theorem shapes_of_split {before after : List Node} {above : Node} (h : t.nodes = before ++ above :: after)
    (passes : Node → Bool) :
    t.shapes = before.map Node.shape ++ above.shape :: ((after.takeWhile passes).map Node.shape ++
      (after.dropWhile passes).map Node.shape) := by
  rw [← List.map_append, List.takeWhile_append_dropWhile, shapes, h, List.map_append, List.map_cons]

theorem shapes_wire_placed (t : Tree) (kind : Kind) (tag : String) (before : List Node)
    (above : Node) (after : List Node) (n : Node) :
    ((t.placed kind tag before above after).wire n).shapes =
      before.map Node.shape ++ above.shape ::
        ((after.takeWhile (passes (above.level + 1) kind.rank)).map Node.shape ++
          (t.fresh kind tag (some above)).shape ::
            (after.dropWhile (passes (above.level + 1) kind.rank)).map Node.shape) := by
  rw [shapes, (wire_keeps _ n).shape_of_fullEntry.nodes, placed, List.map_append, List.map_cons,
    List.map_append, List.map_cons]

/-! ## Removal -/

/-- The tree without some nodes. -/
def cut (t : Tree) (gone : List NodeId) : Tree :=
  { t with nodes := t.nodes.filter fun n => !gone.contains n.id }

theorem forget_keeps_of {β : Type} {view : Node → β} (t : Tree) (gone : List NodeId)
    (forget : ∀ n, view { n with slots := n.slots.forget gone } = view n) :
    Keeps view t (t.forget gone) where
  nodes := by
    rw [Tree.forget, List.map_map]
    exact List.map_congr_left fun n _ => forget n
  issued := rfl
  selection := rfl

theorem forget_keeps (t : Tree) (gone : List NodeId) : Keeps Node.fullEntry t (t.forget gone) :=
  forget_keeps_of t gone fun n => n.fullEntry_forget gone

theorem shapes_cut (t : Tree) (gone : List NodeId) :
    (t.cut gone).shapes = t.shapes.filter fun s => !gone.contains s.id := by
  rw [shapes, shapes, cut, List.filter_map]
  rfl

/-- A removal that is not refused, step by step. -/
theorem remove_eq_ok {id : NodeId} {t' : Tree} (e : t.remove id = .ok t') :
    ∃ before last node after parent, splitAt id t.nodes = some (before ++ [last], node, after) ∧
      node.parent = some parent ∧
      t' = ((((((t.alter last.id fun n => { n with
          expandable := ((after.drop (runOf node.level after).length).head?.map fun n =>
            decide (last.level < n.level)).getD false }).setChildCount parent
          (((t.node? parent).map (·.childCount)).getD 0 - 1)).cut
        (id :: (runOf node.level after).map (·.id))).forget
        (id :: (runOf node.level after).map (·.id))).setSelection (some last.id))).touch := by
  unfold remove at e
  split at e
  · cases e
  · rename_i before node after hs
    split at e
    · cases e
    · cases e
    · rename_i parent last hp hl
      obtain ⟨before, rfl⟩ := List.getLast?_eq_some_iff.mp hl
      exact ⟨before, last, node, after, parent, hs, hp, (Except.ok.inj e).symm⟩

theorem nodes_setSelection (t : Tree) (selection : Option NodeId) :
    (t.setSelection selection).nodes = t.nodes := by
  unfold setSelection
  split <;> rfl

/-- What goes with a node when it is removed. -/
def goneWith (t : Tree) (id : NodeId) : List NodeId := id :: (t.descendants id).map (·.id)

/-- A removal takes a node and its descendants away, and the others no longer hear from them.
There is nothing else to see under a view that looks at neither counts, flags nor the results
of rules. -/
theorem map_remove {β : Type} {view : Node → β} {id : NodeId} {t' : Tree} (ids : β → NodeId)
    (forget : List NodeId → β → β) (named : ∀ n, ids (view n) = n.id)
    (forgets : ∀ n gone, view { n with slots := n.slots.forget gone } = forget gone (view n))
    (recheck : ∀ n aggregate index, view (n.recheckRule aggregate index) = view n)
    (flags : ∀ n childCount expandable, view { n with childCount, expandable } = view n)
    (e : t.remove id = .ok t') : t'.nodes.map view =
      ((t.nodes.map view).filter fun b => !(t.goneWith id).contains (ids b)).map
        (forget (t.goneWith id)) := by
  obtain ⟨before, last, n, after, parent, cut, -, rfl⟩ := remove_eq_ok e
  have gone : id :: (runOf n.level after).map (·.id) = t.goneWith id := by
    rw [goneWith, descendants, cut]
  rw [gone]
  generalize t.goneWith id = gone
  generalize ((after.drop (runOf n.level after).length).head?.map fun n =>
    decide (last.level < n.level)).getD false = deeper
  generalize ((t.node? parent).map (·.childCount)).getD 0 - 1 = count
  have orphaned : Keeps view t
      ((t.alter last.id fun n => { n with expandable := deeper }).setChildCount parent count) :=
    (keeps_alter t last.id (fun n => { n with expandable := deeper })
      fun n => flags n n.childCount deeper).trans
        (setChildCount_keeps_of recheck (fun n count => flags n count n.expandable) _ parent count)
  rw [touch, nodes_setSelection, Tree.forget, Tree.cut, ← orphaned.nodes, List.filter_map, List.map_map,
    List.map_map]
  simp only [Function.comp_def, named, forgets]

/-- A removal only takes nodes away, under a view that looks at neither watchers, counts, flags
nor the results of rules. -/
theorem map_remove_subset {β : Type} {view : Node → β} {id : NodeId} {t' : Tree}
    (recheck : ∀ n aggregate index, view (n.recheckRule aggregate index) = view n)
    (flags : ∀ n childCount expandable, view { n with childCount, expandable } = view n)
    (forget : ∀ n gone, view { n with slots := n.slots.forget gone } = view n)
    (e : t.remove id = .ok t') : t'.nodes.map view ⊆ t.nodes.map view := by
  have left := @map_remove t _ (fun n => (n.id, view n)) id t' Prod.fst (fun _ b => b)
    (fun _ => rfl) (fun n gone => congrArg (Prod.mk n.id) (forget n gone))
    (fun n aggregate index => congrArg (Prod.mk n.id) (recheck n aggregate index))
    (fun n count deeper => congrArg (Prod.mk n.id) (flags n count deeper)) e
  intro x hx
  obtain ⟨m, hm, rfl⟩ := List.mem_map.mp hx
  have there := List.mem_map_of_mem (f := fun n => (n.id, view n)) hm
  rw [left, List.map_id'] at there
  obtain ⟨n, hn, same⟩ := List.mem_map.mp (List.mem_of_mem_filter there)
  exact List.mem_map.mpr ⟨n, hn, congrArg Prod.snd same⟩

/-- The shapes when the node before a removed run and the parent know of the removal. -/
theorem shapes_orphaned (nd : t.ids.Nodup) (last parent : NodeId) (deeper : Bool) :
    ((t.alter last fun n => { n with expandable := deeper }).setChildCount parent
      (((t.node? parent).map (·.childCount)).getD 0 - 1)).shapes =
        t.shapes.map (Shape.bereave last parent deeper) := by
  have linked := shapes_alter t last (fun n => { n with expandable := deeper })
    (fun s => { s with expandable := deeper }) fun _ => rfl
  have ids := ids_alter t last (fun n => { n with expandable := deeper }) fun _ => rfl
  rw [shapes_setChildCount (by rw [ids]; exact nd), linked, List.map_map]
  refine List.map_congr_left fun s hs => ?_
  obtain ⟨n, hn, rfl⟩ := List.mem_map.mp hs
  have count : n.shape.id = parent →
      ((t.node? parent).map (·.childCount)).getD 0 = n.shape.childCount := by
    intro hp
    rw [← hp, show t.node? n.shape.id = some n from node?_of_mem nd hn]
    rfl
  have id : (if n.shape.id = last then { n.shape with expandable := deeper } else n.shape).id =
      n.shape.id := by split <;> rfl
  simp only [Function.comp_apply, id, Shape.bereave]
  by_cases hl : n.shape.id = last
  · by_cases hp : n.shape.id = parent
    · simp only [if_pos hl, if_pos hp, count hp]
    · simp only [if_pos hl, if_neg hp]
  · by_cases hp : n.shape.id = parent
    · simp only [if_neg hl, if_pos hp, count hp]
    · simp only [if_neg hl, if_neg hp]

@[simp] theorem shapes_setSelection (t : Tree) (selection : Option NodeId) :
    (t.setSelection selection).shapes = t.shapes := by
  unfold Tree.setSelection
  split <;> rfl

@[simp] theorem issued_setSelection (t : Tree) (selection : Option NodeId) :
    (t.setSelection selection).issued = t.issued := by
  unfold Tree.setSelection
  split <;> rfl

@[simp] theorem ids_setSelection (t : Tree) (selection : Option NodeId) :
    (t.setSelection selection).ids = t.ids := by
  unfold Tree.setSelection
  split <;> rfl

@[simp] theorem selection_setSelection (t : Tree) (selection : Option NodeId) :
    (t.setSelection selection).selection = selection := by
  unfold Tree.setSelection
  split
  · assumption
  · rfl

theorem map_ids_runOf (n : Node) (after : List Node) :
    n.id :: (runOf n.level after).map (·.id) =
      (n.shape :: n.shape.run (after.map Node.shape)).map Shape.id := by
  rw [← map_shape_runOf, List.map_cons, List.map_map]
  rfl

theorem deeper_eq (n last : Node) (after : List Node) :
    ((after.drop (runOf n.level after).length).head?.map fun m =>
      decide (last.level < m.level)).getD false =
        decide (∃ r ∈ (n.shape.beyond (after.map Node.shape)).head?, last.shape.level < r.level) := by
  rw [← map_shape_drop_runOf]
  cases after.drop (runOf n.level after).length with
  | nil => simp
  | cons m rest => simp [Node.shape]

/-- The shapes after a removal: the node and its run are gone, and the node before it
and the parent know. -/
theorem shapes_remove {id : NodeId} {t' : Tree} (nd : t.ids.Nodup) (e : t.remove id = .ok t') :
    ∃ before last n run rest, ∃ parent : NodeId,
      t.shapes = before ++ last :: n :: (run ++ rest) ∧ n.id = id ∧ n.parent = some parent ∧
      (∀ s ∈ run, n.level < s.level) ∧ (∀ r ∈ rest.head?, r.level ≤ n.level) ∧
      t'.shapes = (before ++ last :: rest).map
        (Shape.bereave last.id parent (decide (∃ r ∈ rest.head?, last.level < r.level))) ∧
      t'.issued = t.issued ∧ t'.selection = some last.id := by
  obtain ⟨before, last, n, after, parent, hs, hp, rfl⟩ := remove_eq_ok e
  obtain ⟨hn, rfl, -⟩ := splitAt_eq_some hs
  rw [deeper_eq, map_ids_runOf]
  have split : t.shapes = before.map Node.shape ++ last.shape :: n.shape ::
      (n.shape.run (after.map Node.shape) ++ n.shape.beyond (after.map Node.shape)) := by
    rw [Shape.run_append_beyond, shapes, hn]
    simp
  refine ⟨_, last.shape, n.shape, _, _, parent, split, rfl, hp, fun _ => Shape.level_lt_of_mem_run,
    fun _ => Shape.level_le_of_head_beyond, ?_, ?_, selection_setSelection _ _⟩
  · generalize decide (∃ r ∈ (n.shape.beyond (after.map Node.shape)).head?,
      last.shape.level < r.level) = deeper
    have distinct := t.ids_eq_shapes ▸ nd
    rw [split, List.append_cons, ← List.cons_append] at distinct
    refine (shapes_setSelection _ _).trans ((forget_keeps _ _).shape_of_fullEntry.nodes.trans ?_)
    refine (shapes_cut _ _).trans ?_
    rw [shapes_orphaned nd last.id parent deeper, List.filter_map, List.append_cons _ last.shape,
      ← filter_gone distinct, split, List.append_cons, ← List.cons_append]
    rfl
  · exact (issued_setSelection _ _).trans (setChildCount_keeps_entry _ _ _).issued

end

end Tree

end QueryMarkup
