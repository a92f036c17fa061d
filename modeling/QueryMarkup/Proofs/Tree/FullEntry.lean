import Mathlib.Data.List.Nodup
import QueryMarkup.Proofs.Tree.Keeping
import QueryMarkup.Proofs.Tree.Slots

/-!
# Entries of nodes

The full entry of a node is its shape, its attributes without results, and its values; its entry
leaves out the flags and the count of children. Placing watchers changes no full entry, and
neither does telling them.
-/
namespace QueryMarkup

/-- The shape of a node, its attributes without results and places, and its value under each
name. -/
structure FullEntry where
  shape : Shape
  attributes : List Attribute
  value : String → String

def Node.fullEntry (n : Node) : FullEntry where
  shape := n.shape
  attributes := n.attributes.map Attribute.base
  value := n.value

/-- The id, the kind, the tag, the level and the parent of a node, its attributes without results
and places, and its value under each name. -/
structure Entry where
  id : NodeId
  kind : Kind
  tag : String
  level : Nat
  parent : Option NodeId
  attributes : List Attribute
  value : String → String

def FullEntry.entry (f : FullEntry) : Entry where
  id := f.shape.id
  kind := f.shape.kind
  tag := f.shape.tag
  level := f.shape.level
  parent := f.shape.parent
  attributes := f.attributes
  value := f.value

def Node.entry (n : Node) : Entry := n.fullEntry.entry

theorem Tree.ids_eq_shapes (t : Tree) : t.ids = t.shapes.map Shape.id := by
  rw [Tree.shapes, List.map_map]
  rfl

theorem Attribute.base_base (a : Attribute) : a.base.base = a.base := by
  cases h : a.check <;> simp [Attribute.base, h]

theorem Node.fullEntry_base (n : Node) : n.base.fullEntry = n.fullEntry := by
  simp only [Node.fullEntry, Node.base, List.map_map, FullEntry.mk.injEq]
  refine ⟨rfl, List.map_congr_left fun a _ => a.base_base, rfl⟩

theorem Node.fullEntry_unchecked (n : Node) : n.unchecked.fullEntry = n.fullEntry := rfl

/-- Watching a slot changes no full entry. -/
theorem Node.fullEntry_watch (n : Node) (name : String) (watcher : Watcher) :
    Node.fullEntry { n with slots := n.slots.watch name watcher } = n.fullEntry := by
  have h : (Node.value { n with slots := n.slots.watch name watcher }) = n.value :=
    Slots.value_watch _ _ _
  simp only [Node.fullEntry, h]
  rfl

/-- Ending a watch changes no full entry. -/
theorem Node.fullEntry_forget (n : Node) (gone : List NodeId) :
    Node.fullEntry { n with slots := n.slots.forget gone } = n.fullEntry := by
  have h : (Node.value { n with slots := n.slots.forget gone }) = n.value :=
    Slots.value_forget _ _
  simp only [Node.fullEntry, h]
  rfl

namespace Tree

section
variable {t t' : Tree}

theorem Keeps.fullEntry (h : Keeps Node.base t t') : Keeps Node.fullEntry t t' :=
  h.through Node.fullEntry_base

theorem Keeps.shape_of_fullEntry (h : Keeps Node.fullEntry t t') : Keeps Node.shape t t' :=
  h.map FullEntry.shape

theorem Keeps.entry (h : Keeps Node.fullEntry t t') : Keeps Node.entry t t' := h.map FullEntry.entry

/-- Placing watchers shows under no view that looks at neither watchers nor results. -/
theorem wire_keeps_of {β : Type} {view : Node → β} (unchecked : ∀ n, view n.unchecked = view n)
    (watch : ∀ n name watcher, view { n with slots := n.slots.watch name watcher } = view n)
    (t : Tree) (n : Node) : Keeps view t (t.wire n) := by
  have watched (t : Tree) (id : NodeId) (name : String) (watcher : Watcher) :
      Keeps view t (t.watchSlot id name watcher) :=
    keeps_alter t id _ fun n => watch n name watcher
  unfold wire
  dsimp only
  have ruled := @keeps_foldl _ view _
    (fun t e => watchSlot t e.1 e.2.1 e.2.2)
    (fun t x => watched t x.1 x.2.1 x.2.2) t
    (ruleWatches n.id ((t.root?.map (·.id)).getD n.id) n.kind)
  split
  · exact ruled
  · have wired := fun t (check : SchemaCheck) => @keeps_foldl _ view _
      (fun t e => watchSlot t e.1 e.2 (.schema n.id))
      (fun t x => watched t x.1 x.2 _) t (schemaWatches n.id n.kind check)
    exact (ruled.trans (keeps_desk _ _ _)).trans ((wired _ _).trans ((askSchema_keeps _ _).through unchecked))

theorem wire_keeps (t : Tree) (n : Node) : Keeps Node.fullEntry t (t.wire n) :=
  wire_keeps_of Node.fullEntry_unchecked Node.fullEntry_watch t n

theorem node?_of_mem {n : Node} (nd : t.ids.Nodup) (hn : n ∈ t.nodes) : t.node? n.id = some n := by
  cases h : t.node? n.id with
  | none => exact absurd rfl (node?_eq_none.mp h n hn)
  | some m =>
    obtain ⟨hm, e⟩ := node?_eq_some h
    rw [List.inj_on_of_nodup_map nd hm hn e]

/-- A change of the node with a name, among nodes with different names. -/
theorem nodes_alter_of_split {before after : List Node} {n : Node} (nd : t.ids.Nodup)
    (h : t.nodes = before ++ n :: after) (f : Node → Node) :
    (t.alter n.id f).nodes = before ++ f n :: after := by
  rw [ids, h, List.map_append, List.map_cons, List.nodup_middle, List.nodup_cons,
    List.mem_append, not_or] at nd
  have other {l : List Node} (hl : n.id ∉ l.map (·.id)) :
      l.map (fun m => if m.id = n.id then f m else m) = l := by
    refine (List.map_congr_left fun m hm => ?_).trans (List.map_id l)
    have hne : m.id ≠ n.id := fun e => hl (List.mem_map.mpr ⟨m, hm, e⟩)
    simp only [hne, ↓reduceIte, id_eq]
  rw [nodes_alter, h, List.map_append, List.map_cons, if_pos rfl, other nd.1.1, other nd.1.2]

/-- Changing the number of children changes nothing else but findings. -/
theorem setChildCount_keeps {n : Node} (nd : t.ids.Nodup) (hn : n ∈ t.nodes) (count : Nat) :
    Keeps Node.unchecked (t.alter n.id fun n => { n with childCount := count })
      (t.setChildCount n.id count) := by
  unfold setChildCount
  rw [node?_of_mem nd hn]
  dsimp only
  split
  · rename_i same
    obtain ⟨before, after, h⟩ := List.append_of_mem hn
    refine ⟨?_, rfl, rfl⟩
    rw [nodes_alter_of_split nd h, h, ← same]
  · exact keeps_foldl (fun t (x : RuleCheck × Nat) => recheckRule t n.id x.2)
      (fun t x => recheckRule_keeps t n.id x.2) _ _

/-- Counting children shows under no view that looks at neither the count nor the results of
rules. -/
theorem setChildCount_keeps_of {β : Type} {view : Node → β}
    (recheck : ∀ n aggregate index, view (n.recheckRule aggregate index) = view n)
    (count : ∀ n childCount, view { n with childCount } = view n) (t : Tree) (id : NodeId)
    (childCount : Nat) : Keeps view t (t.setChildCount id childCount) := by
  unfold setChildCount
  split
  · exact .refl _ t
  · split
    · exact .refl _ t
    · have counted : Keeps view t (t.alter id fun n => { n with childCount }) :=
        keeps_alter t id _ fun n => count n childCount
      exact counted.trans (keeps_foldl (fun t (x : RuleCheck × Nat) => recheckRule t id x.2)
        (fun t x => keeps_alter t id _ fun n => recheck n _ x.2) _ _)

theorem setChildCount_keeps_entry (t : Tree) (id : NodeId) (count : Nat) :
    Keeps Node.entry t (t.setChildCount id count) :=
  setChildCount_keeps_of (Node.view_recheckRule fun n => congrArg FullEntry.entry n.fullEntry_unchecked)
    (fun _ _ => rfl) t id count

end

end Tree

end QueryMarkup
