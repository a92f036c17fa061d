import QueryMarkup.Proofs.Text.Boundary
import QueryMarkup.Proofs.Tree.Change
import QueryMarkup.Proofs.Tree.Rewiring

/-!
# Places that are recorded

A node may record where its tag stands in a text, and an attribute where its name stands. No
edit moves such a place: it takes nodes and attributes away, or adds some that stand nowhere.
-/
namespace QueryMarkup

/-- All that is recorded with a node names in the text what it is recorded for. -/
structure Node.Anchored (text : String) (n : Node) : Prop where
  tag : ∀ r ∈ n.span, r.Names text n.tag
  attributes : ∀ a ∈ n.attributes, ∀ r ∈ a.span, r.Names text a.name

/-- The tag of a node and the names of its attributes, each with its place. -/
def Node.places (n : Node) :
    (String × Option Text.Range) × List (String × Option Text.Range) :=
  ((n.tag, n.span), n.attributes.map fun a => (a.name, a.span))

namespace Node

variable {text : String} {n m : Node}

theorem places_fixture (n : Node) : n.fixture.places = n.places := by
  simp only [places, fixture, List.map_map]
  rfl

theorem Anchored.congr (h : n.Anchored text) (same : m.places = n.places) : m.Anchored text := by
  obtain ⟨first, rest⟩ := Prod.mk.inj same
  obtain ⟨tag, span⟩ := Prod.mk.inj first
  constructor
  · intro r hr
    rw [tag]
    exact h.tag r (span ▸ hr)
  · intro a ha r hr
    have listed := List.mem_map_of_mem (f := fun a : Attribute => (a.name, a.span)) ha
    rw [rest] at listed
    obtain ⟨b, hb, e⟩ := List.mem_map.mp listed
    obtain ⟨name, span⟩ := Prod.mk.inj e
    rw [← name]
    exact h.attributes b hb r (span ▸ hr)

/-- A new attribute stands nowhere. -/
theorem Anchored.insertAttribute (h : n.Anchored text) (name : String) :
    (n.insertAttribute name).Anchored text := by
  constructor
  · exact h.tag
  · intro a ha r hr
    rcases Attribute.mem_insertInto.mp ha with rfl | old
    · have nowhere : (Attribute.create n.kind name (n.value name)).span = none := by
        unfold Attribute.create
        split <;> rfl
      rw [nowhere] at hr
      cases hr
    · exact h.attributes a old r hr

theorem Anchored.eraseAttribute (h : n.Anchored text) (name : String) :
    (n.eraseAttribute name).Anchored text := by
  constructor
  · exact h.tag
  · intro a ha
    exact h.attributes a (List.mem_of_mem_filter ha)

end Node

namespace Tree

/-- Whatever place is recorded in the tree is right. -/
def Anchored (text : String) (t : Tree) : Prop := ∀ n ∈ t.nodes, n.Anchored text

section
variable {text : String} {t t' : Tree}

theorem anchored_fresh (t : Tree) (kind : Kind) (tag : String) (above : Option Node) :
    (t.fresh kind tag above).Anchored text := by
  constructor
  · intro r hr
    cases hr
  · intro a ha
    cases ha

/-- Only the places count, and what is no longer there has none. -/
theorem Anchored.of_subset (h : t.Anchored text)
    (sub : t'.nodes.map Node.places ⊆ t.nodes.map Node.places) : t'.Anchored text := by
  intro m hm
  obtain ⟨n, hn, same⟩ := List.mem_map.mp (sub (List.mem_map_of_mem hm))
  exact (h n hn).congr same.symm

theorem Anchored.of_keeps (h : t.Anchored text) (kept : Keeps Node.places t t') : t'.Anchored text :=
  h.of_subset fun _ hx => kept.nodes ▸ hx

theorem Anchored.alter (h : t.Anchored text) (id : NodeId) {f : Node → Node}
    (each : ∀ n : Node, n.Anchored text → (f n).Anchored text) : (t.alter id f).Anchored text := by
  intro m hm
  obtain ⟨n, hn, ⟨-, rfl⟩ | ⟨-, rfl⟩⟩ := mem_alter hm
  · exact each n (h n hn)
  · exact h m hn

theorem Anchored.writeSlot (h : t.Anchored text) (id : NodeId) (name value : String) :
    (t.writeSlot id name value).Anchored text :=
  h.of_keeps (writeSlot_keeps Node.places_fixture (fun _ _ _ => rfl) t id name value)

/-- A new node stands nowhere. -/
theorem Anchored.insert {kind : Kind} {tag : String} {parent id : NodeId} (h : t.Anchored text)
    (e : t.insert kind tag parent = .ok (t', id)) : t'.Anchored text := by
  obtain ⟨above, -, all⟩ := @mem_map_insert t _ Node.places _ _ _ _ _ (fun _ => rfl)
    (fun _ _ _ => rfl) (fun _ _ _ _ _ => rfl) e
  intro m hm
  rcases (all m.places).mp (List.mem_map_of_mem hm) with new | old
  · exact (anchored_fresh t kind tag (some above)).congr new
  · obtain ⟨n, hn, same⟩ := List.mem_map.mp old
    exact (h n hn).congr same.symm

/-- Every change leaves what is recorded right. -/
theorem Change.anchored (c : Change t t') (h : t.Anchored text) : t'.Anchored text := by
  cases c with
  | touch => exact h
  | clear =>
    intro n hn
    rw [nodes_clear] at hn
    cases hn
  | plant kind tag empty =>
    have planted : ({ t with nodes := [t.fresh kind tag none], issued := t.issued + 1 } :
        Tree).Anchored text := List.forall_mem_singleton.mpr (anchored_fresh t kind tag none)
    exact planted.of_keeps (wire_keeps_of (fun _ => rfl) (fun _ _ _ => rfl) _ _)
  | insert e => exact h.insert e
  | remove e =>
    exact h.of_subset (map_remove_subset (fun _ _ _ => rfl) (fun _ _ _ => rfl) (fun _ _ => rfl) e)
  | flip _ => exact h.of_keeps (flip_keeps (fun _ _ _ => rfl) t _)
  | select live =>
    intro n hn
    rw [nodes_setSelection] at hn
    exact h n hn
  | write id name value => exact h.writeSlot id name value
  | create value _ _ =>
    exact (h.writeSlot _ _ value).alter _ fun n hn => hn.insertAttribute _
  | discard id name =>
    exact (h.writeSlot id name "").alter id fun n hn => hn.eraseAttribute name
  | resolve e => exact h.of_keeps ((resolve_keeps e).map Node.places)

theorem Anchored.edit (h : t.Anchored text) (edit : Edit) : (t.edit edit).Anchored text :=
  (t.edit_changes edit).keep Change.anchored h

end

end Tree

end QueryMarkup
