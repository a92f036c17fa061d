import QueryMarkup.Proofs.Tree.Sketch

/-!
# Proper trees

Reading takes down what it is told, so an element may be unknown, stand where it may not, or
have names that are not declared. It is proper when it does none of this. Reading the markup of a
tree in which all elements are proper finds no fault with any of them.
-/
namespace QueryMarkup

namespace Entry

/-- Markup can say what the element is: its tag is a name and determines its kind, and its
attributes have names. -/
structure Lettered (e : Entry) : Prop where
  tag : Markup.isName e.tag.toList = true
  kind : Kind.ofTag e.tag = e.kind
  named : ∀ a ∈ e.attributes, Markup.isName a.name.toList = true ∨
    a.name = contentName ∧ e.kind.acceptsContent = true

/-- The element around one among others is of this kind, or there is none. -/
def Inside (xs : List Entry) (e : Entry) (around : Option Kind) : Prop :=
  e.parent = none ∧ around = none ∨ ∃ f ∈ xs, e.parent = some f.id ∧ around = some f.kind

/-- The element is known and stands where it may, and its attributes are declared. -/
structure Proper (xs : List Entry) (e : Entry) : Prop where
  placed : ∃ around, Inside xs e around ∧ checkPlacement e.kind e.tag around = []
  declared : ∀ a ∈ e.attributes, (e.kind.attribute? a.name).isSome = true

section
variable {xs ys : List Entry} {e : Entry} {around around' : Option Kind}

theorem Inside.mono (h : Inside xs e around) (sub : xs ⊆ ys) : Inside ys e around := by
  rcases h with top | ⟨f, hf, parent⟩
  · exact .inl top
  · exact .inr ⟨f, sub hf, parent⟩

theorem Proper.mono (h : Proper xs e) (sub : xs ⊆ ys) : Proper ys e := by
  obtain ⟨around, inside, fits⟩ := h.placed
  exact ⟨⟨around, inside.mono sub, fits⟩, h.declared⟩

/-- Elements stay around others when neither names nor kinds change. -/
theorem Inside.map (h : Inside xs e around) {f : Entry → Entry}
    (fixed : ∀ x, (f x).id = x.id ∧ (f x).kind = x.kind) : Inside (xs.map f) e around := by
  rcases h with top | ⟨x, hx, parent, kind⟩
  · exact .inl top
  · right
    refine ⟨f x, List.mem_map_of_mem hx, ?_, ?_⟩
    · rw [(fixed x).1, parent]
    · rw [(fixed x).2, kind]

/-- Where names are distinct there is one element around another. -/
theorem Inside.unique (h : Inside xs e around) (h' : Inside xs e around')
    (nd : (xs.map Entry.id).Nodup) : around = around' := by
  rcases h with ⟨top, rfl⟩ | ⟨f, hf, parent, rfl⟩
  · rcases h' with ⟨-, rfl⟩ | ⟨f', -, parent', -⟩
    · rfl
    · rw [top] at parent'
      cases parent'
  · rcases h' with ⟨top, -⟩ | ⟨f', hf', parent', rfl⟩
    · rw [top] at parent
      cases parent
    · have same : f.id = f'.id := Option.some.inj (parent.symm.trans parent')
      rw [List.inj_on_of_nodup_map nd hf hf' same]

end

end Entry

/-! ## The element around another -/

/-- The innermost ancestor on the path after some nodes is the last of them that is higher. -/
theorem Path.head?_upTo_pastAll {α : Type} (mark : Shape → α) (xs : List Shape) (level : Nat) :
    ((Path.pastAll mark [] xs).upTo level).head? =
      (xs.reverse.find? fun s => decide (s.level < level)).map fun s => (s.level, mark s) := by
  induction xs using List.reverseRecOn with
  | nil => rfl
  | append_singleton xs s ih =>
    rw [Path.pastAll_append, Path.pastAll_cons, Path.pastAll_nil, List.reverse_concat]
    by_cases higher : s.level < level
    · rw [Path.past, Path.upTo_cons_of_lt higher, List.find?_cons_of_pos (by simpa using higher)]
      rfl
    · rw [Path.upTo_past mark (Nat.not_lt.mp higher), ih,
        List.find?_cons_of_neg (by simpa using higher)]

namespace Sketch

theorem parentKind_bare (before : List Sketch) (level : Nat) :
    parentKind (before.map bare) level = parentKind before level := by
  rw [parentKind, parentKind, ← List.map_reverse, List.find?_map, Option.map_map]
  rfl

end Sketch

namespace Tree

variable {t : Tree}

/-- All elements are known, stand where they may, and have declared attributes only. -/
def Proper (t : Tree) : Prop := ∀ e ∈ t.entries, e.Proper t.entries

/-- The last element before another that is higher is the one around it. -/
theorem Sound.inside (h : t.Sound) {before after : List Node} {n : Node}
    (split : t.nodes = before ++ n :: after) :
    n.entry.Inside t.entries (Sketch.parentKind (before.map Node.sketch) n.level) := by
  have arranged := h.arranged
  have shapes : t.shapes = before.map Node.shape ++ n.shape :: after.map Node.shape := by
    rw [Tree.shapes, split, List.map_append, List.map_cons]
  rw [shapes] at arranged
  by_cases front : before = []
  · subst front
    exact .inl ⟨arranged.root n.shape rfl, rfl⟩
  · have inner : before.map Node.shape ≠ [] := by simpa using front
    obtain ⟨⟨a, ha, -, parent⟩, -⟩ := ((rooted_append inner).mp arranged.nested).2
    rw [Path.head?_upTo_pastAll, ← List.map_reverse, List.find?_map, Option.map_map] at ha
    obtain ⟨m, hm, rfl⟩ := Option.map_eq_some_iff.mp ha
    have mem : m ∈ before := List.mem_reverse.mp (List.mem_of_find?_eq_some hm)
    right
    refine ⟨m.entry, ?_, parent, ?_⟩
    · rw [entries, split]
      exact List.mem_map_of_mem (List.mem_append_left _ mem)
    · rw [Sketch.parentKind, ← List.map_reverse, List.find?_map]
      exact congrArg (Option.map Sketch.kind ∘ Option.map Node.sketch) hm

/-- There is nothing to be said against the elements of a proper tree. -/
theorem Proper.not_faulty (h : t.Proper) (sound : t.Sound) (kind : DiagnosticKind) :
    ¬ Sketch.Faulty (t.sketches.map Sketch.bare) kind := by
  rintro ⟨before, x, after, split, blamed⟩
  rw [sketches, List.map_map] at split
  obtain ⟨front, tail, nodes, rfl, ht⟩ := List.map_eq_append_iff.mp split
  obtain ⟨n, back, rfl, rfl, -⟩ := List.map_eq_cons_iff.mp ht
  have hn : n.entry ∈ t.entries := List.mem_map_of_mem (nodes ▸ by simp)
  obtain ⟨⟨around, inside, fits⟩, declared⟩ := h n.entry hn
  have level : (n.sketch.bare).level = n.level := rfl
  rcases blamed with misplaced | ⟨-, p, hp, undeclared⟩
  · have nd := ids_eq_entries t ▸ sound.nodup
    have same := (sound.inside nodes).unique inside nd
    rw [Function.comp_apply, level, ← List.map_map, Sketch.parentKind_bare, same] at misplaced
    have nothing : checkPlacement n.sketch.bare.kind n.sketch.bare.tag around = [] := fits
    rw [nothing] at misplaced
    cases misplaced
  · rw [Function.comp_apply, Sketch.plain_bare] at hp
    have pair : p ∈ n.pairs := (Sketch.mem_plain.mp hp).1
    have name := n.map_fst_pairs_sublist.subset (List.mem_map_of_mem pair)
    rw [← Node.names_entry] at name
    obtain ⟨a, ha, named⟩ := List.mem_map.mp name
    have known := declared a ha
    have unknown : n.kind.attribute? p.1 = none := undeclared
    have kind : n.entry.kind = n.kind := rfl
    rw [kind, named, unknown] at known
    cases known

end Tree

end QueryMarkup
