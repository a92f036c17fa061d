import QueryMarkup.Proofs.Tree.Nesting

/-!
# The arrangement of a tree

`Arranged` is what every change of a tree keeps about names, levels, parents,
sibling order and counts of children, and `Shown` what it keeps about visibility.
A change is a list operation here: a shape is inserted behind the siblings that it
passes (`Arranged.insert`), a node is removed with its run (`Arranged.remove`), or
the visibility of a run is computed anew (`shown_spread`).
-/
namespace QueryMarkup

/-- Kinds are told apart by their ranks. -/
theorem Kind.rank_injective : ∀ kind kind' : Kind, kind.rank = kind'.rank → kind = kind' := by
  intro kind kind' h
  cases kind <;> cases kind' <;> first | rfl | cases h

/-- A sibling stands before another: its rank is lower, or the same and it is older. -/
def Shape.Precedes (a b : Shape) : Prop := a.rank < b.rank ∨ a.rank = b.rank ∧ a.id.index < b.id.index

theorem Shape.Precedes.rank_le {a b : Shape} (h : a.Precedes b) : a.rank ≤ b.rank := by
  rcases h with h | ⟨h, _⟩ <;> omega

/-- Names, nesting and sibling order are as in a tree that has issued this many names. -/
structure Framed (issued : Nat) (xs : List Shape) : Prop where
  nested : Nested xs
  root : ∀ r ∈ xs.head?, r.parent = none
  distinct : (xs.map Shape.id).Nodup
  issued : ∀ s ∈ xs, s.id.index < issued
  sorted : xs.Pairwise fun a b => a.parent = b.parent → a.Precedes b

/-- Beside that, every node knows the number of its children. -/
structure Arranged (issued : Nat) (xs : List Shape) : Prop extends Framed issued xs where
  counted : ∀ s ∈ xs, s.childCount = (kidsOf xs s.id).length
  expandable : ∀ s ∈ xs, s.expandable = decide (0 < s.childCount)

/-- The root is visible, and any other node exactly when its parent is visible and expanded. -/
structure Shown (xs : List Shape) : Prop where
  below : Rooted Shape.opens (fun opens s => s.visible = opens) xs
  root : ∀ r ∈ xs.head?, r.visible = true

theorem arranged_nil (issued : Nat) : Arranged issued [] where
  nested := trivial
  root := by simp
  distinct := List.nodup_nil
  issued := by simp
  sorted := List.Pairwise.nil
  counted := by simp
  expandable := by simp

theorem shown_nil : Shown [] := ⟨trivial, by simp⟩

theorem arranged_singleton {issued : Nat} {s : Shape} (level : s.level = 0) (parent : s.parent = none)
    (id : s.id.index < issued) (count : s.childCount = 0) (leaf : s.expandable = false) :
    Arranged issued [s] where
  nested := ⟨level, trivial⟩
  root := by simpa using parent
  distinct := List.nodup_singleton _
  issued := by simpa using id
  sorted := List.pairwise_singleton _ _
  counted := by simp [kidsOf, parent, count]
  expandable := by simp [leaf, count]

theorem shown_singleton {s : Shape} (level : s.level = 0) (visible : s.visible = true) : Shown [s] :=
  ⟨⟨level, trivial⟩, by simpa using visible⟩

/-! ## What the arrangement does not depend on -/

/-- The shape of a node without what expanding and collapsing changes. -/
def Shape.unfolded (s : Shape) : Shape := { s with expanded := true, visible := true }

theorem length_kidsOf_map (f : Shape → Shape) (h : ∀ s, (f s).parent = s.parent) (xs : List Shape)
    (id : NodeId) : (kidsOf (xs.map f) id).length = (kidsOf xs id).length := by
  simp only [kidsOf, List.filter_map, List.length_map]
  congr 2
  funext s
  simp [h s]

/-- Nesting, names and sibling order do not depend on counts and flags. -/
theorem Framed.map {issued : Nat} {xs : List Shape} (h : Framed issued xs) (f : Shape → Shape)
    (keeps : ∀ s, (f s).id = s.id ∧ (f s).kind = s.kind ∧ (f s).level = s.level ∧
      (f s).parent = s.parent)
    (counted : ∀ s ∈ xs, (f s).childCount = (kidsOf xs s.id).length)
    (expandable : ∀ s ∈ xs, (f s).expandable = decide (0 < (f s).childCount)) :
    Arranged issued (xs.map f) where
  nested := (rooted_map f fun s _ => ⟨(keeps s).2.2.1, (keeps s).1, fun a => by
    rw [(keeps s).2.2.2]⟩).mpr h.nested
  root := by
    intro r hr
    rw [List.head?_map] at hr
    obtain ⟨s, hs, rfl⟩ := Option.map_eq_some_iff.mp hr
    rw [(keeps s).2.2.2]
    exact h.root s hs
  distinct := by
    have : Shape.id ∘ f = Shape.id := funext fun s => (keeps s).1
    rw [List.map_map, this]
    exact h.distinct
  issued := by
    intro s hs
    obtain ⟨r, hr, rfl⟩ := List.mem_map.mp hs
    rw [(keeps r).1]
    exact h.issued r hr
  sorted := by
    refine List.pairwise_map.mpr (h.sorted.imp fun {a b} hab => ?_)
    simp only [Shape.Precedes, Shape.rank, (keeps a).1, (keeps b).1, (keeps a).2.1, (keeps b).2.1,
      (keeps a).2.2.2, (keeps b).2.2.2] at hab ⊢
    exact hab
  counted := by
    intro s hs
    obtain ⟨r, hr, rfl⟩ := List.mem_map.mp hs
    rw [(keeps r).1, length_kidsOf_map f fun s => (keeps s).2.2.2]
    exact counted r hr
  expandable := by
    intro s hs
    obtain ⟨r, hr, rfl⟩ := List.mem_map.mp hs
    exact expandable r hr

theorem Arranged.unfolded {issued : Nat} {xs : List Shape} (h : Arranged issued xs) :
    Arranged issued (xs.map Shape.unfolded) :=
  h.map _ (fun _ => ⟨rfl, rfl, rfl, rfl⟩) h.counted h.expandable

theorem arranged_of_unfolded {issued : Nat} {xs : List Shape}
    (h : Arranged issued (xs.map Shape.unfolded)) : Arranged issued xs where
  nested := (rooted_map Shape.unfolded fun _ _ => ⟨rfl, rfl, fun _ => Iff.rfl⟩).mp h.nested
  root := by
    intro r hr
    exact h.root r.unfolded (by rw [List.head?_map, Option.mem_def.mp hr]; rfl)
  distinct := by simpa [List.map_map, Function.comp_def, Shape.unfolded] using h.distinct
  issued := fun s hs => h.issued s.unfolded (List.mem_map_of_mem hs)
  sorted := (List.pairwise_map.mp h.sorted)
  counted := by
    intro s hs
    rw [← length_kidsOf_map Shape.unfolded (fun _ => rfl)]
    exact h.counted s.unfolded (List.mem_map_of_mem hs)
  expandable := fun s hs => h.expandable s.unfolded (List.mem_map_of_mem hs)

/-- Expanding, collapsing and showing nodes keeps the arrangement. -/
theorem Arranged.congr {issued : Nat} {xs ys : List Shape} (h : Arranged issued xs)
    (e : ys.map Shape.unfolded = xs.map Shape.unfolded) : Arranged issued ys :=
  arranged_of_unfolded (e ▸ h.unfolded)

/-! ## Names, parents and children -/

section
variable {issued : Nat} {before after : List Shape} {p : Shape}

theorem Framed.not_mem (h : Framed issued (before ++ p :: after)) :
    (∀ s ∈ before, s.id ≠ p.id) ∧ ∀ s ∈ after, s.id ≠ p.id :=
  not_mem_ids_of_nodup h.distinct

theorem Framed.eq_of_id {xs : List Shape} (h : Framed issued xs) {s r : Shape} (hs : s ∈ xs)
    (hr : r ∈ xs) (e : s.id = r.id) : s = r :=
  List.inj_on_of_nodup_map h.distinct hs hr e

/-- Every node but the root has its parent before it. -/
theorem Framed.parent (h : Framed issued (before ++ p :: after)) (hb : before ≠ []) :
    ∃ m ∈ before, p.level = m.level + 1 ∧ p.parent = some m.id :=
  h.nested.source hb

/-- A recorded parent is the name of a node. -/
theorem Framed.exists_parent {xs : List Shape} (h : Framed issued xs) {s : Shape} (hs : s ∈ xs)
    {q : NodeId} (hq : s.parent = some q) : ∃ m ∈ xs, m.id = q ∧ s.level = m.level + 1 := by
  obtain ⟨l, r, rfl⟩ := List.append_of_mem hs
  by_cases hl : l = []
  · subst hl
    rw [h.root s rfl] at hq
    cases hq
  · obtain ⟨m, hm, hlevel, hp⟩ := h.parent hl
    exact ⟨m, List.mem_append_left _ hm, Option.some.inj (hp.symm.trans hq), hlevel⟩

theorem Framed.kidsOf_fresh {xs : List Shape} (h : Framed issued xs) : kidsOf xs ⟨issued⟩ = [] := by
  refine List.filter_eq_nil_iff.mpr fun s hs hp => ?_
  obtain ⟨m, hm, hid, _⟩ := h.exists_parent hs (of_decide_eq_true hp)
  have := h.issued m hm
  rw [hid] at this
  exact Nat.lt_irrefl _ this

theorem Framed.kidsOf_eq (h : Framed issued (before ++ p :: after)) :
    kidsOf (before ++ p :: after) p.id = (p.run after).filter fun s => s.level == p.level + 1 :=
  Nested.kidsOf_eq h.nested h.root h.distinct

theorem Framed.kidsOf_eq_nil_iff (h : Framed issued (before ++ p :: after)) :
    kidsOf (before ++ p :: after) p.id = [] ↔ ∀ r ∈ after.head?, r.level ≤ p.level :=
  Nested.kidsOf_eq_nil_iff h.nested h.root h.distinct

/-- A node is expandable exactly when the node after it is deeper. -/
theorem Arranged.expandable_iff (h : Arranged issued (before ++ p :: after)) :
    p.expandable = true ↔ ∃ r ∈ after.head?, p.level < r.level := by
  have hp : p ∈ before ++ p :: after := by simp
  rw [h.expandable p hp, h.counted p hp, decide_eq_true_iff, List.length_pos_iff, Ne,
    h.kidsOf_eq_nil_iff]
  cases after with
  | nil => simp
  | cons r after => simp

end

end QueryMarkup
