import Mathlib.Data.List.Nodup
import QueryMarkup.Proofs.Tree.Path

/-!
# The nesting of a tree

The levels of a list of nodes and the parents that they record say the same:
the children of a node are the nodes one level deeper in the run of deeper nodes
after it.
-/
namespace QueryMarkup

/-- Every node records its innermost ancestor as its parent. -/
abbrev Nested (xs : List Shape) : Prop := Rooted Shape.id (fun p s => s.parent = some p) xs

/-- The nodes that record a node as their parent, in their order. -/
def kidsOf (xs : List Shape) (id : NodeId) : List Shape :=
  xs.filter fun s => decide (s.parent = some id)

/-- The deeper shapes right after a node: its descendants. -/
def Shape.run (s : Shape) (after : List Shape) : List Shape :=
  after.takeWhile fun r => decide (s.level < r.level)

/-- What follows the descendants of a node. -/
def Shape.beyond (s : Shape) (after : List Shape) : List Shape :=
  after.dropWhile fun r => decide (s.level < r.level)

theorem Shape.run_append_beyond (s : Shape) (after : List Shape) :
    s.run after ++ s.beyond after = after := List.takeWhile_append_dropWhile

theorem Shape.level_lt_of_mem_run {s r : Shape} {after : List Shape} (h : r ∈ s.run after) :
    s.level < r.level := by
  simpa using List.mem_takeWhile_imp h

theorem Shape.level_le_of_head_beyond {s r : Shape} {after : List Shape}
    (h : r ∈ (s.beyond after).head?) : r.level ≤ s.level := by
  have := List.head?_dropWhile_not (fun r : Shape => decide (s.level < r.level)) after
  rw [Shape.beyond] at h
  rw [Option.mem_def.mp h] at this
  simpa using this

section
variable {before after : List Shape} {p : Shape}

theorem not_mem_ids_of_nodup (h : ((before ++ p :: after).map Shape.id).Nodup) :
    (∀ s ∈ before, s.id ≠ p.id) ∧ ∀ s ∈ after, s.id ≠ p.id := by
  simp only [List.map_append, List.map_cons, List.nodup_append, List.nodup_cons] at h
  obtain ⟨_, ⟨hp, _⟩, hd⟩ := h
  refine ⟨fun s hs => hd _ (List.mem_map_of_mem hs) _ List.mem_cons_self, ?_⟩
  intro s hs e
  exact hp (e ▸ List.mem_map_of_mem hs)

/-- No node records a later node or itself as its parent. -/
theorem Nested.no_child_before (h : Nested (before ++ p :: after))
    (root : ∀ r ∈ (before ++ p :: after).head?, r.parent = none)
    (nd : ((before ++ p :: after).map Shape.id).Nodup) :
    ∀ s ∈ before ++ [p], s.parent ≠ some p.id := by
  have earlier {l r : List Shape} {s : Shape} (split : before ++ p :: after = l ++ s :: r)
      (hl : l ⊆ before) (e : s.parent = some p.id) : False := by
    by_cases hn : l = []
    · subst hn
      have := root s (by rw [split]; rfl)
      rw [this] at e
      cases e
    · rw [split] at h
      obtain ⟨m, hm, _, hp⟩ := Rooted.source h hn
      exact (not_mem_ids_of_nodup nd).1 m (hl hm) (Option.some.inj (hp.symm.trans e))
  intro s hs e
  rcases List.mem_append.mp hs with hs | hs
  · obtain ⟨l, r, rfl⟩ := List.append_of_mem hs
    exact earlier (List.append_assoc l (s :: r) (p :: after)) (List.subset_append_left _ _) e
  · cases List.mem_singleton.mp hs
    exact earlier rfl (List.Subset.refl _) e

/-- Behind the descendants of a node no node has the node or one of them as its parent. -/
theorem Nested.no_child_beyond {run rest : List Shape} (h : Nested (before ++ p :: (run ++ rest)))
    (nd : ((before ++ p :: (run ++ rest)).map Shape.id).Nodup)
    (deep : ∀ s ∈ run, p.level < s.level) (stop : ∀ r ∈ rest.head?, r.level ≤ p.level) :
    ∀ s ∈ rest, ∀ g ∈ p :: run, s.parent ≠ some g.id := by
  intro s hs g hg e
  obtain ⟨l, r, rfl⟩ := List.append_of_mem hs
  -- without the node and its descendants the rest still hangs on what is before
  have cut : before ≠ [] → Along Shape.id (fun p s => s.parent = some p)
      (Path.pastAll Shape.id [] before) (l ++ s :: r) := fun hb => by
    have := ((rooted_append hb).mp h).2
    rw [← List.cons_append] at this
    exact along_delete p.level this (by simpa using fun s hs => Nat.le_of_lt (deep s hs)) stop
  by_cases hb : before = []
  · subst hb
    -- below the root everything is deeper than level 0, so nothing is behind its run
    obtain ⟨hp, ha⟩ := h
    have hd : (l ++ s :: r).head? = some ((l ++ s :: r).head (by simp)) := List.head?_eq_some_head _
    have stop' := stop _ hd
    obtain ⟨a, _, hl, _⟩ := (along_append.mp ha).2 |> fun h => by
      have : Along Shape.id (fun p s => s.parent = some p)
        (Path.pastAll Shape.id [(p.level, p.id)] run)
        ((l ++ s :: r).head (by simp) :: (l ++ s :: r).tail) := by simpa using h
      exact this.1
    omega
  · obtain ⟨a, _, hf, ha⟩ := (cut hb).source
    have key : ∃ m ∈ before ++ l, m.id = g.id := by
      rcases ha with ha | ⟨m, hm, rfl⟩
      · rcases Path.mem_pastAll ha with ha | ⟨m, hm, rfl⟩
        · simp at ha
        · exact ⟨m, List.mem_append_left _ hm, Option.some.inj (hf.symm.trans e)⟩
      · exact ⟨m, List.mem_append_right _ hm, Option.some.inj (hf.symm.trans e)⟩
    obtain ⟨m, hm, hid⟩ := key
    have hxs : (before ++ p :: (run ++ (l ++ s :: r))) = before ++ (p :: run) ++ (l ++ s :: r) := by
      simp
    rw [hxs, List.map_append, List.map_append, List.nodup_append] at nd
    obtain ⟨hnd, _, hrest⟩ := nd
    rcases List.mem_append.mp hm with hm | hm
    · exact (List.nodup_append.mp hnd).2.2 _ (List.mem_map_of_mem hm) _ (List.mem_map_of_mem hg) hid
    · exact hrest _ (List.mem_append_right _ (List.mem_map_of_mem hg)) _
        (List.mem_map_of_mem (List.mem_append_left _ hm)) hid.symm

/-- Among the descendants of a node its children are those one level deeper. -/
theorem Nested.child_iff {run rest : List Shape} (h : Nested (before ++ p :: (run ++ rest)))
    (nd : ((before ++ p :: (run ++ rest)).map Shape.id).Nodup)
    (deep : ∀ s ∈ run, p.level < s.level) :
    ∀ s ∈ run, s.parent = some p.id ↔ s.level = p.level + 1 := by
  intro s hs
  obtain ⟨l, r, rfl⟩ := List.append_of_mem hs
  have ha := h.along_tail
  rw [List.append_assoc, List.cons_append] at ha
  constructor
  · intro e
    have h' := h
    rw [List.append_assoc, List.cons_append, ← List.cons_append, ← List.append_assoc] at h'
    obtain ⟨m, hm, hl, hp⟩ := Rooted.source h' (by simp)
    have hid : m.id = p.id := Option.some.inj (hp.symm.trans e)
    have : m = p := by
      refine List.inj_on_of_nodup_map nd ?_ (by simp) hid
      simp only [List.mem_append, List.mem_cons] at hm ⊢
      grind
    rw [hl, this]
  · intro hl
    obtain ⟨⟨a, ha, _, hf⟩, _⟩ := (along_append.mp ha).2
    rw [Path.upTo_pastAll Shape.id fun r hr => hl ▸ deep r (List.mem_append_left _ hr),
      Path.upTo_cons_of_lt (by simp [hl])] at ha
    cases ha
    exact hf

/-- The children of a node, by the parents that nodes record and by their levels. -/
theorem Nested.kidsOf_eq (h : Nested (before ++ p :: after))
    (root : ∀ r ∈ (before ++ p :: after).head?, r.parent = none)
    (nd : ((before ++ p :: after).map Shape.id).Nodup) :
    kidsOf (before ++ p :: after) p.id = (p.run after).filter fun s => s.level == p.level + 1 := by
  have hb := Nested.no_child_before h root nd
  have run := p.run_append_beyond after
  have h' := h
  have nd' := nd
  rw [← run] at h' nd'
  have deep : ∀ s ∈ p.run after, p.level < s.level := fun _ => Shape.level_lt_of_mem_run
  have hr := Nested.no_child_beyond h' nd' deep fun _ => Shape.level_le_of_head_beyond
  have hc := Nested.child_iff h' nd' deep
  have split : before ++ p :: after = (before ++ [p]) ++ (p.run after ++ p.beyond after) := by
    rw [run]
    simp
  have front : (before ++ [p]).filter (fun s => decide (s.parent = some p.id)) = [] :=
    List.filter_eq_nil_iff.mpr fun s hs => by simpa using hb s hs
  have back : (p.beyond after).filter (fun s => decide (s.parent = some p.id)) = [] :=
    List.filter_eq_nil_iff.mpr fun s hs => by simpa using hr s hs p List.mem_cons_self
  rw [kidsOf, split, List.filter_append (before ++ [p]), List.filter_append (p.run after), front,
    back, List.nil_append, List.append_nil]
  refine List.filter_congr fun s hs => ?_
  rw [Bool.eq_iff_iff]
  simpa using hc s hs

/-- A node has children exactly when the node after it is deeper. -/
theorem Nested.kidsOf_eq_nil_iff (h : Nested (before ++ p :: after))
    (root : ∀ r ∈ (before ++ p :: after).head?, r.parent = none)
    (nd : ((before ++ p :: after).map Shape.id).Nodup) :
    kidsOf (before ++ p :: after) p.id = [] ↔ ∀ r ∈ after.head?, r.level ≤ p.level := by
  rw [Nested.kidsOf_eq h root nd]
  cases after with
  | nil => simp [Shape.run]
  | cons r after =>
    by_cases hr : p.level < r.level
    · obtain ⟨⟨a, ha, hl, _⟩, _⟩ := h.along_tail
      rw [Path.upTo_cons_of_lt hr] at ha
      cases ha
      simp [Shape.run, hl]
    · simp [Shape.run, hr, Nat.not_lt.mp hr]

end

end QueryMarkup
