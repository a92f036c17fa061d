import QueryMarkup.Proofs.Tree.Sketch

/-!
# Nodes in preorder

The nodes of a tree stand in preorder: the root, and below a node one child after the other,
each with what is below it. So what is known of every node and its children determines the
whole list.
-/
namespace QueryMarkup.Tree

variable {t : Tree} {before after : List Node} {n : Node}

theorem Sound.splitAt_eq (h : t.Sound) (split : t.nodes = before ++ n :: after) :
    splitAt n.id t.nodes = some (before, n, after) := by
  have nd := h.nodup
  rw [ids, split, List.map_append, List.map_cons, List.nodup_append] at nd
  rw [split]
  exact splitAt_append rfl fun m hm => nd.2.2 _ (List.mem_map_of_mem hm) _ List.mem_cons_self

theorem Sound.descendants_split (h : t.Sound) (split : t.nodes = before ++ n :: after) :
    t.descendants n.id = runOf n.level after := by
  rw [descendants, h.splitAt_eq split]

theorem Sound.children_split (h : t.Sound) (split : t.nodes = before ++ n :: after) :
    t.children n.id = (runOf n.level after).filter fun m => m.level == n.level + 1 := by
  rw [children, h.splitAt_eq split]

/-- Children are one level deeper. -/
theorem Sound.level_of_mem_children (h : t.Sound) (hn : n ∈ t.nodes) {m : Node}
    (hm : m ∈ t.children n.id) : m ∈ t.nodes ∧ m.level = n.level + 1 := by
  obtain ⟨before, after, split⟩ := List.append_of_mem hn
  rw [h.children_split split] at hm
  obtain ⟨inside, level⟩ := List.mem_filter.mp hm
  refine ⟨?_, by simpa using level⟩
  rw [split]
  exact List.mem_append_right before (List.mem_cons_of_mem n ((List.takeWhile_sublist _).subset inside))

/-- What comes right behind a node is at most one level deeper. -/
theorem Sound.level_head (h : t.Sound) (split : t.nodes = before ++ n :: after) :
    ∀ m ∈ after.head?, m.level ≤ n.level + 1 := by
  intro m hm
  obtain ⟨rest, rfl⟩ := List.head?_eq_some_iff.mp hm
  have steps := h.treelike.steps
  rw [sketches, split, List.map_append, List.isChain_append] at steps
  exact ((List.isChain_cons_cons.mp steps.2.1).1).2

/-- A run ends where something stands that does not belong to it. -/
theorem takeWhile_append_of_head {α : Type} {p : α → Bool} {xs ys : List α}
    (stop : ∀ y ∈ ys.head?, p y = false) : (xs ++ ys).takeWhile p = xs.takeWhile p := by
  induction xs with
  | nil =>
    cases ys with
    | nil => rfl
    | cons y ys => exact List.takeWhile_cons_of_neg (by simpa using stop y rfl)
  | cons x xs ih =>
    rw [List.cons_append, List.takeWhile_cons, ih, List.takeWhile_cons]

/-- What is on a level and below it, up to something higher, is made of the nodes on that level,
each with its descendants. -/
theorem Sound.blocks (h : t.Sound) (before : List Node) (level : Nat) (run beyond : List Node)
    (split : t.nodes = before ++ (run ++ beyond)) (first : ∀ m ∈ run.head?, m.level = level)
    (deep : ∀ m ∈ run, level ≤ m.level) (stop : ∀ m ∈ beyond.head?, m.level < level) :
    run = (run.filter fun m => m.level == level).flatMap fun m => m :: t.descendants m.id := by
  -- a node is left out together with its descendants, so the induction is on how many are left
  induction size : run.length using Nat.strong_induction_on generalizing before run with
  | _ k ih =>
    cases run with
    | nil => rfl
    | cons c run =>
      have here : c.level = level := first c rfl
      have below : t.descendants c.id = run.takeWhile fun m => decide (level < m.level) := by
        have cut : t.nodes = before ++ c :: (run ++ beyond) := split
        rw [h.descendants_split cut, runOf, here]
        refine takeWhile_append_of_head fun m hm => ?_
        simpa using Nat.le_of_lt (stop m hm)
      have parts := @List.takeWhile_append_dropWhile _ (fun m : Node => decide (level < m.level)) run
      have inner : (t.descendants c.id).filter (fun m => m.level == level) = [] := by
        rw [below, List.filter_eq_nil_iff]
        intro m hm
        have deeper := List.mem_takeWhile_imp hm
        simp only [decide_eq_true_eq] at deeper
        simpa using Nat.ne_of_gt deeper
      have next := List.head?_dropWhile_not (fun m : Node => decide (level < m.level)) run
      rw [← below] at parts
      generalize run.dropWhile (fun m => decide (level < m.level)) = rest at parts next
      subst parts
      have later := ih rest.length (by rw [← size, List.length_cons, List.length_append]; omega)
        (before ++ c :: t.descendants c.id) rest (by simp [split]) (fun m hm => ?_)
        (fun m hm => deep m (by simp [hm])) rfl
      · rw [List.filter_cons, if_pos (by simp [here]), List.flatMap_cons, List.filter_append, inner,
          List.nil_append, ← later]
        rfl
      · rw [Option.mem_def.mp hm] at next
        have least := deep m (by simp [List.mem_of_mem_head? hm])
        simp only [decide_eq_false_iff_not, Nat.not_lt] at next
        omega

/-- Below a node stands one child after the other, each with what is below it. -/
theorem Sound.descendants_eq (h : t.Sound) (hn : n ∈ t.nodes) :
    t.descendants n.id = (t.children n.id).flatMap fun m => m :: t.descendants m.id := by
  obtain ⟨before, after, split⟩ := List.append_of_mem hn
  rw [h.descendants_split split, h.children_split split]
  have parts := @List.takeWhile_append_dropWhile _ (fun m : Node => decide (n.level < m.level)) after
  have next := List.head?_dropWhile_not (fun m : Node => decide (n.level < m.level)) after
  have deep : ∀ m ∈ runOf n.level after, n.level + 1 ≤ m.level := fun m hm =>
    Nat.succ_le_of_lt (by simpa using List.mem_takeWhile_imp hm)
  refine h.blocks (before ++ [n]) (n.level + 1) _
    (after.dropWhile fun m => decide (n.level < m.level)) ?_ (fun m hm => ?_) deep fun m hm => ?_
  · rw [runOf, parts, split, List.append_assoc]
    rfl
  · have most := h.level_head split m (by
      rw [runOf, List.head?_takeWhile] at hm
      exact (Option.filter_eq_some_iff.mp hm).1)
    have least := deep m (List.mem_of_mem_head? hm)
    omega
  · rw [Option.mem_def.mp hm] at next
    simp only [decide_eq_false_iff_not, Nat.not_lt] at next
    omega

/-- A node without a parent is the root. -/
theorem Sound.root_of_parent (h : t.Sound) (hn : n ∈ t.nodes) (top : n.parent = none) :
    n ∈ t.nodes.head? := by
  obtain ⟨before, after, split⟩ := List.append_of_mem hn
  cases before with
  | nil =>
    rw [split]
    rfl
  | cons root before =>
    have nested : Nested t.shapes := h.arranged.nested
    rw [shapes, split, List.map_append, List.map_cons] at nested
    obtain ⟨m, -, -, parent⟩ := nested.source (by simp)
    exact absurd (top.symm.trans parent) (by simp)

/-- All nodes but the root are below it. -/
theorem Sound.nodes_eq (h : t.Sound) (root : n ∈ t.nodes.head?) : t.nodes = n :: t.descendants n.id := by
  obtain ⟨rest, split⟩ := List.head?_eq_some_iff.mp (Option.mem_def.mp root)
  have level : n.level = 0 := h.treelike.root n.sketch (by rw [sketches, split]; rfl)
  rw [@Sound.descendants_split t [] rest n h split, split, runOf, level]
  refine congrArg (n :: ·) (List.takeWhile_eq_self_iff.mpr fun m hm => ?_).symm
  obtain ⟨front, back, rfl⟩ := List.append_of_mem hm
  have steps := h.treelike.steps
  rw [sketches, split, ← List.cons_append, List.map_append, List.isChain_append] at steps
  obtain ⟨last, hl⟩ : ∃ x, ((n :: front).map Node.sketch).getLast? = some x :=
    ⟨_, List.getLast?_eq_some_getLast (by simp)⟩
  exact decide_eq_true (steps.2.2 last hl m.sketch rfl).1

end QueryMarkup.Tree
