import QueryMarkup.Proofs.Tree.Arranged

/-!
# Visibility

Computing the visibility of a run anew makes it agree with the flags above the run.
-/
namespace QueryMarkup

/-- Sets the visibility of shapes in preorder, given the levels of their ancestors and
whether what is below each shows. -/
def Shape.spread (stack : Path Bool) : List Shape → List Shape
  | [] => []
  | s :: rest =>
    let above := stack.upTo s.level
    let visible := (above.head?.map (·.2)).getD false
    { s with visible } :: Shape.spread ((s.level, visible && s.expanded) :: above) rest

theorem map_shape_spread (stack : Path Bool) (nodes : List Node) :
    (Tree.spread stack nodes).map Node.shape = Shape.spread stack (nodes.map Node.shape) := by
  induction nodes generalizing stack with
  | nil => rfl
  | cons n nodes ih =>
    simp only [Tree.spread, List.map_cons, Shape.spread, ih]
    rfl

theorem unfolded_spread (stack : Path Bool) (xs : List Shape) :
    (Shape.spread stack xs).map Shape.unfolded = xs.map Shape.unfolded := by
  induction xs generalizing stack with
  | nil => rfl
  | cons s xs ih =>
    simp only [Shape.spread, List.map_cons, ih]
    rfl

theorem level_spread (stack : Path Bool) (xs : List Shape) :
    (Shape.spread stack xs).map Shape.level = xs.map Shape.level := by
  have h := congrArg (List.map Shape.level) (unfolded_spread stack xs)
  rw [List.map_map, List.map_map] at h
  exact h

/-- Which ancestors a node keeps does not depend on their marks. -/
theorem map_fst_upTo {α : Type} (level : Nat) (path : Path α) :
    (path.upTo level).map Prod.fst = (path.map Prod.fst).dropWhile fun l => decide (level ≤ l) := by
  rw [Path.upTo, List.dropWhile_map]
  rfl

/-- The computed visibility is that of the innermost ancestor. -/
theorem along_spread {names : Path NodeId} {stack : Path Bool} {fits : NodeId → Shape → Prop}
    {xs : List Shape} (h : Along Shape.id fits names xs)
    (same : names.map Prod.fst = stack.map Prod.fst) :
    Along Shape.opens (fun opens s => s.visible = opens) stack (Shape.spread stack xs) := by
  induction xs generalizing names stack with
  | nil => trivial
  | cons s xs ih =>
    obtain ⟨⟨a, ha, hl, _⟩, hx⟩ := h
    have tops : (names.upTo s.level).map Prod.fst = (stack.upTo s.level).map Prod.fst := by
      rw [map_fst_upTo, map_fst_upTo, same]
    have top := congrArg List.head? tops
    rw [List.head?_map, List.head?_map, Option.mem_def.mp ha, Option.map_some, eq_comm,
      Option.map_eq_some_iff] at top
    obtain ⟨b, hb, e⟩ := top
    refine ⟨⟨b, hb, by rw [e]; exact hl, ?_⟩, ih hx ?_⟩
    · simp [hb]
    · simp only [Path.past, List.map_cons, tops]

section
variable {before run run' rest : List Shape} {n n' : Shape}

/-- Behind a run nothing sees which of the two nodes leads it. -/
theorem upTo_behind {α : Type} {mark : Shape → α} {a : Nat × α} {tail : Path α} {level : Nat}
    (deep : ∀ s ∈ run, a.1 < s.level) (h : level ≤ a.1) :
    (Path.pastAll mark (a :: tail) run).upTo level = tail.upTo level := by
  rw [Path.upTo_pastAll mark fun s hs => Nat.le_trans h (Nat.le_of_lt (deep s hs)),
    Path.upTo_cons_of_le h]

/-- A node may be expanded or collapsed, and its run changed, if the visibility of the
run is then computed anew. -/
theorem Shown.refresh (h : Shown (before ++ n :: (run ++ rest)))
    (nested : Nested (before ++ n' :: (run' ++ rest))) (level : n'.level = n.level)
    (visible : n'.visible = n.visible) (deep : ∀ s ∈ run, n.level < s.level)
    (deep' : ∀ s ∈ run', n.level < s.level) (stop : ∀ r ∈ rest.head?, r.level ≤ n.level) :
    Shown (before ++ n' :: (Shape.spread [(n'.level, n'.opens)] run' ++ rest)) := by
  obtain ⟨hx, ha⟩ := rooted_split.mp h.below
  have names := (along_append.mp nested.along_tail).1
  have names' := (@along_outer _ _ _ _ [] _ _ fun s hs => level ▸ deep' s hs).mp names
  have inner := @along_spread _ [(n'.level, n'.opens)] _ _ names' rfl
  have deep'' : ∀ s ∈ Shape.spread [(n'.level, n'.opens)] run', n'.level < s.level := by
    intro s hs
    have : s.level ∈ run'.map Shape.level := level_spread _ run' ▸ List.mem_map_of_mem hs
    obtain ⟨r, hr, e⟩ := List.mem_map.mp this
    rw [← e, level]
    exact deep' r hr
  refine ⟨rooted_split.mpr ⟨(rooted_last level fun _ => by rw [visible]).mpr hx, ?_⟩, ?_⟩
  · refine along_append.mpr ⟨(@along_outer _ _ _ _ [] _ _ deep'').mpr inner, ?_⟩
    refine (along_congr fun r hr => ?_).mp (along_append.mp ha).2
    have hr' := stop r hr
    rw [upTo_behind deep hr', upTo_behind deep'' (level ▸ hr'), level]
  · cases before with
    | nil => simpa [visible] using h.root n rfl
    | cons b before => exact h.root

/-- A new child that is put below a node shows when the node's run is computed anew. -/
theorem Shown.insert {passed : List Shape} {p p' x : Shape}
    (h : Shown (before ++ p :: (passed ++ rest)))
    (nested : Nested (before ++ p' :: (passed ++ x :: rest))) (level : p'.level = p.level)
    (visible : p'.visible = p.visible) (below : p.level < x.level)
    (deep : ∀ s ∈ passed, p.level < s.level) :
    Shown (before ++ p' :: (Shape.spread [(p'.level, p'.opens)] (p'.run (passed ++ x :: rest)) ++
      p'.beyond (passed ++ x :: rest))) := by
  have beyond : p'.beyond (passed ++ x :: rest) = p.beyond (passed ++ rest) := by
    have hd : ∀ s ∈ passed, decide (p.level < s.level) = true := by simpa using deep
    simp only [Shape.beyond, level, List.dropWhile_append_of_pos hd]
    simp [below]
  rw [← p.run_append_beyond (passed ++ rest)] at h
  rw [← p'.run_append_beyond (passed ++ x :: rest), beyond] at nested
  rw [beyond]
  exact h.refresh nested level visible (fun _ => Shape.level_lt_of_mem_run)
    (fun s hs => level ▸ Shape.level_lt_of_mem_run hs) fun _ => Shape.level_le_of_head_beyond

theorem Arranged.refresh {issued : Nat} {after : List Shape} {p : Shape} (stack : Path Bool)
    (h : Arranged issued (before ++ p :: after)) :
    Arranged issued (before ++ p :: (Shape.spread stack (p.run after) ++ p.beyond after)) := by
  apply h.congr
  simp only [List.map_append, List.map_cons, unfolded_spread]
  rw [← List.map_append, p.run_append_beyond]

/-- A change of flags that keeps levels and visibility on both sides keeps what shows. -/
theorem Shown.map {xs : List Shape} (h : Shown xs) (f : Shape → Shape)
    (keeps : ∀ s, (f s).level = s.level ∧ (f s).visible = s.visible ∧
      (f s).expanded = s.expanded) : Shown (xs.map f) where
  below := (rooted_map f fun s _ => ⟨(keeps s).1, by
    simp only [Shape.opens, (keeps s).2.1, (keeps s).2.2], fun a => by
    rw [(keeps s).2.1]⟩).mpr h.below
  root := by
    intro r hr
    rw [List.head?_map] at hr
    obtain ⟨s, hs, rfl⟩ := Option.map_eq_some_iff.mp hr
    rw [(keeps s).2.1]
    exact h.root s hs

/-- What stays visible does so without a removed run. -/
theorem Shown.cut (h : Shown (before ++ n :: (run ++ rest))) (hb : before ≠ [])
    (deep : ∀ s ∈ run, n.level < s.level) (stop : ∀ r ∈ rest.head?, r.level ≤ n.level) :
    Shown (before ++ rest) where
  below := by
    obtain ⟨hx, ha⟩ := (rooted_append hb).mp h.below
    rw [← List.cons_append] at ha
    refine (rooted_append hb).mpr ⟨hx, along_delete n.level ha ?_ stop⟩
    intro s hs
    rcases List.mem_cons.mp hs with rfl | hs
    · exact Nat.le_refl _
    · exact Nat.le_of_lt (deep s hs)
  root := by
    cases before with
    | nil => exact absurd rfl hb
    | cons b before => exact h.root

end

end QueryMarkup
