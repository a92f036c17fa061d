import QueryMarkup.Proofs.Tree.Arranged

/-!
# Insertion and removal

The two list operations that change the nodes of a tree keep it arranged: a new
child is put behind the siblings that it passes, and a node is taken out with the
run of its descendants.
-/
namespace QueryMarkup

/-- A node with one more child, which it is expanded for. -/
def Shape.adopt (p : Shape) : Shape :=
  { p with expandable := true, expanded := true, childCount := p.childCount + 1 }

@[simp] theorem Shape.adopt_id (p : Shape) : p.adopt.id = p.id := rfl

@[simp] theorem Shape.adopt_level (p : Shape) : p.adopt.level = p.level := rfl

@[simp] theorem Shape.adopt_parent (p : Shape) : p.adopt.parent = p.parent := rfl

@[simp] theorem Shape.adopt_rank (p : Shape) : p.adopt.rank = p.rank := rfl

@[simp] theorem Shape.adopt_visible (p : Shape) : p.adopt.visible = p.visible := rfl

/-- A new child on this level and of this rank passes the node. -/
def Shape.Passed (level rank : Nat) (s : Shape) : Prop :=
  level < s.level ∨ s.level = level ∧ s.rank ≤ rank

/-- An element may stand where it is in order with what is before and behind it. -/
theorem pairwise_insert {α : Type} {R : α → α → Prop} {l r : List α} {x : α}
    (h : (l ++ r).Pairwise R) (hl : ∀ a ∈ l, R a x) (hr : ∀ b ∈ r, R x b) :
    (l ++ x :: r).Pairwise R := by
  obtain ⟨h1, h2, h3⟩ := List.pairwise_append.mp h
  refine List.pairwise_append.mpr ⟨h1, List.pairwise_cons.mpr ⟨hr, h2⟩, ?_⟩
  intro a ha b hb
  rcases List.mem_cons.mp hb with rfl | hb
  · exact hl a ha
  · exact h3 a ha b hb

/-- A new node becomes a child of another, behind the nodes that it passes there. -/
structure Joins (issued : Nat) (p : Shape) (passed : List Shape) (x : Shape) (rest : List Shape) :
    Prop where
  id : x.id = ⟨issued⟩
  level : x.level = p.level + 1
  parent : x.parent = some p.id
  pass : ∀ s ∈ passed, s.Passed (p.level + 1) x.rank
  stop : ∀ r ∈ rest.head?, ¬ r.Passed (p.level + 1) x.rank

section
variable {issued : Nat} {before passed rest : List Shape} {p x : Shape}

theorem Joins.deep (joins : Joins issued p passed x rest) : ∀ s ∈ passed, p.level < s.level := by
  intro s hs
  rcases joins.pass s hs with hl | ⟨hl, _⟩ <;> omega

/-- The children of a node that a new child passes do not come after it. -/
theorem Framed.rank_le_of_passed (h : Framed issued (before ++ p :: (passed ++ rest)))
    (joins : Joins issued p passed x rest) :
    ∀ s ∈ before ++ p :: passed, s.parent = some p.id → s.rank ≤ x.rank := by
  intro s hs e
  have none_before := Nested.no_child_before h.nested h.root h.distinct
  have split : before ++ p :: passed = (before ++ [p]) ++ passed := by simp
  rw [split] at hs
  rcases List.mem_append.mp hs with hs | hs
  · exact absurd e (none_before s hs)
  · have level := (Nested.child_iff h.nested h.distinct joins.deep s hs).mp e
    rcases joins.pass s hs with hl | ⟨_, hr⟩
    · omega
    · exact hr

/-- The children of a node behind the place of a new child come after it. -/
theorem Framed.rank_lt_of_stop (h : Framed issued (before ++ p :: (passed ++ rest)))
    (joins : Joins issued p passed x rest) :
    ∀ s ∈ rest, s.parent = some p.id → x.rank < s.rank := by
  intro s hs e
  have deep := joins.deep
  cases rest with
  | nil => simp at hs
  | cons r rest =>
    have hr := joins.stop r rfl
    simp only [Shape.Passed, not_or, not_and, not_lt] at hr
    by_cases level : r.level ≤ p.level
    · -- the run of descendants has ended
      exact absurd e (Nested.no_child_beyond h.nested h.distinct deep (by simpa using level) s hs p
        List.mem_cons_self)
    · have hlevel : r.level = p.level + 1 := by omega
      have hrank : x.rank < r.rank := not_le.mp (hr.2 hlevel)
      have run : passed ++ r :: rest = (passed ++ [r]) ++ rest := by simp
      have hx := h
      rw [run] at hx
      have hp : r.parent = some p.id := (Nested.child_iff hx.nested hx.distinct (by
        intro s hs
        rcases List.mem_append.mp hs with hs | hs
        · exact deep s hs
        · cases List.mem_singleton.mp hs
          omega) r (by simp)).mpr hlevel
      rcases List.mem_cons.mp hs with rfl | hs
      · exact hrank
      · have tail : r :: rest <:+ before ++ p :: (passed ++ r :: rest) :=
          ⟨before ++ p :: passed, by simp⟩
        have sorted := List.pairwise_cons.mp (h.sorted.sublist tail.sublist)
        exact Nat.lt_of_lt_of_le hrank (sorted.1 s hs (hp.trans e.symm)).rank_le

/-- Nothing but the number of its children changes for a node when one child is added. -/
theorem length_kidsOf_insert (xs ys zs : List Shape) (id : NodeId) (hx : x.parent = some p.id) :
    (kidsOf (xs ++ p.adopt :: (ys ++ x :: zs)) id).length =
      (kidsOf (xs ++ p :: (ys ++ zs)) id).length + if id = p.id then 1 else 0 := by
  have hp : decide (p.adopt.parent = some id) = decide (p.parent = some id) := rfl
  simp only [kidsOf, ← List.countP_eq_length_filter, List.countP_append, List.countP_cons, hx, hp]
  by_cases hid : id = p.id
  · subst hid
    simp only [decide_true, ↓reduceIte]
    omega
  · have hne : ¬ some p.id = some id := fun e => hid (Option.some.inj e).symm
    simp only [hid, hne, decide_false, Bool.false_eq_true, ↓reduceIte]
    omega

theorem mem_insert {s : Shape} (hs : s ∈ before ++ p.adopt :: (passed ++ x :: rest)) :
    s = x ∨ s = p.adopt ∨ s ∈ before ∨ s ∈ passed ++ rest := by
  simp only [List.mem_append, List.mem_cons] at hs ⊢
  grind

theorem mem_of_beside {s : Shape} (hs : s ∈ before ∨ s ∈ passed ++ rest) :
    s ∈ before ++ p :: (passed ++ rest) := by
  rcases hs with hs | hs
  · exact List.mem_append_left _ hs
  · exact List.mem_append_right _ (List.mem_cons_of_mem p hs)

theorem Framed.nested_insert (h : Framed issued (before ++ p :: (passed ++ rest)))
    (joins : Joins issued p passed x rest) :
    Nested (before ++ p.adopt :: (passed ++ x :: rest)) := by
  obtain ⟨hp, ha⟩ := rooted_split.mp h.nested
  have level := joins.level
  refine rooted_split.mpr ⟨(rooted_last (s := p) (r := p.adopt) rfl fun _ => Iff.rfl).mpr hp,
    along_insert ha ?_ ?_ ?_⟩
  · intro s hs
    rcases joins.pass s hs with hl | ⟨hl, _⟩ <;> omega
  · intro r hr
    have := joins.stop r hr
    simp only [Shape.Passed, not_or] at this
    omega
  · refine ⟨(p.level, p.id), ?_, joins.level, joins.parent⟩
    rw [Path.upTo_cons_of_lt (by simp [joins.level])]
    rfl

/-- The name of a new node is not in use. -/
theorem Framed.distinct_insert (h : Framed issued (before ++ p :: (passed ++ rest)))
    (id : x.id = ⟨issued⟩) :
    ((before ++ p.adopt :: (passed ++ x :: rest)).map Shape.id).Nodup := by
  have old : ((before ++ p.adopt :: passed) ++ rest).map Shape.id =
      (before ++ p :: (passed ++ rest)).map Shape.id := by simp [Shape.adopt]
  have new : (before ++ p.adopt :: (passed ++ x :: rest)).map Shape.id =
      (before ++ p.adopt :: passed).map Shape.id ++ x.id :: rest.map Shape.id := by simp
  rw [new, List.nodup_middle, ← List.map_append, old]
  refine List.nodup_cons.mpr ⟨?_, h.distinct⟩
  intro hm
  obtain ⟨s, hs, e⟩ := List.mem_map.mp hm
  have age := h.issued s hs
  rw [e, id] at age
  exact Nat.lt_irrefl _ age

/-- A sibling that is passed precedes the new node, since it is older. -/
theorem Framed.precedes_of_passed (h : Framed issued (before ++ p :: (passed ++ rest)))
    (joins : Joins issued p passed x rest) :
    ∀ s ∈ before ++ p :: passed, s.parent = some p.id → s.Precedes x := by
  intro s hs e
  have here : s ∈ before ++ p :: (passed ++ rest) := by
    rw [← List.cons_append, ← List.append_assoc]
    exact List.mem_append_left rest hs
  have age : s.id.index < x.id.index := by
    rw [joins.id]
    exact h.issued s here
  rcases Nat.lt_or_eq_of_le (h.rank_le_of_passed joins s hs e) with hr | hr
  · exact .inl hr
  · exact .inr ⟨hr, age⟩

theorem Framed.sorted_insert (h : Framed issued (before ++ p :: (passed ++ rest)))
    (joins : Joins issued p passed x rest) :
    (before ++ p.adopt :: (passed ++ x :: rest)).Pairwise fun a b =>
      a.parent = b.parent → a.Precedes b := by
  have sorted : ((before ++ p.adopt :: passed) ++ rest).Pairwise
      fun a b => a.parent = b.parent → a.Precedes b := by
    have := h.sorted
    simp only [List.append_assoc, List.cons_append, List.pairwise_append, List.pairwise_cons,
      List.mem_cons, List.mem_append] at this ⊢
    grind [Shape.adopt_parent, Shape.adopt_rank, Shape.adopt_id, Shape.Precedes]
  have split : before ++ p.adopt :: (passed ++ x :: rest) =
      (before ++ p.adopt :: passed) ++ x :: rest := by simp
  rw [split]
  apply pairwise_insert sorted
  · intro a ha e
    rw [joins.parent] at e
    have precedes := h.precedes_of_passed joins
    rcases List.mem_append.mp ha with ha | ha
    · exact precedes a (List.mem_append_left _ ha) e
    · rcases List.mem_cons.mp ha with rfl | ha
      · exact precedes p (by simp) e
      · exact precedes a (by simp [ha]) e
  · intro b hb e
    exact .inl (h.rank_lt_of_stop joins b hb (e.symm.trans joins.parent))

theorem Framed.insert (h : Framed issued (before ++ p :: (passed ++ rest)))
    (joins : Joins issued p passed x rest) :
    Framed (issued + 1) (before ++ p.adopt :: (passed ++ x :: rest)) where
  nested := h.nested_insert joins
  root := by
    cases before with
    | nil => simpa using h.root p rfl
    | cons b before => exact h.root
  distinct := h.distinct_insert joins.id
  issued := by
    intro s hs
    rcases mem_insert hs with rfl | rfl | hs
    · rw [joins.id]
      exact Nat.lt_succ_self _
    · exact Nat.lt_succ_of_lt (h.issued p (by simp))
    · exact Nat.lt_succ_of_lt (h.issued s (mem_of_beside hs))
  sorted := h.sorted_insert joins

/-- A new child goes behind the siblings that it passes. -/
theorem Arranged.insert (h : Arranged issued (before ++ p :: (passed ++ rest)))
    (joins : Joins issued p passed x rest) (leaf : x.expandable = false) (count : x.childCount = 0) :
    Arranged (issued + 1) (before ++ p.adopt :: (passed ++ x :: rest)) where
  toFramed := h.toFramed.insert joins
  counted := by
    intro s hs
    rw [length_kidsOf_insert _ _ _ _ joins.parent]
    rcases mem_insert hs with rfl | rfl | hs
    · have other : (⟨issued⟩ : NodeId) ≠ p.id := by
        intro e
        have age := h.issued p (by simp)
        rw [← e] at age
        exact Nat.lt_irrefl _ age
      rw [joins.id, h.kidsOf_fresh, if_neg other, count]
      rfl
    · have one := h.counted p (by simp)
      simpa [Shape.adopt] using one
    · have other : s.id ≠ p.id := hs.elim (h.not_mem.1 s) (h.not_mem.2 s)
      rw [if_neg other, Nat.add_zero]
      exact h.counted s (mem_of_beside hs)
  expandable := by
    intro s hs
    rcases mem_insert hs with rfl | rfl | hs
    · simp [leaf, count]
    · simp [Shape.adopt]
    · exact h.expandable s (mem_of_beside hs)

end

/-! ## Removal -/

/-- What changes for a node that stays when a child of `parent` is removed: the node
`last` before it has children only if what follows now is `deeper`. -/
def Shape.bereave (last parent : NodeId) (deeper : Bool) (s : Shape) : Shape :=
  { s with
    expandable := if s.id = last then deeper else s.expandable
    childCount := if s.id = parent then s.childCount - 1 else s.childCount }

section
variable {issued : Nat} {before run rest : List Shape} {n : Shape}

/-- The parents of the descendants of a node are the node and its descendants. -/
theorem Framed.run_parent (h : Framed issued (before ++ n :: (run ++ rest)))
    (deep : ∀ s ∈ run, n.level < s.level) :
    ∀ s ∈ run, ∃ m ∈ n :: run, s.parent = some m.id := by
  intro s hs
  obtain ⟨l, r, rfl⟩ := List.append_of_mem hs
  have inner := (along_append.mp h.nested.along_tail).1
  obtain ⟨a, _, hp, ha | ⟨m, hm, rfl⟩⟩ := Along.source ((@along_outer _ _ _ _ [] _ _ deep).mp inner)
  · cases List.mem_singleton.mp ha
    exact ⟨n, List.mem_cons_self, hp⟩
  · exact ⟨m, by simp [hm], hp⟩

/-- A node and its descendants may be taken out. -/
theorem Framed.cut (h : Framed issued (before ++ n :: (run ++ rest))) (hb : before ≠ [])
    (deep : ∀ s ∈ run, n.level < s.level) (stop : ∀ r ∈ rest.head?, r.level ≤ n.level) :
    Framed issued (before ++ rest) := by
  have sub : (before ++ rest).Sublist (before ++ n :: (run ++ rest)) :=
    (List.Sublist.refl before).append
      ((List.sublist_append_right run rest).trans (List.sublist_cons_self n _))
  obtain ⟨hx, ha⟩ := (rooted_append hb).mp h.nested
  rw [← List.cons_append] at ha
  refine ⟨(rooted_append hb).mpr ⟨hx, along_delete n.level ha ?_ stop⟩, ?_, ?_, ?_, ?_⟩
  · intro s hs
    rcases List.mem_cons.mp hs with rfl | hs
    · exact Nat.le_refl _
    · exact Nat.le_of_lt (deep s hs)
  · cases before with
    | nil => exact absurd rfl hb
    | cons b before => exact h.root
  · exact h.distinct.sublist (sub.map _)
  · exact fun s hs => h.issued s (sub.subset hs)
  · exact h.sorted.sublist sub

/-- Only the parent of a removed node loses a child. -/
theorem Framed.length_kidsOf_cut (h : Framed issued (before ++ n :: (run ++ rest)))
    (deep : ∀ s ∈ run, n.level < s.level) {s : Shape} (hs : s ∈ before ++ rest) :
    (kidsOf (before ++ n :: (run ++ rest)) s.id).length =
      (kidsOf (before ++ rest) s.id).length + if n.parent = some s.id then 1 else 0 := by
  have apart : ∀ m ∈ n :: run, m.id ≠ s.id := by
    have split : (before ++ n :: (run ++ rest)).Perm ((n :: run) ++ (before ++ rest)) := by
      have := List.perm_append_comm_assoc before (n :: run) rest
      simpa using this
    have nd := (split.map Shape.id).nodup_iff.mp h.distinct
    rw [List.map_append, List.nodup_append] at nd
    exact fun m hm => nd.2.2 _ (List.mem_map_of_mem hm) _ (List.mem_map_of_mem hs)
  have none : kidsOf run s.id = [] := by
    refine List.filter_eq_nil_iff.mpr fun r hr e => ?_
    obtain ⟨m, hm, hp⟩ := h.run_parent deep r hr
    exact apart m hm (Option.some.inj (hp.symm.trans (of_decide_eq_true e)))
  have split (l r : List Shape) : kidsOf (l ++ r) s.id = kidsOf l s.id ++ kidsOf r s.id :=
    List.filter_append _ _
  have head : (kidsOf (n :: (run ++ rest)) s.id).length =
      (kidsOf (run ++ rest) s.id).length + if n.parent = some s.id then 1 else 0 := by
    by_cases hn : n.parent = some s.id <;> simp [kidsOf, hn]
  rw [split, List.length_append, head, split, none, split, List.nil_append, List.length_append]
  omega

end

/-- Taking nodes out by their names. -/
theorem filter_gone {before gone rest : List Shape}
    (nd : ((before ++ (gone ++ rest)).map Shape.id).Nodup) :
    (before ++ (gone ++ rest)).filter (fun s => !(gone.map Shape.id).contains s.id) =
      before ++ rest := by
  simp only [List.map_append, List.nodup_append, List.mem_append] at nd
  obtain ⟨-, ⟨-, -, behind⟩, ahead⟩ := nd
  have kept {l : List Shape} (h : ∀ s ∈ l, s.id ∉ gone.map Shape.id) :
      l.filter (fun s => !(gone.map Shape.id).contains s.id) = l :=
    List.filter_eq_self.mpr fun s hs => by simpa using h s hs
  have dropped : gone.filter (fun s => !(gone.map Shape.id).contains s.id) = [] := by
    refine List.filter_eq_nil_iff.mpr fun s hs => ?_
    have : s.id ∈ gone.map Shape.id := List.mem_map_of_mem hs
    simp only [List.contains_eq_mem, this, decide_true, Bool.not_true, Bool.false_eq_true,
      not_false_eq_true]
  rw [List.filter_append, List.filter_append, dropped, List.nil_append, kept, kept]
  · intro s hs hm
    exact behind _ hm _ (List.mem_map_of_mem hs) rfl
  · intro s hs hm
    exact ahead _ (List.mem_map_of_mem hs) _ (.inl hm) rfl

section
variable {issued : Nat} {before run rest : List Shape} {last n : Shape} {q : NodeId}

/-- A child of a node is followed by its run and then by what is not deeper. -/
structure Severs (q : NodeId) (n : Shape) (run rest : List Shape) : Prop where
  parent : n.parent = some q
  deep : ∀ s ∈ run, n.level < s.level
  stop : ∀ r ∈ rest.head?, r.level ≤ n.level

theorem split_last : before ++ last :: n :: (run ++ rest) =
    (before ++ [last]) ++ n :: (run ++ rest) := by
  simp

theorem mem_of_mem_cut {s : Shape} (hs : s ∈ before ++ last :: rest) :
    s ∈ before ++ last :: n :: (run ++ rest) := by
  simp only [List.mem_append, List.mem_cons] at hs ⊢
  grind

theorem Framed.cut_behind (h : Framed issued (before ++ last :: n :: (run ++ rest)))
    (severs : Severs q n run rest) : Framed issued (before ++ last :: rest) := by
  rw [split_last] at h
  rw [List.append_cons]
  exact h.cut (by simp) severs.deep severs.stop

/-- What was counted is one too many for the parent of the removed node. -/
theorem Arranged.childCount_cut (h : Arranged issued (before ++ last :: n :: (run ++ rest)))
    (severs : Severs q n run rest) : ∀ s ∈ before ++ last :: rest, s.childCount =
      (kidsOf (before ++ last :: rest) s.id).length + if s.id = q then 1 else 0 := by
  intro s hs
  have counted := h.counted s (mem_of_mem_cut hs)
  have framed := h.toFramed
  rw [split_last] at framed counted
  rw [List.append_cons] at hs ⊢
  rw [counted, framed.length_kidsOf_cut severs.deep hs, severs.parent]
  simp only [Option.some.injEq, eq_comm]

/-- A parent that is not right before the removed run has a child between the two. -/
theorem Arranged.exists_kid (h : Arranged issued (before ++ last :: n :: (run ++ rest)))
    (severs : Severs q n run rest) {s : Shape} (hs : s ∈ before ++ last :: rest) (hq : s.id = q)
    (hl : s.id ≠ last.id) : 0 < (kidsOf (before ++ last :: rest) s.id).length := by
  have cut := h.toFramed.cut_behind severs
  apply List.length_pos_iff.mpr
  intro none
  have framed := h.toFramed
  rw [split_last] at framed
  obtain ⟨m, hm, _, hp⟩ := framed.parent (by simp)
  have hmq : m.id = s.id := (Option.some.inj (hp.symm.trans severs.parent)).trans hq.symm
  have here : m ∈ before ++ last :: rest := by
    rw [List.append_cons]
    exact List.mem_append_left rest hm
  obtain rfl : m = s := cut.eq_of_id here hs hmq
  rcases List.mem_append.mp hm with hm | hm
  · obtain ⟨l, r, rfl⟩ := List.append_of_mem hm
    rw [List.append_assoc, List.cons_append] at none cut h
    have stopped := cut.kidsOf_eq_nil_iff.mp none
    have kid : kidsOf (l ++ m :: (r ++ last :: n :: (run ++ rest))) m.id = [] := by
      refine h.kidsOf_eq_nil_iff.mpr ?_
      cases r <;> simpa using stopped
    have hn : n ∈ kidsOf (l ++ m :: (r ++ last :: n :: (run ++ rest))) m.id :=
      List.mem_filter.mpr ⟨by simp, by simp [severs.parent, hq]⟩
    rw [kid] at hn
    cases hn
  · exact hl (congrArg Shape.id (List.mem_singleton.mp hm))

/-- The node before a removed run has a child exactly when the next node is deeper. -/
theorem Framed.deeper_iff (h : Framed issued (before ++ last :: rest)) :
    (∃ r ∈ rest.head?, last.level < r.level) ↔
      0 < (kidsOf (before ++ last :: rest) last.id).length := by
  rw [List.length_pos_iff, Ne, h.kidsOf_eq_nil_iff]
  simp only [not_forall, not_le, exists_prop]

/-- A node is taken out with its run. -/
theorem Arranged.remove (h : Arranged issued (before ++ last :: n :: (run ++ rest)))
    (severs : Severs q n run rest) : Arranged issued ((before ++ last :: rest).map
      (Shape.bereave last.id q (decide (∃ r ∈ rest.head?, last.level < r.level)))) := by
  have cut := h.toFramed.cut_behind severs
  have counts := h.childCount_cut severs
  generalize hd : decide (∃ r ∈ rest.head?, last.level < r.level) = deeper
  have counted : ∀ s ∈ before ++ last :: rest, (s.bereave last.id q deeper).childCount =
      (kidsOf (before ++ last :: rest) s.id).length := by
    intro s hs
    have count := counts s hs
    by_cases hq : s.id = q
    · rw [if_pos hq] at count
      simp only [Shape.bereave, if_pos hq]
      omega
    · rw [if_neg hq, Nat.add_zero] at count
      simpa only [Shape.bereave, if_neg hq] using count
  refine cut.map _ (fun _ => ⟨rfl, rfl, rfl, rfl⟩) counted fun s hs => ?_
  rw [counted s hs]
  by_cases hl : s.id = last.id
  · obtain rfl : s = last := cut.eq_of_id hs (by simp) hl
    rw [Shape.bereave, if_pos rfl, ← hd, decide_eq_decide]
    exact cut.deeper_iff
  · have same : (s.bereave last.id q deeper).expandable = s.expandable := by
      simp only [Shape.bereave, if_neg hl]
    rw [same, h.expandable s (mem_of_mem_cut hs), decide_eq_decide, counts s hs]
    by_cases hq : s.id = q
    · rw [if_pos hq]
      exact iff_of_true (Nat.succ_pos _) (h.exists_kid severs hs hq hl)
    · rw [if_neg hq, Nat.add_zero]

end

end QueryMarkup
