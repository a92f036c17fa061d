import QueryMarkup.Proofs.Tree.Change

/-!
# Trees without a schema

Where there is no desk no node gets a schema check, so the findings of a node are those
of its rules and attributes.
-/
namespace QueryMarkup.Tree

/-- No schema can be asked, and no node has a check that would ask one. -/
structure Schemaless (t : Tree) : Prop where
  desk : t.desk = none
  nodes : ∀ n ∈ t.nodes, n.schema = none

section
variable {t t' : Tree}

theorem Schemaless.alter (h : t.Schemaless) (id : NodeId) (f : Node → Node)
    (hf : ∀ n, n.schema = none → (f n).schema = none) : (t.alter id f).Schemaless := by
  refine ⟨h.desk, fun m hm => ?_⟩
  obtain ⟨n, hn, ⟨_, rfl⟩ | ⟨_, rfl⟩⟩ := mem_alter hm
  · exact hf n (h.nodes n hn)
  · exact h.nodes _ hn

theorem Schemaless.foldl {α : Type} {step : Tree → α → Tree}
    (hs : ∀ t x, Schemaless t → (step t x).Schemaless) (h : t.Schemaless) (xs : List α) :
    (xs.foldl step t).Schemaless := by
  induction xs generalizing t with
  | nil => exact h
  | cons x xs ih => exact ih (hs t x h)

theorem Schemaless.recheckRule (h : t.Schemaless) (id : NodeId) (index : Nat) :
    (t.recheckRule id index).Schemaless :=
  h.alter id _ fun _ hn => hn

theorem Schemaless.followSlot (h : t.Schemaless) (id : NodeId) (name : String) (w : Watcher) :
    (t.followSlot id name w).Schemaless := by
  have followed : (t.alter id fun n => n.followSlot name w).Schemaless := h.alter id _ fun _ hn => hn
  unfold Tree.followSlot
  dsimp only
  split
  · exact followed
  · exact ⟨followed.desk, followed.nodes⟩

theorem Schemaless.tell (h : t.Schemaless) (id : NodeId) (name : String) (w : Watcher) :
    (t.tell id name w).Schemaless := by
  cases w with
  | rule owner index => exact h.recheckRule owner index
  | schema owner =>
    have unasked : t.askSchema owner = t := by
      unfold askSchema
      rw [h.desk]
    change (t.askSchema owner).Schemaless
    rw [unasked]
    exact h
  | display => exact h.followSlot id name .display
  | valueCheck => exact h.followSlot id name .valueCheck

theorem Schemaless.writeSlot (h : t.Schemaless) (id : NodeId) (name value : String) :
    (t.writeSlot id name value).Schemaless := by
  unfold Tree.writeSlot
  split
  · exact h
  · dsimp only
    split
    · exact h
    · have written := h.alter id (fun n => n.setSlot name value) fun _ hn => hn
      exact written.foldl (fun _ w ht => ht.tell id name w) _

theorem Schemaless.createAttribute (h : t.Schemaless) (id : NodeId) (name value : String) :
    (t.createAttribute id name value).Schemaless := by
  have created := (h.writeSlot id name value).alter id (fun n => n.insertAttribute name)
    fun _ hn => hn
  exact ⟨created.desk, created.nodes⟩

theorem Schemaless.setChildCount (h : t.Schemaless) (id : NodeId) (count : Nat) :
    (t.setChildCount id count).Schemaless := by
  unfold Tree.setChildCount
  split
  · exact h
  · split
    · exact h
    · have counted := h.alter id (fun n => { n with childCount := count }) fun _ hn => hn
      exact counted.foldl (fun _ (x : RuleCheck × Nat) ht => ht.recheckRule id x.2) _

theorem schema_fresh (h : t.Schemaless) (kind : Kind) (tag : String) (parent : Option Node) :
    (t.fresh kind tag parent).schema = none := by
  change t.schemaCheckFor _ kind _ = none
  unfold schemaCheckFor
  rw [h.desk]
  rfl

theorem Schemaless.wire (h : t.Schemaless) {x : Node} (hx : x.schema = none) :
    (t.wire x).Schemaless := by
  unfold Tree.wire
  dsimp only
  rw [hx]
  refine h.foldl (fun t (e : NodeId × String × Watcher) ht => ?_) _
  exact ht.alter e.1 (fun n => { n with slots := n.slots.watch e.2.1 e.2.2 }) fun _ hn => hn

theorem Schemaless.refreshVisibility (h : t.Schemaless) (id : NodeId) :
    (t.refreshVisibility id).Schemaless := by
  have kept : Keeps Node.schema t (t.refreshVisibility id) :=
    refreshVisibility_keeps (fun _ _ => rfl) t id
  refine ⟨?_, fun n hn => ?_⟩
  · unfold Tree.refreshVisibility
    split <;> exact h.desk
  · have : n.schema ∈ t.nodes.map Node.schema := kept.nodes ▸ List.mem_map_of_mem hn
    obtain ⟨m, hm, e⟩ := List.mem_map.mp this
    rw [← e, h.nodes m hm]

theorem Schemaless.insert {kind : Kind} {tag : String} {parent id : NodeId} (h : t.Schemaless)
    (e : t.insert kind tag parent = .ok (t', id)) : t'.Schemaless := by
  obtain ⟨before, above, after, cut, -, rfl⟩ := insert_eq_ok e
  obtain ⟨hn, -, -⟩ := splitAt_eq_some cut
  have fresh := schema_fresh h kind tag (some above)
  have placed : (t.placed kind tag before above after).Schemaless := by
    refine ⟨h.desk, fun n hm => ?_⟩
    rcases (mem_placed hn).mp hm with rfl | hm
    · exact fresh
    · exact h.nodes n hm
  have linked := (placed.wire fresh).alter parent (fun n => { n with expandable := true })
    fun _ hn => hn
  have opened := (linked.setChildCount parent (above.childCount + 1)).alter parent
    (fun n => { n with expanded := true }) fun _ hn => hn
  have shown := opened.refreshVisibility parent
  exact ⟨shown.desk, shown.nodes⟩

theorem Schemaless.setSelection (h : t.Schemaless) (selection : Option NodeId) :
    (t.setSelection selection).Schemaless := by
  unfold Tree.setSelection
  split
  · exact h
  · exact ⟨h.desk, h.nodes⟩

theorem Schemaless.remove {id : NodeId} (h : t.Schemaless) (e : t.remove id = .ok t') :
    t'.Schemaless := by
  obtain ⟨before, last, n, after, parent, -, -, rfl⟩ := remove_eq_ok e
  have linked := h.alter last.id (fun m => { m with
    expandable := ((after.drop (runOf n.level after).length).head?.map fun k =>
      decide (last.level < k.level)).getD false }) fun _ hn => hn
  have counted := linked.setChildCount parent (((t.node? parent).map (·.childCount)).getD 0 - 1)
  have left : (((((t.alter last.id fun m => { m with
      expandable := ((after.drop (runOf n.level after).length).head?.map fun k =>
        decide (last.level < k.level)).getD false }).setChildCount parent
      (((t.node? parent).map (·.childCount)).getD 0 - 1)).cut
        (id :: (runOf n.level after).map (·.id))).forget
        (id :: (runOf n.level after).map (·.id)))).Schemaless := by
    refine ⟨counted.desk, fun m hm => ?_⟩
    obtain ⟨k, hk, rfl⟩ := List.mem_map.mp hm
    exact counted.nodes k (List.mem_filter.mp hk).1
  have selected := left.setSelection (some last.id)
  exact ⟨selected.desk, selected.nodes⟩

/-- No change brings a schema. -/
theorem Change.schemaless (c : Change t t') (h : t.Schemaless) : t'.Schemaless := by
  cases c with
  | touch => exact ⟨h.desk, h.nodes⟩
  | clear =>
    have cleared := Schemaless.setSelection (t := { t with nodes := [], issued := 0 })
      ⟨h.desk, by simp⟩ none
    exact ⟨cleared.desk, cleared.nodes⟩
  | plant kind tag _ =>
    have fresh := schema_fresh h kind tag none
    have planted : Schemaless { t with nodes := [t.fresh kind tag none], issued := t.issued + 1 } := by
      refine ⟨h.desk, fun n hn => ?_⟩
      cases List.mem_singleton.mp hn
      exact fresh
    exact planted.wire fresh
  | insert e => exact h.insert e
  | remove e => exact h.remove e
  | flip _ =>
    exact (h.alter _ (fun n => { n with expanded := !n.expanded }) fun _ hn => hn).refreshVisibility _
  | select _ => exact h.setSelection _
  | write id name value => exact h.writeSlot id name value
  | create value _ _ => exact h.createAttribute _ _ value
  | discard id name =>
    exact (h.writeSlot id name "").alter id (fun n => n.eraseAttribute name) fun _ hn => hn
  | resolve e =>
    unfold Tree.resolve at e
    rw [h.desk] at e
    cases e

end

end QueryMarkup.Tree
