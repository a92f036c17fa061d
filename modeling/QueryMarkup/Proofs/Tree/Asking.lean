import QueryMarkup.Proofs.Tree.Watching

/-!
# Asking about changed names

Telling a schema check draws a ticket, withdraws the rejection and puts the question about
the names as they are now. A write does so for exactly those checks that watch the slot,
and these are exactly those whose names it changes.
-/
namespace QueryMarkup.Tree

/-- The desk is there, its host answers later, and its numbers are in order. -/
structure Staffed (t : Tree) : Prop where
  desk : t.desk = some t.records
  later : t.records.Later
  orderly : t.records.Orderly

/-- What stands for a check is the question about its names, and the rejection that holds
was the answer to it. -/
def InOrder (t : Tree) (x : Docket) : Prop :=
  t.records.Matches x.check (t.names x) (t.rejectionAt x.owner)

section
variable {t t' t'' : Tree} {x y : Docket}

theorem Staffed.congr (h : t.Staffed) (same : t'.desk = t.desk) : t'.Staffed := by
  have records := records_congr same
  refine ⟨?_, ?_, ?_⟩
  · rw [same, records, h.desk]
  · rw [records]
    exact h.later
  · rw [records]
    exact h.orderly

theorem Staffed.enlist (h : t.Staffed) (x : Docket) : (t.enlist x).Staffed := by
  have records := records_enlist h.desk x
  refine ⟨?_, ?_, ?_⟩
  · rw [desk_enlist, h.desk, records]
    rfl
  · rw [records]
    exact h.later
  · rw [records]
    exact h.orderly.register

/-- A node has one schema check at most. -/
theorem docket_of_owner (nd : t.ids.Nodup) (hx : x ∈ t.dockets) (hy : y ∈ t.dockets)
    (same : x.owner = y.owner) : x = y := by
  obtain ⟨n, hn, dx⟩ := mem_dockets.mp hx
  obtain ⟨m, hm, dy⟩ := mem_dockets.mp hy
  rw [owner_docket? dx, owner_docket? dy] at same
  rw [List.inj_on_of_nodup_map nd hn hm same] at dx
  exact Option.some.inj (dx.symm.trans dy)

theorem node?_alter {f : Node → Node} (named : ∀ n, (f n).id = n.id) (t : Tree) (id other : NodeId) :
    (t.alter id f).node? other = (t.node? other).map fun n => if n.id = id then f n else n := by
  simp only [node?, nodes_alter, List.find?_map]
  congr 2
  funext n
  rw [Function.comp_apply]
  split
  · rw [named]
  · rfl

/-- What a view shows of a node with a name is the same where all nodes look the same. -/
theorem map_node?_congr {β : Type} {view : Node → β}
    (same : t'.nodes.map (fun n => (n.id, view n)) = t.nodes.map (fun n => (n.id, view n)))
    (id : NodeId) : (t'.node? id).map view = (t.node? id).map view := by
  have found := congrArg (List.find? fun b : NodeId × β => b.1 == id) same
  rw [← map_node? Prod.fst (fun _ => rfl), ← map_node? Prod.fst (fun _ => rfl)] at found
  have shown := congrArg (Option.map Prod.snd) found
  rwa [Option.map_map, Option.map_map] at shown

theorem valueAt_congr
    (same : t'.nodes.map (fun n => (n.id, n.value)) = t.nodes.map (fun n => (n.id, n.value))) :
    t'.valueAt = t.valueAt := by
  funext place
  have value := congrArg (Option.map fun f : String → String => f place.2)
    (map_node?_congr same place.1)
  rw [Option.map_map, Option.map_map] at value
  exact congrArg (Option.getD · "") value

theorem rejectionAt_congr (same : t'.nodes.map (fun n => (n.id, n.rejection?)) =
    t.nodes.map (fun n => (n.id, n.rejection?))) : t'.rejectionAt = t.rejectionAt := by
  funext owner
  have rejection := congrArg (Option.bind · id) (map_node?_congr same owner)
  rw [Option.bind_map, Option.bind_map] at rejection
  exact rejection

theorem rejectionAt_enlist (t : Tree) (x : Docket) : (t.enlist x).rejectionAt = t.rejectionAt := by
  have shown := congrArg (List.map fun s : SchemaView => (s.wiring.id, s.rejection?))
    (schemaViews_enlist t x)
  rw [List.map_map, List.map_map] at shown
  exact rejectionAt_congr shown

/-- Storing an answer in a node that has a check. -/
theorem rejectionAt_answerSchema (nd : t.ids.Nodup) (hx : x ∈ t.dockets) (rejection : Option String)
    (other : NodeId) : (t.alter x.owner fun n => n.answerSchema rejection).rejectionAt other =
      if other = x.owner then rejection else t.rejectionAt other := by
  obtain ⟨n, hn, docket⟩ := mem_dockets.mp hx
  have owner := owner_docket? docket
  rw [rejectionAt, node?_alter (f := fun n => n.answerSchema rejection) (fun _ => rfl), Option.bind_map]
  by_cases same : other = x.owner
  · rw [same, owner, node?_of_mem nd hn]
    simp [Node.rejection?_answerSchema, docket]
  · rw [if_neg same, rejectionAt]
    refine Option.bind_congr fun m hm => ?_
    obtain ⟨-, rfl⟩ := node?_eq_some hm
    simp [same]

/-! ## One question -/

/-- What is asked about a node is asked about the names that its check watches. -/
theorem about?_names {n : Node} {check : SchemaCheck} (found : t.node? n.id = some n) :
    Inquiry.about? (t.names ⟨n.id, check.number, schemaWatches n.id n.kind check⟩) =
      n.inquiry? (t.valueAt (check.table, "name")) := by
  have own (name : String) : t.valueAt (n.id, name) = n.value name := by
    rw [valueAt, found]
    rfl
  unfold names schemaWatches Node.inquiry?
  cases n.kind.columnName? with
  | none => rfl
  | some name =>
    simp only [Option.toList_some, List.map_cons, List.map_nil, own, Inquiry.about?, Bool.or_eq_true]
    by_cases unnamed : (t.valueAt (check.table, "name")).isEmpty = true
    · simp only [unnamed, true_or, ↓reduceIte]
    · simp only [unnamed, false_or, ↓reduceIte, Bool.false_eq_true]

/-- Asking draws a ticket, withdraws the rejection and puts the question. -/
theorem askSchema_eq (staffed : t.Staffed) (nd : t.ids.Nodup) (hx : x ∈ t.dockets) :
    t.askSchema x.owner = { t.alter x.owner (fun n => n.answerSchema none) with
      desk := some (t.records.ask x.check (Inquiry.about? (t.names x))) } := by
  obtain ⟨n, hn, docket⟩ := mem_dockets.mp hx
  obtain ⟨check, checked, rfl⟩ := Option.map_eq_some_iff.mp docket
  have found := node?_of_mem nd hn
  have table : ((t.node? check.table).map (·.value "name")).getD "" = t.valueAt (check.table, "name") := rfl
  rw [about?_names found, ← table]
  unfold askSchema
  rw [staffed.desk, found]
  simp only [checked, Option.bind_some, Option.map_some]
  cases n.inquiry? (((t.node? check.table).map (·.value "name")).getD "") with
  | none => rfl
  | some inquiry =>
    have unanswered : ((t.records.renew check.number).host inquiry).verdict? = none :=
      congrArg Reception.verdict? (staffed.later inquiry)
    simp only [unanswered]
    rfl

/-- A node without a check has nothing to ask. -/
theorem askSchema_of_none {id : NodeId} (none : ∀ x ∈ t.dockets, x.owner ≠ id) :
    t.askSchema id = t := by
  unfold askSchema
  split
  · rename_i desk node check found asker
    obtain ⟨n, there, asker⟩ := Option.bind_eq_some_iff.mp asker
    obtain ⟨c, checked, e⟩ := Option.map_eq_some_iff.mp asker
    obtain ⟨hn, rfl⟩ := node?_eq_some there
    have docket : n.docket? = some ⟨n.id, c.number, schemaWatches n.id n.kind c⟩ := by
      rw [Node.docket?, checked]
      rfl
    exact absurd rfl (none _ (mem_dockets.mpr ⟨n, hn, docket⟩))
  · rfl

/-! ## Telling the watchers of a slot -/

/-- The watchers in a list have been told: the checks among them have asked, all others rest. -/
structure Told (ws : List Watcher) (t t' : Tree) : Prop where
  staffed : t'.Staffed
  wirings : t'.nodes.map Node.wiring = t.nodes.map Node.wiring
  values : t'.valueAt = t.valueAt
  grows : Desk.Grows t.records t'.records
  rested : ∀ {x}, x ∈ t.dockets → .schema x.owner ∉ ws →
    t'.rejectionAt x.owner = t.rejectionAt x.owner ∧ Desk.Quiet x.check t.records t'.records
  asked : ∀ {x}, x ∈ t.dockets → .schema x.owner ∈ ws →
    t.records.ticket x.check < t'.records.ticket x.check ∧ t'.InOrder x

theorem Told.names {ws : List Watcher} (h : Told ws t t') : t'.names = t.names := by
  funext x
  rw [Tree.names, h.values, Tree.names]

theorem Told.dockets {ws : List Watcher} (h : Told ws t t') : t'.dockets = t.dockets :=
  dockets_congr h.wirings

theorem told_still {ws : List Watcher} (staffed : t.Staffed) (still : Still t t')
    (idle : ∀ x ∈ t.dockets, .schema x.owner ∉ ws) : Told ws t t' := by
  refine ⟨staffed.congr still.desk, still.wirings, still.valueAt, ?_, fun hx _ => ⟨?_, ?_⟩, fun hx hw => ?_⟩
  · rw [still.records]
    exact .refl _
  · rw [still.rejectionAt]
  · rw [still.records]
    exact .refl _ _
  · exact absurd hw (idle _ hx)

/-- Watchers are told one after the other. -/
theorem Told.cons {w : Watcher} {ws : List Watcher} (h : Told [w] t t') (h' : Told ws t' t'') :
    Told (w :: ws) t t'' := by
  refine ⟨h'.staffed, h'.wirings.trans h.wirings, h'.values.trans h.values, h.grows.trans h'.grows,
    fun hx hw => ?_, fun {x} hx hw => ?_⟩
  · obtain ⟨apart, apart'⟩ := not_or.mp (fun e => hw (List.mem_cons.mpr e))
    obtain ⟨rejection, quiet⟩ := h.rested hx (by simpa using apart)
    obtain ⟨rejection', quiet'⟩ := h'.rested (h.dockets ▸ hx) apart'
    exact ⟨rejection'.trans rejection, quiet.trans quiet'⟩
  · by_cases later : .schema x.owner ∈ ws
    · obtain ⟨drawn, inOrder⟩ := h'.asked (h.dockets ▸ hx) later
      exact ⟨Nat.lt_of_le_of_lt (h.grows.tickets x.check) drawn, inOrder⟩
    · obtain ⟨rejection, quiet⟩ := h'.rested (h.dockets ▸ hx) later
      obtain ⟨drawn, inOrder⟩ := h.asked hx (by simpa [later] using hw)
      refine ⟨quiet.ticket ▸ drawn, ?_⟩
      rw [InOrder, h'.names, rejection]
      exact inOrder.of_quiet h'.grows quiet

theorem told_askSchema (staffed : t.Staffed) (nd : t.ids.Nodup) (posted : t.Posted) (owner : NodeId) :
    Told [.schema owner] t (t.askSchema owner) := by
  by_cases checked : ∃ x ∈ t.dockets, x.owner = owner
  · obtain ⟨x, hx, rfl⟩ := checked
    have entered := posted.entered hx
    have grows := Desk.grows_ask staffed.later entered (Inquiry.about? (t.names x))
    have asked := askSchema_eq staffed nd hx
    have records : (t.askSchema x.owner).records =
        t.records.ask x.check (Inquiry.about? (t.names x)) := by rw [asked]; rfl
    have rejection (other : NodeId) : (t.askSchema x.owner).rejectionAt other =
        if other = x.owner then none else t.rejectionAt other := by
      rw [asked]
      exact rejectionAt_answerSchema nd hx none other
    have wirings := (askSchema_keeps_of Node.wiring_answerSchema t x.owner).nodes
    have values : (t.askSchema x.owner).valueAt = t.valueAt :=
      valueAt_congr (askSchema_keeps_of (fun _ _ => rfl) t x.owner).nodes
    refine ⟨⟨?_, ?_, ?_⟩, wirings, values, ?_, fun {y} hy apart => ?_, fun {y} hy here => ?_⟩
    · rw [records, asked]
    · rw [records, Desk.Later, Desk.host_ask]
      exact staffed.later
    · rw [records]
      exact staffed.orderly.ask staffed.later entered _
    · rw [records]
      exact grows
    · have other : y.owner ≠ x.owner := by simpa using apart
      rw [rejection, if_neg other, records]
      refine ⟨rfl, Desk.quiet_ask staffed.later entered _ fun same => other ?_⟩
      rw [posted.single hy hx same]
    · have same : y = x := docket_of_owner nd hy hx (by simpa using here)
      subst same
      have names : (t.askSchema y.owner).names y = t.names y := by rw [names, values, names]
      rw [InOrder, names, rejection, if_pos rfl, records, Desk.ticket_ask entered, if_pos rfl]
      exact ⟨Nat.lt_succ_self _, staffed.orderly.matches_ask staffed.later entered _⟩
  · have none : ∀ x ∈ t.dockets, x.owner ≠ owner := fun x hx same => checked ⟨x, hx, same⟩
    rw [askSchema_of_none none]
    exact told_still staffed (.refl t) fun x hx => by simpa using none x hx

theorem still_followSlot (t : Tree) (id : NodeId) (name : String) (w : Watcher) :
    Still t (t.followSlot id name w) :=
  (followSlot_keeps_of (fun _ _ _ => rfl) t id name w).still (desk_followSlot t id name w)

theorem told_tell (staffed : t.Staffed) (nd : t.ids.Nodup) (posted : t.Posted) (id : NodeId)
    (name : String) (w : Watcher) : Told [w] t (t.tell id name w) := by
  cases w with
  | schema owner => exact told_askSchema staffed nd posted owner
  | rule owner index =>
    have still : Still t (t.recheckRule owner index) :=
      (keeps_alter t owner (fun n => n.recheckRule t.rootAggregate index) fun _ => rfl).still rfl
    exact told_still staffed still fun _ _ => by simp
  | display =>
    exact told_still staffed (still_followSlot t id name _) fun _ _ => by simp
  | valueCheck =>
    exact told_still staffed (still_followSlot t id name _) fun _ _ => by simp

theorem told_all (staffed : t.Staffed) (nd : t.ids.Nodup) (posted : t.Posted) (id : NodeId)
    (name : String) (ws : List Watcher) : Told ws t (ws.foldl (fun t w => t.tell id name w) t) := by
  induction ws generalizing t with
  | nil => exact told_still staffed (.refl t) fun _ _ => List.not_mem_nil
  | cons w ws ih =>
    have first := told_tell staffed nd posted id name w
    have ids : (t.tell id name w).ids = t.ids := by
      have := congrArg (List.map Wiring.id) first.wirings
      rwa [List.map_map, List.map_map] at this
    exact first.cons (ih first.staffed (ids ▸ nd)
      (posted.congr first.wirings (length_tickets_tell t id name w).ge))

end

end QueryMarkup.Tree
