import QueryMarkup.Proofs.Tree.Asking

/-!
# What a step does to the schema checks

A check that is there after an edit was there before with the same names, and then nothing
about it has changed; or its names changed, and it has asked about the new ones; or it is
new. So what stands for a check is always the question about its present names.
-/
namespace QueryMarkup.Tree

/-- What has become of a schema check in a step. -/
inductive Fate (t t' : Tree) (x : Docket) : Prop where
  | kept : x ∈ t.dockets → t'.names x = t.names x → t'.rejectionAt x.owner = t.rejectionAt x.owner →
    Desk.Quiet x.check t.records t'.records → Fate t t' x
  /-- Its names have changed, and it has drawn a ticket. -/
  | renamed : x ∈ t.dockets → t'.names x ≠ t.names x →
    t.records.ticket x.check < t'.records.ticket x.check → t'.InOrder x → Fate t t' x
  /-- It was entered in the step. -/
  | entered : t.records.tickets.length ≤ x.check → t'.InOrder x → Fate t t' x

/-- A step in which no inquiry is answered. -/
structure Follows (t t' : Tree) : Prop where
  staffed : t'.Staffed
  grows : Desk.Grows t.records t'.records
  fates : ∀ {x}, x ∈ t'.dockets → Fate t t' x

/-- A step in which no name changes either. -/
structure Calm (t t' : Tree) : Prop extends Follows t t' where
  names : ∀ {x}, x ∈ t'.dockets → x ∈ t.dockets → t'.names x = t.names x

/-- All about the schema is in order. -/
structure Filed (t : Tree) : Prop where
  sound : t.Sound
  posted : t.Posted
  staffed : t.Staffed
  inOrder : ∀ {x}, x ∈ t.dockets → t.InOrder x

section
variable {s t t' : Tree} {x : Docket}

theorem InOrder.of_kept (h : t.InOrder x) (grows : Desk.Grows t.records t'.records)
    (names : t'.names x = t.names x) (rejection : t'.rejectionAt x.owner = t.rejectionAt x.owner)
    (quiet : Desk.Quiet x.check t.records t'.records) : t'.InOrder x := by
  rw [InOrder, names, rejection]
  exact Desk.Matches.of_quiet h grows quiet

theorem Still.calm (still : Still t t') (staffed : t.Staffed) : Calm t t' := by
  refine ⟨⟨staffed.congr still.desk, ?_, fun {x} hx => ?_⟩, fun {x} _ _ => by rw [still.names]⟩
  · rw [still.records]
    exact .refl _
  · refine .kept (still.dockets ▸ hx) (by rw [still.names]) (by rw [still.rejectionAt]) ?_
    rw [still.records]
    exact .refl _ _

/-- A step that changes no name may follow another. -/
theorem Follows.calm (h : Follows s t) (h' : Calm t t') : Follows s t' := by
  refine ⟨h'.staffed, h.grows.trans h'.grows, fun {x} hx => ?_⟩
  cases h'.fates hx with
  | kept there names rejection quiet =>
    cases h.fates there with
    | kept there' names' rejection' quiet' =>
      exact .kept there' (names.trans names') (rejection.trans rejection') (quiet'.trans quiet)
    | renamed there' changed drawn inOrder =>
      refine .renamed there' (names ▸ changed) (quiet.ticket ▸ drawn) ?_
      exact inOrder.of_kept h'.grows names rejection quiet
    | entered later inOrder => exact .entered later (inOrder.of_kept h'.grows names rejection quiet)
  | renamed there changed _ _ => exact absurd (h'.names hx there) changed
  | entered later inOrder => exact .entered (Nat.le_trans h.grows.entered later) inOrder

/-- The files stay in order. -/
theorem Follows.inOrder (h : Follows t t') (before : ∀ {x}, x ∈ t.dockets → t.InOrder x)
    (hx : x ∈ t'.dockets) : t'.InOrder x := by
  cases h.fates hx with
  | kept there names rejection quiet => exact (before there).of_kept h.grows names rejection quiet
  | renamed _ _ _ inOrder => exact inOrder
  | entered _ inOrder => exact inOrder

/-- All stays in order. -/
theorem Filed.next (h : t.Filed) (changes : Changes t t') (follows : Follows t t') : t'.Filed := by
  have step {t t' : Tree} (c : Change t t') (h : t.Sound ∧ t.Posted) : t'.Sound ∧ t'.Posted :=
    ⟨c.sound h.1, c.posted h.1 h.2⟩
  obtain ⟨sound, posted⟩ := changes.keep (P := fun t => t.Sound ∧ t.Posted) step ⟨h.sound, h.posted⟩
  exact ⟨sound, posted, follows.staffed, follows.inOrder h.inOrder⟩

theorem Filed.still (h : t.Filed) (sound : t'.Sound) (still : Still t t') : t'.Filed := by
  have follows := (still.calm h.staffed).toFollows
  exact ⟨sound, h.posted.still still, follows.staffed, follows.inOrder h.inOrder⟩

/-! ## Steps without checks -/

theorem filed_new : (new (some (.new none))).Filed where
  sound := sound_new _
  posted := posted_of_empty rfl
  staffed := ⟨rfl, fun _ => rfl, Desk.orderly_serving _⟩
  inOrder hx := absurd hx List.not_mem_nil

theorem clear_calm (staffed : t.Staffed) : Calm t t.clear := by
  have desk : t.clear.desk = t.desk := desk_setSelection _ none
  have none : t.clear.dockets = [] := by rw [dockets, nodes_clear]; rfl
  refine ⟨⟨staffed.congr desk, ?_, fun hx => ?_⟩, fun hx => ?_⟩
  · rw [records_congr desk]
    exact .refl _
  · simp [none] at hx
  · simp [none] at hx

/-! ## A new node -/

section
variable {n : Node} {p : Tree}

theorem Joined.node?_eq (join : Joined t n p) {id : NodeId} (other : id ≠ n.id) :
    p.node? id = t.node? id := by
  cases found : t.node? id with
  | none =>
    refine node?_eq_none.mpr fun m hm => ?_
    rcases (join.mem m).mp hm with rfl | hm
    · exact Ne.symm other
    · exact node?_eq_none.mp found m hm
  | some m =>
    obtain ⟨hm, rfl⟩ := node?_eq_some found
    exact node?_of_mem join.distinct ((join.mem m).mpr (.inr hm))

/-- A new node has no values yet. -/
theorem Joined.valueAt (join : Joined t n p) : p.valueAt = t.valueAt := by
  funext place
  by_cases here : place.1 = n.id
  · have mine : p.node? n.id = some n := node?_of_mem join.distinct ((join.mem n).mpr (.inl rfl))
    have absent : t.node? n.id = none :=
      node?_eq_none.mpr fun m hm same => join.fresh (List.mem_map.mpr ⟨m, hm, same⟩)
    have empty : n.value place.2 = "" := by rw [Node.value, join.slots]; rfl
    rw [Tree.valueAt, Tree.valueAt, here, mine, absent]
    exact empty
  · rw [Tree.valueAt, join.node?_eq here, Tree.valueAt]

theorem Joined.rejectionAt (join : Joined t n p) {owner : NodeId} (other : owner ≠ n.id) :
    p.rejectionAt owner = t.rejectionAt owner := by
  rw [Tree.rejectionAt, join.node?_eq other, Tree.rejectionAt]

theorem Joined.owner_ne (join : Joined t n p) {x : Docket} (hx : x ∈ t.dockets) : x.owner ≠ n.id := by
  obtain ⟨m, hm, docket⟩ := mem_dockets.mp hx
  rw [owner_docket? docket]
  exact fun same => join.fresh (List.mem_map.mpr ⟨m, hm, same⟩)

theorem Joined.names_wire (join : Joined t n p) : (p.wire n).names = t.names := by
  have valueAt : (p.wire n).valueAt = t.valueAt := by
    rw [← join.valueAt]
    refine valueAt_congr (wire_keeps_of (fun _ => rfl) (fun m name watcher => ?_) p n).nodes
    exact congrArg (Prod.mk m.id) (Slots.value_watch m.slots name watcher)
  funext x
  rw [names, valueAt, names]

/-- A new node without a check is nothing to the schema. -/
theorem Joined.calm_of_none (join : Joined t n p) (staffed : t.Staffed) (none : n.docket? = none) :
    Calm t (p.wire n) := by
  obtain ⟨ruled, still, wired⟩ := p.wire_eq n
  rw [none] at wired
  dsimp only at wired
  have mem {x : Docket} := @Joined.mem_dockets_wire t n p x join
  simp only [none, reduceCtorEq, false_or] at mem
  have desk : (p.wire n).desk = t.desk := by rw [wired, still.desk, join.desk]
  have records := records_congr desk
  refine ⟨⟨staffed.congr desk, ?_, fun {x} hx => ?_⟩, fun {x} _ _ => by rw [join.names_wire]⟩
  · rw [records]
    exact .refl _
  · refine .kept (mem.mp hx) (by rw [join.names_wire]) ?_ ?_
    · rw [wired, still.rejectionAt, join.rejectionAt (join.owner_ne (mem.mp hx))]
    · rw [records]
      exact .refl _ _

/-- The check of a new node is entered and asks its first question. -/
theorem Joined.calm_of_some (join : Joined t n p) (staffed : t.Staffed) (posted : t.Posted)
    {docket : Docket} (hd : n.docket? = some docket) : Calm t (p.wire n) := by
  obtain ⟨ruled, still, wired⟩ := p.wire_eq n
  rw [hd] at wired
  dsimp only at wired
  have desk : ruled.desk = t.desk := still.desk.trans join.desk
  have ruled_staffed := staffed.congr desk
  have records : (ruled.enlist docket).records = t.records.register := by
    rw [records_enlist ruled_staffed.desk, records_congr desk]
  have ids : (ruled.enlist docket).ids = p.ids := by
    rw [ids_enlist]
    have shown := congrArg (List.map Wiring.id) still.wirings
    rwa [List.map_map, List.map_map] at shown
  have wirings : (ruled.enlist docket).nodes.map Node.wiring =
      (p.wire n).nodes.map Node.wiring := by
    rw [wired, (askSchema_keeps_of Node.wiring_answerSchema _ _).nodes]
  have tickets : (p.wire n).records.tickets.length =
      (ruled.enlist docket).records.tickets.length := by rw [wired, length_tickets_askSchema]
  have told := told_askSchema (ruled_staffed.enlist docket) (ids ▸ join.distinct)
    ((join.posted_wire posted).congr wirings tickets.le) docket.owner
  rw [← wired] at told
  have grows : Desk.Grows t.records (ruled.enlist docket).records := by
    rw [records]
    exact Desk.grows_register _
  refine ⟨⟨told.staffed, grows.trans told.grows, fun {x} hx => ?_⟩,
    fun {x} _ _ => by rw [join.names_wire]⟩
  have hx' : x ∈ (ruled.enlist docket).dockets := dockets_congr wirings ▸ hx
  rcases join.mem_dockets_wire.mp hx with new | old
  · rw [hd, Option.some.injEq] at new
    subst new
    exact .entered (join.entered hd).2.ge (told.asked hx' (by simp)).2
  · have apart := join.owner_ne old
    have idle : .schema x.owner ∉ [Watcher.schema docket.owner] := by
      rw [owner_docket? hd]
      simpa using apart
    obtain ⟨rejection, quiet⟩ := told.rested hx' idle
    rw [records] at quiet
    refine .kept old (by rw [join.names_wire]) ?_ ((Desk.quiet_register _ _).trans quiet)
    rw [rejection, rejectionAt_enlist, still.rejectionAt, join.rejectionAt apart]

theorem Joined.calm_wire (join : Joined t n p) (staffed : t.Staffed) (posted : t.Posted) :
    Calm t (p.wire n) := by
  cases hd : n.docket? with
  | none => exact join.calm_of_none staffed hd
  | some docket => exact join.calm_of_some staffed posted hd

end

theorem plant_calm (staffed : t.Staffed) (posted : t.Posted) (empty : t.nodes = []) (kind : Kind)
    (tag : String) : Calm t (t.plantRoot kind tag) :=
  (plant_joined empty kind tag).calm_wire staffed posted

/-- A step that the schema does not notice may follow a calm one. -/
theorem Calm.still (h : Calm s t) (still : Still t t') : Calm s t' := by
  refine ⟨h.toFollows.calm (still.calm h.staffed), fun {x} hx there => ?_⟩
  rw [still.names]
  exact h.names (still.dockets ▸ hx) there

theorem insert_calm {kind : Kind} {tag : String} {parent id : NodeId} (h : t.Filed)
    (e : t.insert kind tag parent = .ok (t', id)) : Calm t t' := by
  obtain ⟨x, p, join, still⟩ := insert_joined h.sound e
  exact (join.calm_wire h.staffed h.posted).still still

/-! ## Nodes that go -/

/-- A node that stays keeps its values and its rejection. -/
theorem node?_remove {id other : NodeId} (sound : t.Sound) (e : t.remove id = .ok t')
    (stays : other ∉ t.goneWith id) : (t'.node? other).map (fun n => (n.value, n.rejection?)) =
      (t.node? other).map fun n => (n.value, n.rejection?) := by
  cases found : t.node? other with
  | none =>
    have none : t'.node? other = none := by
      refine node?_eq_none.mpr fun m hm => ?_
      obtain ⟨n, hn, -, same⟩ := exists_of_mem_remove e hm
      have name : m.id = n.id := congrArg (·.wiring.id) same
      exact name ▸ node?_eq_none.mp found n hn
    rw [none]
  | some n =>
    obtain ⟨hn, rfl⟩ := node?_eq_some found
    obtain ⟨m, hm, same⟩ := exists_remove e hn stays
    have name : m.id = n.id := congrArg (·.wiring.id) same
    have there := node?_of_mem (remove_sound sound e).nodup hm
    rw [name] at there
    rw [there]
    exact congrArg (fun s : SchemaView => some (s.value, s.rejection?)) same

theorem remove_calm {id : NodeId} (h : t.Filed) (e : t.remove id = .ok t') : Calm t t' := by
  have desk := desk_remove e
  have names {x : Docket} (hx : x ∈ t'.dockets) : t'.names x = t.names x := by
    obtain ⟨hx, stays⟩ := (mem_dockets_remove e).mp hx
    refine List.map_congr_left fun place hp => ?_
    have above := ((h.posted.under hx hp).stays h.sound e stays).2
    have value := congrArg (Option.map fun b => b.1 place.2) (node?_remove h.sound e above)
    rw [Option.map_map, Option.map_map] at value
    exact congrArg (Option.getD · "") value
  refine ⟨⟨h.staffed.congr desk, ?_, fun {x} hx => ?_⟩, fun hx _ => names hx⟩
  · rw [records_congr desk]
    exact .refl _
  · obtain ⟨there, stays⟩ := (mem_dockets_remove e).mp hx
    have rejection := congrArg (Option.bind · Prod.snd) (node?_remove h.sound e stays)
    rw [Option.bind_map, Option.bind_map] at rejection
    refine .kept there (names hx) rejection ?_
    rw [records_congr desk]
    exact .refl _ _

/-! ## Writing -/

theorem valueAt_setSlot {n : Node} (nd : t.ids.Nodup) (hn : n ∈ t.nodes) (name value : String)
    (place : NodeId × String) : (t.alter n.id fun n => n.setSlot name value).valueAt place =
      if place = (n.id, name) then value else t.valueAt place := by
  have stored (m : Node) (x : String) :
      (m.setSlot name value).value x = if name = x then value else m.value x := by
    rw [Node.value, Node.setSlot, Slots.value_alter _ _ (·.set value) fun _ => rfl, Slot.value_set]
    rfl
  obtain ⟨id, x⟩ := place
  rw [valueAt, valueAt, node?_alter (f := fun n => n.setSlot name value) (fun _ => rfl), Option.map_map]
  by_cases here : id = n.id
  · subst here
    rw [node?_of_mem nd hn]
    simp only [Option.map_some, Function.comp_apply, ↓reduceIte, stored, Option.getD_some,
      Prod.mk.injEq, true_and, eq_comm]
  · rw [if_neg fun e => here (congrArg Prod.fst e)]
    refine congrArg (Option.getD · "") (Option.map_congr fun m hm => ?_)
    obtain ⟨-, rfl⟩ := node?_eq_some hm
    rw [Function.comp_apply, if_neg here]

theorem rejectionAt_setSlot (t : Tree) (id : NodeId) (name value : String) :
    (t.alter id fun n => n.setSlot name value).rejectionAt = t.rejectionAt :=
  rejectionAt_congr (keeps_alter t id (fun n => n.setSlot name value) fun _ => rfl).nodes

/-- A check is told of a slot exactly when the slot is in its docket. -/
theorem Posted.told_iff (h : t.Posted) (nd : t.ids.Nodup) {n : Node} (hn : n ∈ t.nodes)
    (hx : x ∈ t.dockets) (name : String) :
    .schema x.owner ∈ (n.slots.get name).watchers ↔ (n.id, name) ∈ x.watches := by
  constructor
  · intro tells
    have hears : t.Hears x.owner (n.id, name) := ⟨n, hn, rfl, tells⟩
    obtain ⟨y, hy, same, watched⟩ := h.asked hears
    rwa [docket_of_owner nd hx hy same.symm]
  · intro watched
    obtain ⟨m, hm, here, tells⟩ := h.told hx watched
    rwa [List.inj_on_of_nodup_map nd hm hn here] at tells

/-- A write that changes a value makes exactly those checks ask whose names it changes. -/
theorem writeSlot_renames (h : t.Filed) {n : Node} (hn : n ∈ t.nodes) {name value : String}
    (change : n.value name ≠ value) : Follows t (t.writeSlot n.id name value) := by
  have nd := h.sound.nodup
  have wirings : (t.alter n.id fun n => n.setSlot name value).nodes.map Node.wiring =
      t.nodes.map Node.wiring := (keeps_alter t n.id _ fun n => n.wiring_setSlot name value).nodes
  have ids := ids_alter t n.id (fun n => n.setSlot name value) fun _ => rfl
  have staffed : (t.alter n.id fun n => n.setSlot name value).Staffed := h.staffed.congr rfl
  have told := told_all staffed
    (ids.symm ▸ nd) (h.posted.congr wirings (Nat.le_refl _)) n.id name
      (n.slots.get name).watchers
  have written : t.writeSlot n.id name value = (n.slots.get name).watchers.foldl
      (fun t w => t.tell n.id name w) (t.alter n.id fun n => n.setSlot name value) := by
    rw [writeSlot, node?_of_mem nd hn]
    exact if_neg change
  rw [← written] at told
  have values := valueAt_setSlot nd hn name value
  have kept := dockets_congr wirings
  refine ⟨told.staffed, told.grows, fun {x} hx => ?_⟩
  rw [told.dockets, kept] at hx
  have tells := h.posted.told_iff nd hn hx name
  by_cases watched : (n.id, name) ∈ x.watches
  · obtain ⟨drawn, inOrder⟩ := told.asked (kept ▸ hx) (tells.mpr watched)
    refine .renamed hx (fun same => change ?_) drawn inOrder
    rw [told.names] at same
    have value := List.map_inj_left.mp same _ watched
    rw [values, if_pos rfl, valueAt, node?_of_mem nd hn] at value
    exact value.symm
  · obtain ⟨rejection, quiet⟩ := told.rested (kept ▸ hx) fun hw => watched (tells.mp hw)
    refine .kept hx ?_ (by rw [rejection, rejectionAt_setSlot]) quiet
    rw [told.names]
    refine List.map_congr_left fun place hp => ?_
    rw [values, if_neg]
    rintro rfl
    exact watched hp

theorem writeSlot_follows (h : t.Filed) (id : NodeId) (name value : String) :
    Follows t (t.writeSlot id name value) := by
  have idle (same : t.writeSlot id name value = t) : Follows t (t.writeSlot id name value) := by
    rw [same]
    exact ((Still.refl t).calm h.staffed).toFollows
  cases found : t.node? id with
  | none =>
    apply idle
    rw [writeSlot, found]
  | some n =>
    obtain ⟨hn, rfl⟩ := node?_eq_some found
    by_cases there : n.value name = value
    · apply idle
      rw [writeSlot, found]
      exact if_pos there
    · exact writeSlot_renames h hn there

/-! ## Every edit -/

theorem Follows.still (h : Follows s t) (still : Still t t') : Follows s t' :=
  h.calm (still.calm h.staffed)

theorem add_follows {kind : Kind} {parent : Option NodeId} {id : NodeId} (h : t.Filed)
    (e : t.add kind parent = .ok (t', id)) : Follows t t' := by
  obtain ⟨above, added, -, inserted, rest⟩ := add_eq_ok e
  have first := insert_calm h inserted
  rcases rest with rfl | ⟨child, both, other, -, inserted', rfl⟩
  · exact first.toFollows.still (still_select added _)
  · have filed := h.next (Change.insert inserted).once first.toFollows
    exact (first.toFollows.calm (insert_calm filed inserted')).still (still_select both _)

/-- All checks of a tree were entered after another was given up. -/
structure Rebuilt (t t' : Tree) : Prop where
  filed : t'.Filed
  grows : Desk.Grows t.records t'.records
  entered : ∀ {x}, x ∈ t'.dockets → t.records.tickets.length ≤ x.check

theorem Rebuilt.follows (h : Rebuilt t t') : Follows t t' :=
  ⟨h.filed.staffed, h.grows, fun hx => .entered (h.entered hx) (h.filed.inOrder hx)⟩

theorem Rebuilt.next (h : Rebuilt s t) (filed : t'.Filed) (follows : Follows t t') : Rebuilt s t' := by
  refine ⟨filed, h.grows.trans follows.grows, fun hx => ?_⟩
  cases follows.fates hx with
  | kept there _ _ _ => exact h.entered there
  | renamed there _ _ _ => exact h.entered there
  | entered later _ => exact Nat.le_trans h.grows.entered later

theorem Rebuilt.still (h : Rebuilt s t) (sound : t'.Sound) (still : Still t t') : Rebuilt s t' :=
  h.next (h.filed.still sound still) (still.calm h.filed.staffed).toFollows

theorem rebuilt_clear (h : t.Filed) : Rebuilt t t.clear := by
  have cleared := (clear_calm h.staffed).toFollows
  refine ⟨h.next (Change.clear t).once cleared, cleared.grows, fun hx => ?_⟩
  rw [dockets, nodes_clear] at hx
  exact absurd hx List.not_mem_nil

theorem rebuilt_reset (h : t.Filed) : Rebuilt t t.reset := by
  have cleared := rebuilt_clear h
  have plants := (plant_calm cleared.filed.staffed cleared.filed.posted t.nodes_clear .fetch
    "fetch").toFollows
  have planted := cleared.next
    (cleared.filed.next (Change.plant .fetch "fetch" t.nodes_clear).once plants) plants
  obtain ⟨t', id, e, reset⟩ | reset := t.reset_cases
  · have adds := add_follows planted.filed e
    have added := planted.next (planted.filed.next (add_changes e) adds) adds
    have sound : (t'.setSelection none).Sound :=
      (Change.select (by simp)).sound added.filed.sound
    exact reset ▸ added.still sound (still_select t' none)
  · exact reset ▸ planted

theorem addParsed_follows {kind : Kind} {tag : String} {parent : Option NodeId} {id : NodeId} (h : t.Filed)
    (e : t.addParsed kind tag parent = .ok (t', id)) : Follows t t' := by
  obtain ⟨empty, -, rfl⟩ | ⟨-, above, -, inserted⟩ := addParsed_eq_ok e
  · exact ((plant_calm h.staffed h.posted empty kind tag).still (still_touch _)).toFollows
  · exact (insert_calm h inserted).toFollows

theorem toggle_follows {id : NodeId} (h : t.Filed) (e : t.toggle id = .ok t') : Follows t t' := by
  have idle : Follows t t := ((Still.refl t).calm h.staffed).toFollows
  obtain rfl | ⟨n, -, rfl, rfl | rfl⟩ := toggle_eq_ok e
  · exact idle
  · exact idle.still (still_flip t n.id)
  · exact (idle.still (still_flip t n.id)).still (still_select _ none)

theorem insertParsed_follows {id : NodeId} {name value : String} {issues : List StructuralIssue}
    (h : t.Filed) (e : t.insertParsed id name value = .ok (t', issues)) : Follows t t' := by
  have written := writeSlot_follows h id name value
  obtain ⟨-, -, ⟨-, rfl, -⟩ | ⟨-, rfl, -⟩⟩ := insertParsed_eq_ok e
  · exact written
  · exact written.still (still_createAttribute t id name value)

/-- No inquiry is answered by an edit of another kind. -/
theorem edit_follows (h : t.Filed) (e : Edit) (other : ∀ number verdict, e ≠ .resolve number verdict) :
    Follows t (t.edit e) := by
  have idle : Follows t t := ((Still.refl t).calm h.staffed).toFollows
  cases t.edit_outcome e with
  | same same =>
    rw [same]
    exact idle
  | clear _ made => exact made ▸ (clear_calm h.staffed).toFollows
  | reset _ made => exact made ▸ (rebuilt_reset h).follows
  | add _ made => exact add_follows h made
  | addParsed _ made => exact addParsed_follows h made
  | remove _ made => exact (remove_calm h made).toFollows
  | toggle _ made => exact toggle_follows h made
  | select _ _ made => exact made ▸ idle.still (still_select t _)
  | insert _ made => exact insertParsed_follows h made
  | @discard id name _ _ _ _ made =>
    have erased := (writeSlot_follows h id name "").still (still_eraseAttribute _ id name)
    exact made ▸ erased.still (still_touch _)
  | write _ _ _ made => exact made ▸ writeSlot_follows h _ _ _
  | resolve asked => exact absurd asked (other _ _)

/-! ## Answers -/

/-- An answer counts for the check for which the inquiry stands, and for no other. -/
structure Answered (t t' : Tree) (number : Nat) (verdict : Verdict) : Prop where
  desk : t'.desk = some (t.records.close number)
  dockets : t'.dockets = t.dockets
  names : t'.names = t.names
  stood : ∀ {x request}, x ∈ t.dockets → t.records.Stands x.check number request →
    t'.rejectionAt x.owner = verdict.message?
  others : ∀ {x}, x ∈ t.dockets → (∀ request, ¬ t.records.Stands x.check number request) →
    t'.rejectionAt x.owner = t.rejectionAt x.owner
  idle : (∀ x ∈ t.dockets, ∀ request, ¬ t.records.Stands x.check number request) →
    t'.nodes = t.nodes

/-- An answer is stored in the node that has the check, if there is one. -/
theorem answerCheck_cases (t : Tree) (check : Nat) (rejection : Option String) :
    (∃ x ∈ t.dockets, x.check = check ∧
      t.answerCheck check rejection = t.alter x.owner fun n => n.answerSchema rejection) ∨
    ((∀ x ∈ t.dockets, x.check ≠ check) ∧ t.answerCheck check rejection = t) := by
  unfold answerCheck
  split
  · rename_i n found
    have number := List.find?_some found
    obtain ⟨c, checked, same⟩ : ∃ c, n.schema = some c ∧ c.number = check := by
      simpa [Option.map_eq_some_iff] using number
    refine .inl ⟨⟨n.id, c.number, schemaWatches n.id n.kind c⟩, ?_, same, rfl⟩
    exact mem_dockets.mpr ⟨n, List.mem_of_find?_eq_some found, by rw [Node.docket?, checked]; rfl⟩
  · rename_i none
    refine .inr ⟨fun x hx mine => ?_, rfl⟩
    obtain ⟨n, hn, docket⟩ := mem_dockets.mp hx
    obtain ⟨c, checked, rfl⟩ := Option.map_eq_some_iff.mp docket
    have unlike := List.find?_eq_none.mp none n hn
    rw [checked] at unlike
    exact unlike (by simpa using mine)

theorem rejectionAt_answerCheck (h : t.Posted) (nd : t.ids.Nodup) (hx : x ∈ t.dockets) (check : Nat)
    (rejection : Option String) : (t.answerCheck check rejection).rejectionAt x.owner =
      if x.check = check then rejection else t.rejectionAt x.owner := by
  rcases answerCheck_cases t check rejection with ⟨y, hy, rfl, stored⟩ | ⟨none, same⟩
  · rw [stored, rejectionAt_answerSchema nd hy]
    by_cases mine : x.check = y.check
    · rw [if_pos mine, if_pos (congrArg Docket.owner (h.single hx hy mine))]
    · rw [if_neg mine, if_neg fun owner => mine (congrArg Docket.check (docket_of_owner nd hx hy owner))]
  · rw [same, if_neg (none x hx)]

theorem resolve_answered {number : Nat} {verdict : Verdict} {late : Bool} (h : t.Filed)
    (e : t.resolve number verdict = some (t', late)) : Answered t t' number verdict := by
  have dockets := dockets_congr (resolve_keeps_of Node.wiring_answerSchema e).nodes
  have kept : Keeps (fun n => (n.id, n.value)) t t' := resolve_keeps_of (fun _ _ => rfl) e
  have values := valueAt_congr kept.nodes
  obtain ⟨desk, request, found, opened, rfl, made⟩ := resolve_eq_some e
  have records : desk = t.records := by rw [Tree.records, found]; rfl
  subst records
  have there := (Option.filter_eq_some_iff.mp opened).1
  have names : t'.names = t.names := by
    funext x
    rw [Tree.names, values, Tree.names]
  cases stale : t.records.isStale request with
  | true =>
    simp only [stale, ↓reduceIte] at made
    refine ⟨by rw [made], dockets, names, fun hx stands => ?_, fun hx _ => by rw [made]; rfl,
      fun _ => by rw [made]⟩
    have same := stands.found
    rw [there, Option.some.injEq] at same
    subst same
    have current := stands.latest
    rw [← stands.asker, ← Desk.isStale_eq_false, stale] at current
    cases current
  | false =>
    simp only [stale, Bool.false_eq_true, ↓reduceIte] at made
    have stands {x : Docket} (mine : x.check = request.check) :
        t.records.Stands x.check number request :=
      ⟨there, mine.symm, mine ▸ Desk.isStale_eq_false.mp stale⟩
    have stored {x : Docket} (hx : x ∈ t.dockets) := @rejectionAt_answerCheck
      { t with desk := some (t.records.close number) } x (h.posted.congr rfl (Nat.le_refl _))
        h.sound.nodup hx request.check verdict.message?
    refine ⟨by rw [made, desk_answerCheck], dockets, names, fun hx stands => ?_, fun hx none => ?_,
      fun none => ?_⟩
    · have same := stands.found
      rw [there, Option.some.injEq] at same
      subst same
      rw [made, stored hx, if_pos stands.asker.symm]
    · rw [made, stored hx, if_neg fun mine => none request (stands mine)]
      rfl
    · rcases answerCheck_cases { t with desk := some (t.records.close number) } request.check
        verdict.message? with ⟨x, hx, mine, -⟩ | ⟨-, same⟩
      · exact absurd (stands mine) (none x hx request)
      · rw [made, same]

/-- An answer is refused where the inquiry is not open. -/
theorem openRequest?_of_resolve {number : Nat} {verdict : Verdict} (staffed : t.Staffed)
    (e : t.resolve number verdict = none) : t.records.openRequest? number = none := by
  cases opened : t.records.openRequest? number with
  | none => rfl
  | some request =>
    rw [resolve, staffed.desk] at e
    simp only [bind, Option.bind_some, opened, pure] at e
    split at e <;> cases e

theorem Answered.records {number : Nat} {verdict : Verdict} (h : Answered t t' number verdict) :
    t'.records = t.records.close number := by
  rw [Tree.records, h.desk]
  rfl

theorem Answered.filed {number : Nat} {verdict : Verdict} (h : t.Filed) (change : Change t t')
    (answered : Answered t t' number verdict) : t'.Filed := by
  have records := answered.records
  refine ⟨change.sound h.sound, change.posted h.sound h.posted, ⟨?_, ?_, ?_⟩, fun {x} hx => ?_⟩
  · rw [answered.desk, records]
  · rw [records]
    exact h.staffed.later
  · rw [records]
    exact h.staffed.orderly.close number
  · rw [answered.dockets] at hx
    rw [InOrder, records, answered.names]
    refine (h.inOrder hx).close number fun held => ?_
    by_cases stands : ∃ request, t.records.Stands x.check number request
    · exact .inr stands
    · rw [answered.others hx (not_exists.mp stands)] at held
      exact .inl held

end

end QueryMarkup.Tree
