import QueryMarkup.Proofs.Tree.Past
import QueryMarkup.Proofs.Tree.Watching

/-!
# Checks and inquiries are known at the desk

Whatever the host does with inquiries: a node's check was entered at the desk, and every inquiry
comes from a check that was.
-/
namespace QueryMarkup

theorem Desk.check_of_mem_ask {desk : Desk} {check : Nat} {inquiry : Option Inquiry} {r : Request}
    (h : r ∈ (desk.ask check inquiry).requests) : r ∈ desk.requests ∨ r.check = check := by
  cases inquiry with
  | none => exact .inl h
  | some inquiry =>
    rcases List.mem_append.mp h with old | new
    · exact .inl old
    · exact .inr (List.mem_singleton.mp new ▸ rfl)

namespace Tree

/-- The desk, if there is one, is that of the host, and it knows all checks of the tree and of its
inquiries. -/
structure Enrolled (host : Option (Inquiry → Reception)) (t : Tree) : Prop where
  served : t.desk.map (·.host) = host
  checks : ∀ x ∈ t.dockets, x.check < t.records.tickets.length
  requests : ∀ r ∈ t.records.requests, r.check < t.records.tickets.length

section
variable {host : Option (Inquiry → Reception)} {t t' : Tree}

theorem Keeps.dockets (kept : Keeps Node.docket? t t') : t'.dockets = t.dockets := by
  have shown := congrArg (List.filterMap id) kept.nodes
  rwa [List.filterMap_map, List.filterMap_map] at shown

theorem enrolled_new (host : Option (Inquiry → Reception)) :
    Enrolled host (new (host.map .serving)) where
  served := by cases host <;> rfl
  checks x hx := absurd hx List.not_mem_nil
  requests r hr := by
    cases host with
    | none => exact absurd hr List.not_mem_nil
    | some receive => exact absurd hr List.not_mem_nil

/-- Nodes may go. -/
theorem Enrolled.of_subset (h : t.Enrolled host) (dockets : t'.dockets ⊆ t.dockets)
    (desk : t'.desk = t.desk) : t'.Enrolled host := by
  have records := records_congr desk
  refine ⟨desk ▸ h.served, fun x hx => ?_, ?_⟩
  · rw [records]
    exact h.checks x (dockets hx)
  · rw [records]
    exact h.requests

theorem Enrolled.of_keeps (h : t.Enrolled host) (kept : Keeps Node.docket? t t')
    (desk : t'.desk = t.desk) : t'.Enrolled host :=
  h.of_subset (by rw [kept.dockets]; exact List.Subset.refl _) desk

theorem Enrolled.foldl {α : Type} {step : Tree → α → Tree}
    (hs : ∀ t x, Enrolled host t → (step t x).Enrolled host) (h : t.Enrolled host) (xs : List α) :
    (xs.foldl step t).Enrolled host := by
  induction xs generalizing t with
  | nil => exact h
  | cons x xs ih => exact ih (hs t x h)

/-! ## Asking -/

theorem desk_pose {t : Tree} {desk : Desk} {check : Nat} (renewed : t.desk = some (desk.renew check))
    (inquiry : Option Inquiry) :
    (t.pose (desk.renew check) check inquiry).desk = some (desk.ask check inquiry) := by
  cases inquiry with
  | none => exact renewed
  | some inquiry =>
    unfold pose
    dsimp only
    split
    · exact desk_answerCheck _ _ _
    · rfl

/-- The desk after a question of the schema, if there was one. -/
theorem desk_askSchema (t : Tree) (id : NodeId) : (t.askSchema id).desk = t.desk ∨
    ∃ x ∈ t.dockets, ∃ inquiry, t.desk = some t.records ∧
      (t.askSchema id).desk = some (t.records.ask x.check inquiry) := by
  cases served : t.desk with
  | none => exact .inl (by simp only [askSchema, served])
  | some desk =>
    have records : t.records = desk := by rw [Tree.records, served]; rfl
    cases found : t.node? id with
    | none => exact .inl (by simp only [askSchema, served, found, Option.bind_none])
    | some n =>
      cases checked : n.schema with
      | none =>
        exact .inl (by simp only [askSchema, served, found, checked, Option.bind_some, Option.map_none])
      | some check =>
        have docket : n.docket? = some ⟨n.id, check.number, schemaWatches n.id n.kind check⟩ := by
          rw [Node.docket?, checked]
          rfl
        have asked := askSchema_eq_pose served found checked
        exact .inr ⟨_, mem_dockets.mpr ⟨n, (node?_eq_some found).1, docket⟩, _, by rw [records],
          by rw [asked, records]; exact desk_pose rfl _⟩

theorem Enrolled.askSchema (h : t.Enrolled host) (id : NodeId) : (t.askSchema id).Enrolled host := by
  have kept : Keeps Node.docket? t (t.askSchema id) :=
    askSchema_keeps_of (fun n rejection => congrArg Wiring.docket? (n.wiring_answerSchema rejection)) t id
  have length := t.length_tickets_askSchema id
  refine ⟨?_, fun x hx => ?_, fun r hr => ?_⟩
  · rcases t.desk_askSchema id with same | ⟨x, -, inquiry, served, asked⟩
    · rw [same, h.served]
    · rw [asked, Option.map_some, Desk.host_ask, ← h.served, served, Option.map_some]
  · rw [length]
    exact h.checks x (kept.dockets ▸ hx)
  · rw [length]
    rcases t.desk_askSchema id with same | ⟨x, hx, inquiry, -, asked⟩
    · exact h.requests r (records_congr same ▸ hr)
    · rw [Tree.records, asked, Option.getD_some] at hr
      rcases Desk.check_of_mem_ask hr with old | own
      · exact h.requests r old
      · rw [own]
        exact h.checks x hx

theorem Enrolled.tell (h : t.Enrolled host) (id : NodeId) (name : String) (w : Watcher) :
    (t.tell id name w).Enrolled host := by
  cases w with
  | rule owner index => exact h.of_keeps (keeps_alter t owner _ fun _ => rfl) rfl
  | schema owner => exact h.askSchema owner
  | display =>
    exact h.of_keeps (followSlot_keeps_of (fun _ _ _ => rfl) t id name .display) (desk_followSlot _ _ _ _)
  | valueCheck =>
    exact h.of_keeps (followSlot_keeps_of (fun _ _ _ => rfl) t id name .valueCheck)
      (desk_followSlot _ _ _ _)

theorem Enrolled.writeSlot (h : t.Enrolled host) (id : NodeId) (name value : String) :
    (t.writeSlot id name value).Enrolled host := by
  unfold Tree.writeSlot
  split
  · exact h
  · dsimp only
    split
    · exact h
    · have written := h.of_keeps (keeps_alter t id (fun n => n.setSlot name value) fun _ => rfl) rfl
      exact written.foldl (fun _ w ht => ht.tell id name w) _

theorem Enrolled.createAttribute (h : t.Enrolled host) (id : NodeId) (name value : String) :
    (t.createAttribute id name value).Enrolled host := by
  have created := (h.writeSlot id name value).of_keeps
    (keeps_alter _ id (fun n => n.insertAttribute name) fun _ => rfl) rfl
  exact created.of_keeps (keeps_touch _ _) rfl

/-! ## New nodes -/

/-- A node with the next number at the desk is wired into the tree. -/
theorem Enrolled.wire {n : Node} {p : Tree} (h : t.Enrolled host)
    (mem : ∀ m ∈ p.nodes, m = n ∨ m ∈ t.nodes) (desk : p.desk = t.desk) (entered : ∀ {x}, n.docket? = some x →
      t.desk = some t.records ∧ x.check = t.records.tickets.length) : (p.wire n).Enrolled host := by
  obtain ⟨ruled, still, wired⟩ := p.wire_eq n
  have known {x : Docket} (hx : x ∈ ruled.dockets) : n.docket? = some x ∨ x ∈ t.dockets := by
    rw [still.dockets] at hx
    obtain ⟨m, hm, docket⟩ := mem_dockets.mp hx
    rcases mem m hm with rfl | hm
    · exact .inl docket
    · exact .inr (mem_dockets.mpr ⟨m, hm, docket⟩)
  have served : ruled.desk = t.desk := still.desk.trans desk
  rw [wired]
  cases own : n.docket? with
  | none =>
    refine h.of_subset (fun x hx => ?_) served
    rcases known hx with new | old
    · rw [own] at new
      cases new
    · exact old
  | some docket =>
    obtain ⟨staffed, number⟩ := entered own
    have records : (ruled.enlist docket).records = t.records.register := by
      rw [records_enlist (by rw [Tree.records, served, staffed]; rfl), records_congr served]
    have length : t.records.register.tickets.length = t.records.tickets.length + 1 := by
      simp [Desk.register]
    have dockets : (ruled.enlist docket).dockets = ruled.dockets := by
      have shown := congrArg (List.filterMap fun s : SchemaView => s.wiring.docket?)
        (schemaViews_enlist ruled docket)
      rwa [List.filterMap_map, List.filterMap_map] at shown
    refine Enrolled.askSchema ⟨?_, fun x hx => ?_, fun r hr => ?_⟩ docket.owner
    · rw [desk_enlist, served, Option.map_map, ← h.served]
      rfl
    · rw [records, length]
      rcases known (dockets ▸ hx) with new | old
      · rw [own, Option.some.injEq] at new
        rw [← new, number]
        exact Nat.lt_succ_self _
      · exact Nat.lt_succ_of_lt (h.checks x old)
    · rw [records, length]
      rw [records] at hr
      exact Nat.lt_succ_of_lt (h.requests r hr)

theorem Enrolled.adopt (h : t.Enrolled host) (parent : NodeId) (count : Nat) :
    (t.adopt parent count).Enrolled host :=
  h.of_keeps (adopt_keeps_of (fun _ _ _ => rfl) (fun _ _ _ _ _ => rfl) t parent count) (desk_adopt _ _ _)

theorem Enrolled.insert {kind : Kind} {tag : String} {parent id : NodeId} (h : t.Enrolled host)
    (e : t.insert kind tag parent = .ok (t', id)) : t'.Enrolled host := by
  obtain ⟨before, above, after, cut, -, rfl⟩ := insert_eq_ok e
  have placed (m : Node) (hm : m ∈ (t.placed kind tag before above after).nodes) :
      m = t.fresh kind tag (some above) ∨ m ∈ t.nodes := (mem_placed (splitAt_eq_some cut).1).mp hm
  have wired := h.wire placed rfl entered_fresh
  exact (wired.adopt parent _).of_keeps (keeps_touch _ _) rfl

/-! ## Answers -/

theorem Enrolled.resolve {number : Nat} {verdict : Verdict} {late : Bool} (h : t.Enrolled host)
    (e : t.resolve number verdict = some (t', late)) : t'.Enrolled host := by
  have kept : Keeps Node.docket? t t' := resolve_keeps_of
    (fun n rejection => congrArg Wiring.docket? (n.wiring_answerSchema rejection)) e
  obtain ⟨desk, request, served, -, -, made⟩ := resolve_eq_some e
  have closed : t'.desk = some (desk.close number) := by
    rw [made]
    split
    · rfl
    · exact desk_answerCheck _ _ _
  have records : t.records = desk := by rw [Tree.records, served]; rfl
  have records' : t'.records = desk.close number := by rw [Tree.records, closed]; rfl
  refine ⟨?_, fun x hx => ?_, fun r hr => ?_⟩
  · rw [closed, ← h.served, served]
    rfl
  · rw [records']
    exact records ▸ h.checks x (kept.dockets ▸ hx)
  · rw [records'] at hr ⊢
    obtain ⟨i, found⟩ := List.getElem?_of_mem hr
    rw [Desk.getElem?_close] at found
    obtain ⟨r, there, rfl⟩ := Option.map_eq_some_iff.mp found
    have entered := h.requests r (records ▸ List.mem_of_getElem? there)
    rw [records] at entered
    split <;> exact entered

/-- No change loses sight of a check. -/
theorem Change.enrolled (c : Change t t') (h : t.Enrolled host) : t'.Enrolled host := by
  cases c with
  | touch => exact h.of_keeps (keeps_touch _ _) rfl
  | clear =>
    have none : t.clear.dockets = [] := by rw [dockets, nodes_clear]; rfl
    exact h.of_subset (by simp [none]) (desk_setSelection _ _)
  | plant kind tag empty =>
    exact h.wire (p := { t with nodes := [t.fresh kind tag none], issued := t.issued + 1 })
      (fun m hm => .inl (List.mem_singleton.mp hm)) rfl entered_fresh
  | insert e => exact h.insert e
  | remove e => exact h.of_subset (fun x hx => ((mem_dockets_remove e).mp hx).1) (desk_remove e)
  | flip _ => exact h.of_keeps (flip_keeps (fun _ _ _ => rfl) t _) (desk_refreshVisibility _ _)
  | select _ =>
    refine h.of_subset (fun x hx => ?_) (desk_setSelection _ _)
    rwa [dockets, nodes_setSelection] at hx
  | write id name value => exact h.writeSlot id name value
  | create value _ _ => exact h.createAttribute _ _ value
  | discard id name =>
    have written := h.writeSlot id name ""
    exact written.of_keeps (keeps_alter _ id (fun n => n.eraseAttribute name) fun _ => rfl) rfl
  | resolve e => exact h.resolve e

end

end Tree

end QueryMarkup
