import QueryMarkup.Proofs.Tree.Writing
import QueryMarkup.Proofs.Tree.Placing

/-!
# Adding and removing attributes and nodes

An attribute that is added watches its slot and has current results from the start. One
that is removed stops watching, and so does a node. What is left stays wired.
-/
namespace QueryMarkup

/-! ## The place of a new attribute -/

namespace Attribute

theorem insertInto_perm (a : Attribute) (as : List Attribute) : (a.insertInto as).Perm (a :: as) := by
  induction as with
  | nil => exact .refl _
  | cons b as ih =>
    unfold insertInto
    split
    · exact (ih.cons b).trans (.swap a b as)
    · exact .refl _

theorem mem_insertInto {a b : Attribute} {as : List Attribute} :
    b ∈ a.insertInto as ↔ b = a ∨ b ∈ as := by
  rw [(insertInto_perm a as).mem_iff, List.mem_cons]

theorem insertInto_sorted (a : Attribute) {as : List Attribute}
    (h : as.Pairwise fun a b => a.order ≤ b.order) :
    (a.insertInto as).Pairwise fun a b => a.order ≤ b.order := by
  induction as with
  | nil => exact List.pairwise_singleton _ _
  | cons b as ih =>
    obtain ⟨hb, has⟩ := List.pairwise_cons.mp h
    unfold insertInto
    split
    · rename_i hba
      refine List.pairwise_cons.mpr ⟨fun c hc => ?_, ih has⟩
      rcases mem_insertInto.mp hc with rfl | hc
      · exact hba
      · exact hb c hc
    · rename_i hba
      refine List.pairwise_cons.mpr ⟨fun c hc => ?_, h⟩
      rcases List.mem_cons.mp hc with rfl | hc
      · omega
      · have := hb c hc
        omega

theorem declared_of_valueCheck {kind : Kind} {name value : String}
    (h : .valueCheck ∈ (create kind name value).watchers) : (kind.attribute? name).isSome := by
  unfold create at h
  cases hs : kind.attribute? name with
  | none => simp [hs, watchers] at h
  | some spec => rfl

end Attribute

namespace Node

section
variable {n : Node} {root root' : Slots} {name : String}

/-- Rules that watch the root go on watching it. -/
theorem Wired.of_root (h : n.Wired root)
    (rules : ∀ x owner i, .rule owner i ∈ (root.get x).watchers → .rule owner i ∈ (root'.get x).watchers) :
    n.Wired root' :=
  ⟨h.own, fun i rule x hr hx => rules x _ _ (h.root i rule x hr hx), h.attributes, h.declared⟩

/-! ## A new attribute -/

theorem value_insertAttribute (n : Node) (name : String) :
    (n.insertAttribute name).slots.value = n.slots.value :=
  Slots.value_alter_of_value n.slots name
    (fun slot => (Attribute.create n.kind name (n.value name)).watchers.foldl Slot.watch slot)
    (fun s => s.name_foldl_watch _) fun s => s.value_foldl_watch _

theorem watchers_insertAttribute (n : Node) (name x : String) :
    ((n.insertAttribute name).slots.get x).watchers =
      (n.slots.get x).watchers ++
        if name = x then (Attribute.create n.kind name (n.value name)).watchers else [] := by
  change ((n.slots.alter name fun slot =>
    (Attribute.create n.kind name (n.value name)).watchers.foldl Slot.watch slot).get x).watchers = _
  rw [Slots.get_alter _ _ _ fun s => s.name_foldl_watch _]
  split
  · rename_i e
    subst e
    rw [Slot.watchers_foldl_watch]
  · rw [List.append_nil]

theorem Fitted.insertAttribute (h : n.Fitted) (absent : name ∉ n.attributes.map (·.name)) :
    (n.insertAttribute name).Fitted := by
  have perm := Attribute.insertInto_perm (Attribute.create n.kind name (n.value name)) n.attributes
  refine ⟨h.rules, ?_, ?_, Attribute.insertInto_sorted _ h.sorted⟩
  · intro a ha
    rcases Attribute.mem_insertInto.mp ha with rfl | ha
    · rw [Attribute.name_create]
      exact Attribute.base_create _ _ _ _
    · exact h.attributes a ha
  · refine (perm.map (·.name)).nodup_iff.mpr ?_
    rw [List.map_cons, Attribute.name_create]
    exact List.nodup_cons.mpr ⟨absent, h.names⟩

theorem Wired.insertAttribute (h : n.Wired root)
    (rules : ∀ x owner i, .rule owner i ∈ (root.get x).watchers → .rule owner i ∈ (root'.get x).watchers) :
    (n.insertAttribute name).Wired root' := by
  refine ⟨?_, ?_, ?_, ?_⟩
  · intro i rule x hr hx
    rw [watchers_insertAttribute]
    exact List.mem_append_left _ (h.own i rule x hr hx)
  · exact fun i rule x hr hx => rules x _ _ (h.root i rule x hr hx)
  · intro a ha w hw
    rw [watchers_insertAttribute]
    rcases Attribute.mem_insertInto.mp ha with rfl | ha
    · rw [Attribute.name_create, if_pos rfl]
      exact List.mem_append_right _ hw
    · exact List.mem_append_left _ (h.attributes a ha w hw)
  · intro x hx
    rw [watchers_insertAttribute] at hx
    rcases List.mem_append.mp hx with hx | hx
    · exact h.declared x hx
    · split at hx
      · rename_i e
        exact e ▸ Attribute.declared_of_valueCheck hx
      · cases hx

theorem FreshBut.insertAttribute {aggregate : String} (h : n.FreshBut ⟨0⟩ "" [] aggregate) :
    (n.insertAttribute name).FreshBut ⟨0⟩ "" [] aggregate := by
  have own : (n.insertAttribute name).value = n.value := value_insertAttribute n name
  refine ⟨?_, ?_, ?_⟩
  · intro i c hc hw
    have scope : (n.insertAttribute name).scope aggregate = n.scope aggregate := by
      simp only [Node.scope, own]
      rfl
    rw [scope]
    exact h.rules i c hc hw
  · intro a ha hw
    rw [own]
    rcases Attribute.mem_insertInto.mp ha with rfl | ha
    · rw [Attribute.name_create]
      exact Attribute.display_create _ _ _
    · exact h.display a ha hw
  · intro a ha hw
    rw [own]
    rcases Attribute.mem_insertInto.mp ha with rfl | ha
    · rw [Attribute.name_create]
      exact Attribute.issues_create _ _ _
    · exact h.check a ha hw

/-! ## An attribute less -/

theorem value_eraseAttribute (n : Node) (name : String) :
    (n.eraseAttribute name).slots.value = n.slots.value :=
  Slots.value_alter_of_value n.slots name Slot.release (fun _ => rfl) fun _ => rfl

theorem mem_watchers_eraseAttribute {x : String} {w : Watcher} :
    w ∈ ((n.eraseAttribute name).slots.get x).watchers ↔
      w ∈ (n.slots.get x).watchers ∧ (name = x → w ≠ .display ∧ w ≠ .valueCheck) := by
  change w ∈ ((n.slots.alter name Slot.release).get x).watchers ↔ _
  rw [Slots.get_alter _ _ Slot.release fun _ => rfl]
  by_cases e : name = x
  · subst e
    simp [Slot.release]
  · simp [e]

theorem Fitted.eraseAttribute (h : n.Fitted) : (n.eraseAttribute name).Fitted := by
  have sub : (n.eraseAttribute name).attributes.Sublist n.attributes := List.filter_sublist
  exact ⟨h.rules, fun a ha => h.attributes a (sub.subset ha), h.names.sublist (sub.map _),
    h.sorted.sublist sub⟩

theorem Wired.eraseAttribute (h : n.Wired root)
    (rules : ∀ x owner i, .rule owner i ∈ (root.get x).watchers → .rule owner i ∈ (root'.get x).watchers) :
    (n.eraseAttribute name).Wired root' := by
  refine ⟨?_, ?_, ?_, ?_⟩
  · intro i rule x hr hx
    exact mem_watchers_eraseAttribute.mpr ⟨h.own i rule x hr hx, by simp⟩
  · exact fun i rule x hr hx => rules x _ _ (h.root i rule x hr hx)
  · intro a ha w hw
    obtain ⟨ha, hn⟩ := List.mem_filter.mp ha
    refine mem_watchers_eraseAttribute.mpr ⟨h.attributes a ha w hw, fun e => ?_⟩
    simp [e] at hn
  · exact fun x hx => h.declared x (mem_watchers_eraseAttribute.mp hx).1

theorem FreshBut.eraseAttribute {aggregate : String} (h : n.FreshBut ⟨0⟩ "" [] aggregate) :
    (n.eraseAttribute name).FreshBut ⟨0⟩ "" [] aggregate := by
  have own : (n.eraseAttribute name).value = n.value := value_eraseAttribute n name
  have sub : (n.eraseAttribute name).attributes ⊆ n.attributes :=
    List.filter_sublist.subset
  refine ⟨?_, fun a ha hw => ?_, fun a ha hw => ?_⟩
  · intro i c hc hw
    have scope : (n.eraseAttribute name).scope aggregate = n.scope aggregate := by
      simp only [Node.scope, own]
      rfl
    rw [scope]
    exact h.rules i c hc hw
  · rw [own]
    exact h.display a (sub ha) hw
  · rw [own]
    exact h.check a (sub ha) hw

/-! ## Nodes that are gone -/

/-- A node whose slots are no longer watched by the nodes that are gone. -/
def forgetting (gone : List NodeId) (n : Node) : Node := { n with slots := n.slots.forget gone }

@[simp] theorem id_forgetting (gone : List NodeId) (n : Node) : (n.forgetting gone).id = n.id := rfl

theorem mem_watchers_forgetting {gone : List NodeId} {x : String} {w : Watcher} :
    w ∈ ((n.forgetting gone).slots.get x).watchers ↔
      w ∈ (n.slots.get x).watchers ∧ w.servesAny gone = false := by
  rw [forgetting, Slots.get_forget, Slot.forget, List.mem_filter]
  simp

theorem value_forgetting (gone : List NodeId) (n : Node) : (n.forgetting gone).value = n.value :=
  Slots.value_forget _ _

theorem Wired.forgetting {gone : List NodeId} (h : n.Wired root) (stays : n.id ∉ gone)
    (rules : ∀ x owner i, owner ∉ gone → .rule owner i ∈ (root.get x).watchers →
      .rule owner i ∈ (root'.get x).watchers) : (n.forgetting gone).Wired root' := by
  refine ⟨?_, ?_, ?_, ?_⟩
  · intro i rule x hr hx
    refine mem_watchers_forgetting.mpr ⟨h.own i rule x hr hx, ?_⟩
    simpa [Watcher.servesAny] using stays
  · exact fun i rule x hr hx => rules x _ _ stays (h.root i rule x hr hx)
  · intro a ha w hw
    refine mem_watchers_forgetting.mpr ⟨h.attributes a ha w hw, ?_⟩
    unfold Attribute.watchers at hw
    split at hw
    · cases List.mem_singleton.mp hw
      rfl
    · rcases List.mem_cons.mp hw with rfl | hw
      · rfl
      · cases List.mem_singleton.mp hw
        rfl
  · exact fun x hx => h.declared x (mem_watchers_forgetting.mp hx).1

theorem FreshBut.forgetting {gone : List NodeId} {aggregate : String}
    (h : n.FreshBut ⟨0⟩ "" [] aggregate) : (n.forgetting gone).FreshBut ⟨0⟩ "" [] aggregate := by
  have own := value_forgetting gone n
  refine ⟨?_, ?_, ?_⟩
  · intro i c hc hw
    have scope : (n.forgetting gone).scope aggregate = n.scope aggregate := by
      simp only [Node.scope, own]
      rfl
    rw [scope]
    exact h.rules i c hc hw
  · rw [own]
    exact h.display
  · rw [own]
    exact h.check

end

end Node

namespace Tree

section
variable {t : Tree} {id : NodeId} {name : String}

theorem rule_watchers_alter {f : Node → Node}
    (rules : ∀ n x owner i, .rule owner i ∈ (n.slots.get x).watchers →
      .rule owner i ∈ ((f n).slots.get x).watchers) (x : String) (owner : NodeId) (i : Nat)
    (hw : .rule owner i ∈ (t.rootSlots.get x).watchers) :
    .rule owner i ∈ ((t.alter id f).rootSlots.get x).watchers := by
  rcases rootSlots_alter t id f with e | ⟨r, _, _, e, e'⟩
  · rwa [e]
  · rw [e] at hw
    rw [e']
    exact rules r x owner i hw

/-- A change of one node that keeps values and the watchers of rules. -/
theorem Current.alter {f : Node → Node} (h : t.Current)
    (value : ∀ n, (f n).slots.value = n.slots.value)
    (rules : ∀ n x owner i, .rule owner i ∈ (n.slots.get x).watchers →
      .rule owner i ∈ ((f n).slots.get x).watchers)
    (fitted : ∀ n ∈ t.nodes, n.id = id → (f n).Fitted)
    (wired : ∀ n ∈ t.nodes, n.id = id → (f n).Wired (t.alter id f).rootSlots)
    (settled : ∀ n ∈ t.nodes, n.id = id → (f n).Settled)
    (fresh : ∀ n ∈ t.nodes, n.id = id → (f n).FreshBut ⟨0⟩ "" [] t.rootAggregate) :
    (t.alter id f).Current := by
  have aggregate : (t.alter id f).rootAggregate = t.rootAggregate := by
    rw [rootAggregate_eq, rootAggregate_eq]
    rcases rootSlots_alter t id f with e | ⟨r, _, _, e, e'⟩
    · rw [e]
    · rw [e, e', value]
  refine ⟨?_, ?_, ?_, ?_, by simp⟩
  · exact forall_mem_alter fitted fun n hn _ => h.fitted n hn
  · exact forall_mem_alter wired fun n hn _ => (h.wired n hn).of_root (rule_watchers_alter rules)
  · exact forall_mem_alter settled fun n hn _ => h.settled n hn
  · rw [aggregate]
    exact forall_mem_alter fresh fun n hn _ => h.fresh n hn

theorem insertAttribute_current (h : t.Current)
    (absent : ∀ n ∈ t.nodes, n.id = id → name ∉ n.attributes.map (·.name)) :
    (t.alter id fun n => n.insertAttribute name).Current := by
  have rules (n : Node) (x : String) (owner : NodeId) (i : Nat)
      (hw : .rule owner i ∈ (n.slots.get x).watchers) :
      .rule owner i ∈ ((n.insertAttribute name).slots.get x).watchers := by
    rw [Node.watchers_insertAttribute]
    exact List.mem_append_left _ hw
  refine h.alter (fun n => n.value_insertAttribute name) rules ?_ ?_ ?_ ?_
  · exact fun n hn hi => (h.fitted n hn).insertAttribute (absent n hn hi)
  · exact fun n hn _ => (h.wired n hn).insertAttribute (rule_watchers_alter rules)
  · exact fun _ _ _ => Node.settled_settle _
  · exact fun n hn _ => (h.fresh n hn).insertAttribute

theorem eraseAttribute_current (h : t.Current) :
    (t.alter id fun n => n.eraseAttribute name).Current := by
  have rules (n : Node) (x : String) (owner : NodeId) (i : Nat)
      (hw : .rule owner i ∈ (n.slots.get x).watchers) :
      .rule owner i ∈ ((n.eraseAttribute name).slots.get x).watchers :=
    Node.mem_watchers_eraseAttribute.mpr ⟨hw, by simp⟩
  refine h.alter (fun n => n.value_eraseAttribute name) rules ?_ ?_ ?_ ?_
  · exact fun n hn _ => (h.fitted n hn).eraseAttribute
  · exact fun n hn _ => (h.wired n hn).eraseAttribute (rule_watchers_alter rules)
  · exact fun _ _ _ => Node.settled_settle _
  · exact fun n hn _ => (h.fresh n hn).eraseAttribute

/-- Nodes other than the root may be taken out if what they watch is given up. -/
theorem forget_cut_current {gone : List NodeId} (h : t.Current)
    (root : ∀ r ∈ t.root?, r.id ∉ gone) : ((t.cut gone).forget gone).Current := by
  have slots : ((t.cut gone).forget gone).rootSlots = t.rootSlots.forget gone := by
    unfold rootSlots root?
    cases ht : t.nodes with
    | nil => simp [cut, forget, ht, Slots.forget, Slots.empty]
    | cons r rest =>
      have hr : r.id ∉ gone := root r (by rw [root?, ht]; rfl)
      simp [cut, forget, ht, hr]
  have node {m : Node} (hm : m ∈ ((t.cut gone).forget gone).nodes) :
      ∃ n ∈ t.nodes, n.id ∉ gone ∧ m = n.forgetting gone := by
    obtain ⟨n, hn, rfl⟩ := List.mem_map.mp hm
    obtain ⟨hn, hg⟩ := List.mem_filter.mp hn
    exact ⟨n, hn, by simpa using hg, rfl⟩
  refine ⟨?_, ?_, ?_, ?_, by simp⟩
  · intro m hm
    obtain ⟨n, hn, _, rfl⟩ := node hm
    exact ⟨(h.fitted n hn).rules, (h.fitted n hn).attributes, (h.fitted n hn).names,
      (h.fitted n hn).sorted⟩
  · intro m hm
    obtain ⟨n, hn, hg, rfl⟩ := node hm
    refine (h.wired n hn).forgetting hg fun x owner i ho hw => ?_
    rw [slots, Slots.get_forget]
    exact List.mem_filter.mpr ⟨hw, by simpa [Watcher.servesAny] using ho⟩
  · intro m hm
    obtain ⟨n, hn, _, rfl⟩ := node hm
    exact ⟨(h.settled n hn).label, (h.settled n hn).markup, (h.settled n hn).validation⟩
  · intro m hm
    obtain ⟨n, hn, _, rfl⟩ := node hm
    rw [rootAggregate_eq, slots, Slots.value_forget, ← rootAggregate_eq]
    exact (h.fresh n hn).forgetting

end

end Tree

end QueryMarkup
