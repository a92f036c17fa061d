import QueryMarkup.Proofs.Tree.Telling

/-!
# Writing keeps results current

What a rule finds depends on the values that it watches and, for the rule about
children, on their number. So a write or a new number of children makes only those
results stale that are then renewed.
-/
namespace QueryMarkup

/-! ## What a rule looks at -/

/-- A rule finds the same where it looks at the same. -/
theorem Rule.issues_congr {rule : Rule} {s s' : Scope} (kind : s'.kind = s.kind)
    (own : ∀ x, .own x ∈ rule.watches → s'.own x = s.own x)
    (root : .root "aggregate" ∈ rule.watches → s'.rootAggregate = s.rootAggregate)
    (count : rule = .requireChild → s'.childCount = s.childCount) :
    rule.issues s' = rule.issues s := by
  cases rule with
  | requireAttribute name =>
    simp only [issues, own name (by simp [watches])]
  | requireAnyOf names =>
    have any : (names.any fun name => isGiven (s'.own name)) =
        names.any fun name => isGiven (s.own name) := by
      rw [Bool.eq_iff_iff, List.any_eq_true, List.any_eq_true]
      constructor
      · rintro ⟨x, hx, hg⟩
        exact ⟨x, hx, by rwa [own x (by simpa [watches] using hx)] at hg⟩
      · rintro ⟨x, hx, hg⟩
        exact ⟨x, hx, by rwa [own x (by simpa [watches] using hx)]⟩
    simp only [issues, any]
  | aliasWhenAggregated =>
    unfold issues aggregatesItself
    dsimp only
    rw [own "alias" (by simp [watches]), own "aggregate" (by simp [watches]),
      root (by simp [watches])]
  | requireChild => simp only [issues, kind, count rfl]

/-- A name that is not value-checked has findings that do not depend on the value. -/
theorem Attribute.issuesAnew_of_text {kind : Kind} {a : Attribute}
    (base : a.base = (create kind a.name "").base) (text : a.valueKind = .text) (v v' : String) :
    issuesAnew kind a.name v = issuesAnew kind a.name v' := by
  unfold issuesAnew
  cases hs : kind.attribute? a.name with
  | none => rfl
  | some spec =>
    have : a.valueKind = spec.valueKind := by
      have := congrArg Attribute.valueKind base
      simpa [create, hs] using this
    simp only [← this, text, ValueKind.issues_text]

namespace Node

section
variable {n : Node} {root : Slots} {aggregate name value : String}

theorem rule_of_getElem? (h : n.Fitted) {i : Nat} {c : RuleCheck} (hc : n.rules[i]? = some c) :
    n.kind.rules[i]? = some c.rule := by
  rw [← h.rules, List.getElem?_map, hc]
  rfl

theorem watchers_setSlot (n : Node) (name value x : String) :
    ((n.setSlot name value).slots.get x).watchers = (n.slots.get x).watchers := by
  rw [setSlot, Slots.get_alter n.slots name (·.set value) fun _ => rfl]
  split
  · rename_i e
    rw [Slot.watchers_set, e]
  · rfl

theorem value_setSlot_of_ne {x : String} (h : x ≠ name) :
    (n.setSlot name value).value x = n.value x := by
  rw [Node.value, setSlot, Slots.value_alter n.slots name (·.set value) fun _ => rfl,
    if_neg (Ne.symm h)]
  rfl

theorem value_setSlot_self : (n.setSlot name value).value name = value := by
  rw [Node.value, setSlot, Slots.value_alter n.slots name (·.set value) fun _ => rfl, if_pos rfl,
    Slot.value_set]

/-- Other values in the slots are of no concern to the watchers. -/
theorem Wired.of_watchers {m : Node} {root' : Slots} (h : n.Wired root) (id : m.id = n.id)
    (kind : m.kind = n.kind) (attributes : m.attributes = n.attributes)
    (own : ∀ x, (m.slots.get x).watchers = (n.slots.get x).watchers)
    (roots : ∀ x, (root'.get x).watchers = (root.get x).watchers) : m.Wired root' := by
  refine ⟨?_, ?_, ?_, ?_⟩
  · intro i rule x hr hx
    rw [own, id]
    exact h.own i rule x (kind ▸ hr) hx
  · intro i rule x hr hx
    rw [roots, id]
    exact h.root i rule x (kind ▸ hr) hx
  · intro a ha w hw
    rw [own]
    exact h.attributes a (attributes ▸ ha) w hw
  · intro x hx
    rw [own] at hx
    rw [kind]
    exact h.declared x hx

/-- A write into a slot makes stale what its watchers work for. -/
theorem FreshBut.setSlot {id : NodeId} {x : String} {aggregate' : String}
    (h : n.FreshBut id x [] aggregate) (fitted : n.Fitted) (wired : n.Wired root)
    (same : aggregate' ≠ aggregate →
      (root.get "aggregate").watchers = (n.slots.get name).watchers) :
    (n.setSlot name value).FreshBut n.id name (n.slots.get name).watchers aggregate' := by
  refine ⟨?_, ?_, ?_⟩
  · intro i c hc hw
    have rule := rule_of_getElem? fitted hc
    rw [h.rules i c hc (by simp)]
    symm
    refine Rule.issues_congr rfl (fun x hx => ?_) (fun hx => ?_) fun _ => rfl
    · refine value_setSlot_of_ne fun e => hw ?_
      subst e
      exact wired.own i c.rule x rule hx
    · by_contra he
      exact hw (same he ▸ wired.root i c.rule _ rule hx)
  · intro a ha hw
    have ne : a.name ≠ name := fun e => hw ⟨rfl, e, e ▸ wired.attributes a ha _ List.mem_cons_self⟩
    rw [value_setSlot_of_ne ne]
    exact h.display a ha (by simp)
  · intro a ha hw
    have now := h.check a ha (by simp)
    by_cases e : a.name = name
    · have text : a.valueKind = .text := by
        by_contra hk
        refine hw ⟨rfl, e, ?_⟩
        rw [← e]
        exact wired.attributes a ha _ (by simp [Attribute.watchers, hk])
      rw [now]
      exact Attribute.issuesAnew_of_text (fitted.attributes a ha) text _ _
    · rw [value_setSlot_of_ne e]
      exact now

/-- A write into a slot of another node matters where the slot is the root's `aggregate`. -/
theorem FreshBut.write_elsewhere {id id' : NodeId} {x y : String} {ws : List Watcher}
    {aggregate' : String} (h : n.FreshBut id x [] aggregate) (fitted : n.Fitted)
    (wired : n.Wired root) (same : aggregate' ≠ aggregate → (root.get "aggregate").watchers = ws) :
    n.FreshBut id' y ws aggregate' := by
  refine ⟨?_, fun a ha _ => h.display a ha (by simp), fun a ha _ => h.check a ha (by simp)⟩
  intro i c hc hw
  rw [h.rules i c hc (by simp)]
  symm
  refine Rule.issues_congr rfl (fun _ _ => rfl) (fun hx => ?_) fun _ => rfl
  by_contra he
  exact hw (same he ▸ wired.root i c.rule _ (rule_of_getElem? fitted hc) hx)

end

end Node

namespace Tree

/-- All results that the nodes keep are current. -/
def Current (t : Tree) : Prop := t.CurrentBut ⟨0⟩ "" []

section
variable {t : Tree} {id : NodeId} {name value : String}

/-- With no watcher left to tell it does not matter which slot was written. -/
theorem CurrentBut.rename {id' : NodeId} {name' : String} (h : t.CurrentBut id name []) :
    t.CurrentBut id' name' [] :=
  ⟨h.fitted, h.wired, h.settled,
    fun n hn => ⟨fun i c hc _ => (h.fresh n hn).rules i c hc (by simp),
      fun a ha _ => (h.fresh n hn).display a ha (by simp),
      fun a ha _ => (h.fresh n hn).check a ha (by simp)⟩,
    by simp⟩

/-- What a change of one node does to the slots of the root. -/
theorem rootSlots_alter (t : Tree) (id : NodeId) (f : Node → Node) :
    (t.alter id f).rootSlots = t.rootSlots ∨
      ∃ r ∈ t.nodes, r.id = id ∧ t.rootSlots = r.slots ∧ (t.alter id f).rootSlots = (f r).slots := by
  unfold rootSlots root?
  rw [nodes_alter]
  cases h : t.nodes with
  | nil => exact .inl rfl
  | cons r rest =>
    by_cases hr : r.id = id
    · exact .inr ⟨r, List.mem_cons_self, hr, rfl, by simp [hr]⟩
    · exact .inl (by simp [hr])

theorem setSlot_current {n : Node} (h : t.Current) (nd : t.ids.Nodup) (hn : t.node? id = some n) :
    (t.alter id fun n => n.setSlot name value).CurrentBut id name (n.slots.get name).watchers := by
  obtain ⟨hm, rfl⟩ := node?_eq_some hn
  have only {k : Node} (hk : k ∈ t.nodes) (e : k.id = n.id) : k = n := List.inj_on_of_nodup_map nd hk hm e
  have watchers (x : String) : ((t.alter n.id fun n => n.setSlot name value).rootSlots.get x).watchers =
      (t.rootSlots.get x).watchers := by
    rcases rootSlots_alter t n.id (fun n => n.setSlot name value) with e | ⟨r, _, _, e, e'⟩
    · rw [e]
    · rw [e, e', Node.watchers_setSlot]
  have same : (t.alter n.id fun n => n.setSlot name value).rootAggregate ≠ t.rootAggregate →
      (t.rootSlots.get "aggregate").watchers = (n.slots.get name).watchers := by
    intro changed
    rw [rootAggregate_eq, rootAggregate_eq] at changed
    rcases rootSlots_alter t n.id (fun n => n.setSlot name value) with e | ⟨r, hr, hi, e, e'⟩
    · exact absurd (by rw [e]) changed
    · by_cases hname : name = "aggregate"
      · rw [e, only hr hi, hname]
      · refine absurd ?_ changed
        rw [e, e']
        exact Node.value_setSlot_of_ne (Ne.symm hname)
  refine ⟨?_, ?_, ?_, ?_, ?_⟩
  · apply forall_mem_alter
    · intro m hm _
      have fitted := h.fitted m hm
      exact ⟨fitted.rules, fitted.attributes, fitted.names, fitted.sorted⟩
    · exact fun m hm _ => h.fitted m hm
  · apply forall_mem_alter
    · exact fun m hm _ => (h.wired m hm).of_watchers rfl rfl rfl (m.watchers_setSlot name value) watchers
    · exact fun m hm _ => (h.wired m hm).of_watchers rfl rfl rfl (fun _ => rfl) watchers
  · apply forall_mem_alter
    · intro m hm _
      have settled := h.settled m hm
      exact ⟨settled.label, settled.markup, settled.validation⟩
    · exact fun m hm _ => h.settled m hm
  · apply forall_mem_alter
    · intro m hk here
      cases only hk here
      exact (h.fresh n hk).setSlot (h.fitted n hk) (h.wired n hk) same
    · exact fun m hk _ => (h.fresh m hk).write_elsewhere (h.fitted m hk) (h.wired m hk) same
  · intro hw
    apply forall_mem_alter
    · intro m hk here _
      cases only hk here
      exact (h.wired n hk).declared name hw
    · exact fun m _ other here => absurd here other

/-- A write keeps all results current. -/
theorem writeSlot_current (h : t.Current) (nd : t.ids.Nodup) (id : NodeId) (name value : String) :
    (t.writeSlot id name value).Current := by
  unfold writeSlot
  split
  · exact h
  · rename_i n hn
    dsimp only
    split
    · exact h
    · exact (tell_all_current (setSlot_current h nd hn)).rename

/-- A new number of children makes stale what the rules about children find. -/
theorem countChildren_current {n : Node} (h : t.Current) (nd : t.ids.Nodup) (hn : n ∈ t.nodes)
    (count : Nat) :
    (t.alter n.id fun n => { n with childCount := count }).CurrentBut n.id ""
      ((n.rules.zipIdx.filter fun x => x.1.rule == .requireChild).map fun x => .rule n.id x.2) := by
  have only {m : Node} (hm : m ∈ t.nodes) (e : m.id = n.id) : m = n := List.inj_on_of_nodup_map nd hm hn e
  have root : (t.alter n.id fun n => { n with childCount := count }).rootSlots = t.rootSlots := by
    rcases rootSlots_alter t n.id (fun n => { n with childCount := count }) with e | ⟨r, _, _, e, e'⟩
    · exact e
    · rw [e, e']
  refine ⟨?_, ?_, ?_, ?_, ?_⟩
  · apply forall_mem_alter
    · intro m hm _
      have fitted := h.fitted m hm
      exact ⟨fitted.rules, fitted.attributes, fitted.names, fitted.sorted⟩
    · exact fun m hm _ => h.fitted m hm
  · rw [root]
    apply forall_mem_alter
    · exact fun m hm _ => (h.wired m hm).of_watchers rfl rfl rfl (fun _ => rfl) fun _ => rfl
    · exact fun m hm _ => h.wired m hm
  · apply forall_mem_alter
    · intro m hm _
      have settled := h.settled m hm
      exact ⟨settled.label, settled.markup, settled.validation⟩
    · exact fun m hm _ => h.settled m hm
  · rw [rootAggregate_eq, root, ← rootAggregate_eq]
    apply forall_mem_alter
    · intro m hk here
      cases only hk here
      have fresh := h.fresh n hk
      refine ⟨fun i c hc hw => ?_, fun a ha _ => fresh.display a ha (by simp),
        fun a ha _ => fresh.check a ha (by simp)⟩
      rw [fresh.rules i c hc (by simp)]
      refine (Rule.issues_congr ?_ (fun _ _ => ?_) (fun _ => ?_) fun hr => absurd ?_ hw).symm
      · rfl
      · rfl
      · rfl
      · refine List.mem_map.mpr ⟨(c, i), List.mem_filter.mpr ⟨?_, by simp [hr]⟩, rfl⟩
        exact List.mem_zipIdx_iff_getElem?.mpr hc
    · intro m hk _
      have fresh := h.fresh m hk
      exact ⟨fun i c hc _ => fresh.rules i c hc (by simp), fun a ha _ => fresh.display a ha (by simp),
        fun a ha _ => fresh.check a ha (by simp)⟩
  · simp

theorem setChildCount_current (h : t.Current) (nd : t.ids.Nodup) (id : NodeId) (count : Nat) :
    (t.setChildCount id count).Current := by
  unfold setChildCount
  split
  · exact h
  · rename_i n hn
    obtain ⟨hm, rfl⟩ := node?_eq_some hn
    split
    · exact h
    · have told := tell_all_current (countChildren_current h nd hm count)
      rw [List.foldl_map] at told
      exact told.rename

end

end Tree

end QueryMarkup
