import QueryMarkup.Proofs.Tree.Writing
import QueryMarkup.Tree.Insertion

/-!
# Placing watchers

Placing watchers changes no value, so no result. A new node whose watchers are placed
is wired, and all others stay so.
-/
namespace QueryMarkup

/-- A node after all watchers of a list that go into its slots were placed. -/
def Node.watchAll : List (NodeId × String × Watcher) → Node → Node
  | [], n => n
  | (id, name, w) :: entries, n =>
    watchAll entries (if n.id = id then { n with slots := n.slots.watch name w } else n)

namespace Node

variable {n : Node} {entries : List (NodeId × String × Watcher)} {root root' : Slots}

/-- Only the slots change, only in their watchers, and these grow by the list. -/
theorem watchAll_eq (entries : List (NodeId × String × Watcher)) (n : Node) :
    ∃ slots, n.watchAll entries = { n with slots } ∧ slots.value = n.slots.value ∧
      ∀ x w, w ∈ (slots.get x).watchers ↔ w ∈ (n.slots.get x).watchers ∨ (n.id, x, w) ∈ entries := by
  induction entries generalizing n with
  | nil => exact ⟨n.slots, rfl, rfl, by simp⟩
  | cons e entries ih =>
    obtain ⟨id, name, w⟩ := e
    by_cases hi : n.id = id
    · obtain ⟨slots, e, value, watchers⟩ := ih { n with slots := n.slots.watch name w }
      refine ⟨slots, by rw [watchAll, if_pos hi, e], value.trans (Slots.value_watch _ _ _), ?_⟩
      intro x v
      have here : v ∈ ((n.slots.watch name w).get x).watchers ↔
          v ∈ (n.slots.get x).watchers ∨ (x = name ∧ v = w) := by
        rw [Slots.get_watch]
        by_cases hx : name = x
        · subst hx
          simp
        · simp [hx, Ne.symm hx]
      rw [watchers x v]
      simp only [here, List.mem_cons, Prod.mk.injEq, hi, true_and, or_assoc]
    · obtain ⟨slots, e, value, watchers⟩ := ih n
      refine ⟨slots, by rw [watchAll, if_neg hi, e], value, ?_⟩
      intro x v
      simp [watchers x v, hi]

theorem mem_watchers_watchAll {x : String} {w : Watcher} :
    w ∈ ((n.watchAll entries).slots.get x).watchers ↔
      w ∈ (n.slots.get x).watchers ∨ (n.id, x, w) ∈ entries := by
  obtain ⟨slots, e, -, watchers⟩ := watchAll_eq entries n
  rw [e]
  exact watchers x w

theorem value_watchAll : (n.watchAll entries).slots.value = n.slots.value := by
  obtain ⟨slots, e, value, -⟩ := watchAll_eq entries n
  rw [e]
  exact value

theorem Fitted.watchAll (h : n.Fitted) : (n.watchAll entries).Fitted := by
  obtain ⟨slots, e, -⟩ := watchAll_eq entries n
  rw [e]
  exact ⟨h.rules, h.attributes, h.names, h.sorted⟩

theorem Settled.watchAll (h : n.Settled) : (n.watchAll entries).Settled := by
  obtain ⟨slots, e, -⟩ := watchAll_eq entries n
  rw [e]
  exact ⟨h.label, h.markup, h.validation⟩

theorem FreshBut.watchAll {id : NodeId} {name aggregate : String} {ws : List Watcher}
    (h : n.FreshBut id name ws aggregate) : (n.watchAll entries).FreshBut id name ws aggregate := by
  obtain ⟨slots, e, value, -⟩ := watchAll_eq entries n
  have own : Node.value { n with slots } = n.value := value
  rw [e]
  refine ⟨?_, ?_, ?_⟩
  · intro i c hc hw
    have scope : Node.scope { n with slots } aggregate = n.scope aggregate := by
      simp only [Node.scope, own]
    rw [scope]
    exact h.rules i c hc hw
  · rw [own]
    exact h.display
  · rw [own]
    exact h.check

/-- A wired node stays wired when watchers are added, unless they check values. -/
theorem Wired.watchAll (h : n.Wired root)
    (more : ∀ x w, w ∈ (root.get x).watchers → w ∈ (root'.get x).watchers)
    (plain : ∀ e ∈ entries, e.2.2 ≠ .valueCheck) : (n.watchAll entries).Wired root' := by
  obtain ⟨slots, e, -, watchers⟩ := watchAll_eq entries n
  rw [e]
  refine ⟨?_, ?_, ?_, ?_⟩
  · exact fun i rule x hr hx => (watchers x _).mpr (.inl (h.own i rule x hr hx))
  · exact fun i rule x hr hx => more x _ (h.root i rule x hr hx)
  · exact fun a ha w hw => (watchers a.name w).mpr (.inl (h.attributes a ha w hw))
  · intro x hx
    rcases (watchers x _).mp hx with hx | hx
    · exact h.declared x hx
    · exact absurd rfl (plain _ hx)

end Node

namespace Tree

variable {t t' : Tree} {entries : List (NodeId × String × Watcher)}

theorem nodes_foldl_watchSlot (t : Tree) (entries : List (NodeId × String × Watcher)) :
    (entries.foldl (fun t (id, name, w) => t.watchSlot id name w) t).nodes =
      t.nodes.map (Node.watchAll entries) := by
  induction entries generalizing t with
  | nil => exact (List.map_id _).symm
  | cons e entries ih =>
    obtain ⟨id, name, w⟩ := e
    rw [List.foldl_cons, ih]
    dsimp only
    unfold watchSlot
    rw [nodes_alter, List.map_map]
    rfl

theorem rootSlots_of_watchAll (h : t'.nodes = t.nodes.map (Node.watchAll entries)) :
    (t'.rootSlots = t.rootSlots ∧ t.root? = none) ∨
      ∃ r, t.root? = some r ∧ t.rootSlots = r.slots ∧ t'.rootSlots = (r.watchAll entries).slots := by
  unfold rootSlots root?
  rw [h, List.head?_map]
  cases t.nodes.head? with
  | none => exact .inl ⟨rfl, rfl⟩
  | some r => exact .inr ⟨r, rfl, rfl, rfl⟩

theorem value_rootSlots_of_watchAll (h : t'.nodes = t.nodes.map (Node.watchAll entries)) :
    t'.rootAggregate = t.rootAggregate := by
  rw [rootAggregate_eq, rootAggregate_eq]
  rcases rootSlots_of_watchAll h with ⟨e, -⟩ | ⟨r, -, e, e'⟩
  · rw [e]
  · rw [e, e', Node.value_watchAll]

theorem watchers_rootSlots_of_watchAll (h : t'.nodes = t.nodes.map (Node.watchAll entries))
    (x : String) (w : Watcher) (hw : w ∈ (t.rootSlots.get x).watchers) :
    w ∈ (t'.rootSlots.get x).watchers := by
  rcases rootSlots_of_watchAll h with ⟨e, -⟩ | ⟨r, -, e, e'⟩
  · rwa [e]
  · rw [e] at hw
    rw [e']
    exact Node.mem_watchers_watchAll.mpr (.inl hw)

/-- When the nodes are wired after placing watchers, all results are current if they were. -/
theorem current_of_watchAll (h : t'.nodes = t.nodes.map (Node.watchAll entries))
    (fitted : ∀ n ∈ t.nodes, n.Fitted) (settled : ∀ n ∈ t.nodes, n.Settled)
    (fresh : ∀ n ∈ t.nodes, n.FreshBut ⟨0⟩ "" [] t.rootAggregate)
    (wired : ∀ n ∈ t.nodes, (n.watchAll entries).Wired t'.rootSlots) : t'.Current := by
  have node {m : Node} (hm : m ∈ t'.nodes) : ∃ n ∈ t.nodes, m = n.watchAll entries := by
    rw [h] at hm
    obtain ⟨n, hn, e⟩ := List.mem_map.mp hm
    exact ⟨n, hn, e.symm⟩
  refine ⟨?_, ?_, ?_, ?_, by simp⟩
  · intro m hm
    obtain ⟨n, hn, rfl⟩ := node hm
    exact (fitted n hn).watchAll
  · intro m hm
    obtain ⟨n, hn, rfl⟩ := node hm
    exact wired n hn
  · intro m hm
    obtain ⟨n, hn, rfl⟩ := node hm
    exact (settled n hn).watchAll
  · intro m hm
    obtain ⟨n, hn, rfl⟩ := node hm
    rw [value_rootSlots_of_watchAll h]
    exact (fresh n hn).watchAll

/-- More watchers keep all results current, unless they check values. -/
theorem Current.watchAll (h : t.Current) (e : t'.nodes = t.nodes.map (Node.watchAll entries))
    (plain : ∀ e ∈ entries, e.2.2 ≠ .valueCheck) : t'.Current :=
  current_of_watchAll e h.fitted h.settled h.fresh fun n hn =>
    (h.wired n hn).watchAll (watchers_rootSlots_of_watchAll e) plain

/-- The watchers of the rules of a node, and where they are placed. -/
theorem mem_ruleWatches {id root i : NodeId} {kind : Kind} {name : String} {w : Watcher} :
    (i, name, w) ∈ ruleWatches id root kind ↔
      ∃ index rule, kind.rules[index]? = some rule ∧ w = .rule id index ∧
        ((.own name ∈ rule.watches ∧ i = id) ∨ (.root name ∈ rule.watches ∧ i = root)) := by
  unfold ruleWatches Kind.ruleWatchers
  constructor
  · intro h
    obtain ⟨⟨watch, watcher⟩, hm, e⟩ := List.mem_map.mp h
    obtain ⟨⟨rule, index⟩, hz, hm⟩ := List.mem_flatMap.mp hm
    obtain ⟨watch', hw, e'⟩ := List.mem_map.mp hm
    cases e'
    refine ⟨index, rule, List.mem_zipIdx_iff_getElem?.mp hz, ?_⟩
    cases watch with
    | own x =>
      cases e
      exact ⟨rfl, .inl ⟨hw, rfl⟩⟩
    | root x =>
      cases e
      exact ⟨rfl, .inr ⟨hw, rfl⟩⟩
  · rintro ⟨index, rule, hr, rfl, ⟨hw, rfl⟩ | ⟨hw, rfl⟩⟩
    · refine List.mem_map.mpr ⟨(.own name, .rule i index), ?_, rfl⟩
      exact List.mem_flatMap.mpr ⟨(rule, index), List.mem_zipIdx_iff_getElem?.mpr hr,
        List.mem_map.mpr ⟨_, hw, rfl⟩⟩
    · refine List.mem_map.mpr ⟨(.root name, .rule id index), ?_, rfl⟩
      exact List.mem_flatMap.mpr ⟨(rule, index), List.mem_zipIdx_iff_getElem?.mpr hr,
        List.mem_map.mpr ⟨_, hw, rfl⟩⟩

/-! ## New nodes -/

/-- A node as it is before its watchers are placed: without attributes, and with rules
that were evaluated on empty values. -/
structure Newborn (aggregate : String) (x : Node) : Prop where
  fitted : x.Fitted
  settled : x.Settled
  fresh : x.FreshBut ⟨0⟩ "" [] aggregate
  attributes : x.attributes = []
  slots : x.slots = .empty

theorem fresh_newborn (t : Tree) (kind : Kind) (tag : String) (parent : Option Node) :
    Newborn t.rootAggregate (t.fresh kind tag parent) := by
  have rules : (t.fresh kind tag parent).rules.map (·.rule) = kind.rules := by
    simp [fresh, Node.settle, Node.firstRules, Function.comp_def]
  refine ⟨⟨rules, ?_, ?_, ?_⟩, Node.settled_settle _, ⟨?_, ?_, ?_⟩, rfl, rfl⟩
  · intro a ha
    cases ha
  · exact List.nodup_nil
  · exact List.Pairwise.nil
  · intro i c hc _
    obtain ⟨rule, _, rfl⟩ : ∃ rule, kind.rules[i]? = some rule ∧ _ = c := by
      have : (kind.rules.map _)[i]? = some c := hc
      rw [List.getElem?_map] at this
      exact Option.map_eq_some_iff.mp this
    exact Rule.issues_congr rfl (fun _ _ => rfl) (fun _ => rfl) fun _ => rfl
  · intro a ha
    cases ha
  · intro a ha
    cases ha

theorem ruleWatches_plain {id root : NodeId} {kind : Kind} :
    ∀ e ∈ ruleWatches id root kind, e.2.2 ≠ .valueCheck := by
  rintro ⟨i, name, w⟩ h
  obtain ⟨index, rule, -, rfl, -⟩ := mem_ruleWatches.mp h
  simp

/-- The watchers of a new node's rules, once placed, wire it. -/
theorem Newborn.wired {aggregate : String} {x r : Node} (newborn : Newborn aggregate x)
    (h : t'.nodes = t.nodes.map (Node.watchAll (ruleWatches x.id r.id x.kind)))
    (root : t.root? = some r) :
    (x.watchAll (ruleWatches x.id r.id x.kind)).Wired t'.rootSlots := by
  obtain ⟨slots, e, -, watchers⟩ := Node.watchAll_eq (ruleWatches x.id r.id x.kind) x
  have slots' : t'.rootSlots = (r.watchAll (ruleWatches x.id r.id x.kind)).slots := by
    rcases rootSlots_of_watchAll h with ⟨-, e⟩ | ⟨r', e, -, e'⟩
    · rw [root] at e
      cases e
    · rw [root] at e
      cases e
      exact e'
  rw [e]
  refine ⟨?_, ?_, ?_, ?_⟩
  · intro i rule y hr hy
    exact (watchers y _).mpr (.inr (mem_ruleWatches.mpr ⟨i, rule, hr, rfl, .inl ⟨hy, rfl⟩⟩))
  · intro i rule y hr hy
    rw [slots']
    refine Node.mem_watchers_watchAll.mpr (.inr ?_)
    exact mem_ruleWatches.mpr ⟨i, rule, hr, rfl, .inr ⟨hy, rfl⟩⟩
  · intro a ha
    have none := newborn.attributes
    change a ∈ x.attributes at ha
    rw [none] at ha
    cases ha
  · intro y hy
    rcases (watchers y _).mp hy with hy | hy
    · rw [newborn.slots, Slots.watchers_empty] at hy
      cases hy
    · exact absurd rfl (ruleWatches_plain _ hy)

/-- Placing the watchers of a new node makes all results in the tree current. -/
theorem wire_current {x : Node} (hx : x ∈ t.nodes) (newborn : Newborn t.rootAggregate x)
    (only : ∀ n ∈ t.nodes, n.id = x.id → n = x)
    (others : ∀ n ∈ t.nodes, n.id ≠ x.id → n.Fitted ∧ n.Wired t.rootSlots ∧ n.Settled ∧
      n.FreshBut ⟨0⟩ "" [] t.rootAggregate) : (t.wire x).Current := by
  obtain ⟨r, hr⟩ : ∃ r, t.root? = some r := by
    cases h : t.root? with
    | none =>
      rw [List.head?_eq_none_iff.mp h] at hx
      cases hx
    | some r => exact ⟨r, rfl⟩
  have ruled : ((ruleWatches x.id r.id x.kind).foldl
      (fun t e => t.watchSlot e.1 e.2.1 e.2.2) t).Current := by
    have nodes := nodes_foldl_watchSlot t (ruleWatches x.id r.id x.kind)
    refine current_of_watchAll nodes ?_ ?_ ?_ ?_
    · intro n hn
      by_cases hi : n.id = x.id
      · exact only n hn hi ▸ newborn.fitted
      · exact (others n hn hi).1
    · intro n hn
      by_cases hi : n.id = x.id
      · exact only n hn hi ▸ newborn.settled
      · exact (others n hn hi).2.2.1
    · intro n hn
      by_cases hi : n.id = x.id
      · exact only n hn hi ▸ newborn.fresh
      · exact (others n hn hi).2.2.2
    · intro n hn
      by_cases hi : n.id = x.id
      · cases only n hn hi
        exact newborn.wired nodes hr
      · exact (others n hn hi).2.1.watchAll (watchers_rootSlots_of_watchAll nodes) ruleWatches_plain
  unfold wire
  simp only [hr, Option.map_some, Option.getD_some]
  split
  · exact ruled
  · rename_i check _
    refine askSchema_current ?_ x.id
    have asked (t : Tree) : ((schemaWatches x.id x.kind check).map fun e =>
        (e.1, e.2, Watcher.schema x.id)).foldl (fun t e => watchSlot t e.1 e.2.1 e.2.2) t =
          (schemaWatches x.id x.kind check).foldl
            (fun t e => watchSlot t e.1 e.2 (.schema x.id)) t := List.foldl_map
    rw [← asked]
    refine Current.watchAll (CurrentBut.desk ruled _) (nodes_foldl_watchSlot _ _) ?_
    rintro e he
    obtain ⟨e, _, rfl⟩ := List.mem_map.mp he
    simp

end Tree

end QueryMarkup
