import Mathlib.Algebra.GroupWithZero.Nat
import QueryMarkup.Proofs.Tree.Audience

/-!
# How many listen to a slot

The watchers of a slot, counted: for every rule of a node as often as it looks at the slot, and
one or two for the slot's own attribute.
-/
namespace QueryMarkup

/-- How often a rule of one node looks at a slot of another. -/
def Rule.timesWatching (rule : Rule) (owner root id : NodeId) (name : String) : Nat :=
  (if owner = id then rule.watches.count (.own name) else 0) +
    if root = id then rule.watches.count (.root name) else 0

/-- All that the rules of a kind look at. -/
def Kind.watches (kind : Kind) : List Watch := kind.rules.flatMap (·.watches)

/-- The declared kind of value of an attribute of this name. What is not declared holds any text. -/
def Kind.valueKind (kind : Kind) (name : String) : ValueKind :=
  ((kind.attribute? name).map (·.valueKind)).getD .text

/-! ## One node -/

theorem watchersAt_flatMap {α : Type} (id : NodeId) (name : String) (xs : List α)
    (f : α → List (NodeId × String × Watcher)) :
    watchersAt id name (xs.flatMap f) = xs.flatMap fun x => watchersAt id name (f x) := by
  rw [watchersAt, List.filter_flatMap, List.map_flatMap]
  rfl

/-- The places of what one rule looks at. -/
theorem watchersAt_watches (owner root id : NodeId) (name : String) (watches : List Watch) (w : Watcher) :
    watchersAt id name (watches.map fun watch => match watch with
      | .own name => (owner, name, w)
      | .root name => (root, name, w)) =
      List.replicate ((if owner = id then watches.count (.own name) else 0) +
        if root = id then watches.count (.root name) else 0) w := by
  refine List.eq_replicate_iff.mpr ⟨?_, fun v hv => ?_⟩
  · rw [watchersAt, List.length_map, ← List.countP_eq_length_filter, List.countP_map]
    induction watches with
    | nil => simp
    | cons watch watches ih =>
      rw [List.countP_cons, ih, List.count_cons, List.count_cons]
      cases watch with
      | own x => by_cases same : x = name <;> by_cases here : owner = id <;> simp [same, here]; omega
      | root x => by_cases same : x = name <;> by_cases here : root = id <;> simp [same, here]; omega
  · obtain ⟨e, he, rfl⟩ := List.mem_map.mp hv
    obtain ⟨watch, -, rfl⟩ := List.mem_map.mp (List.mem_filter.mp he).1
    cases watch <;> rfl

/-- The watchers that a node places in a slot, rule by rule. -/
theorem watchersAt_ruleWatches (owner root id : NodeId) (kind : Kind) (name : String) :
    watchersAt id name (Tree.ruleWatches owner root kind) =
      kind.rules.zipIdx.flatMap fun (rule, index) =>
        List.replicate (rule.timesWatching owner root id name) (.rule owner index) := by
  unfold Tree.ruleWatches Kind.ruleWatchers
  rw [List.map_flatMap, watchersAt_flatMap]
  refine List.flatMap_congr fun (rule, index) _ => ?_
  rw [List.map_map]
  exact watchersAt_watches owner root id name rule.watches (.rule owner index)

/-- A node watches a slot as often as its rules look at it. -/
theorem length_watchersAt (owner root id : NodeId) (kind : Kind) (name : String) :
    (watchersAt id name (Tree.ruleWatches owner root kind)).length =
      (if owner = id then kind.watches.count (.own name) else 0) +
        if root = id then kind.watches.count (.root name) else 0 := by
  have rules : kind.rules.zipIdx.map (fun x => x.1.timesWatching owner root id name) =
      kind.rules.map (·.timesWatching owner root id name) := by
    have firsts := List.zipIdx_map_fst 0 kind.rules
    rw [← firsts, List.map_map, firsts]
    rfl
  simp only [watchersAt_ruleWatches, List.length_flatMap, List.length_replicate, rules, Kind.watches]
  induction kind.rules with
  | nil => simp
  | cons rule rules ih =>
    rw [List.map_cons, List.sum_cons, ih, List.flatMap_cons, List.count_append, List.count_append,
      Rule.timesWatching]
    split <;> split <;> omega

/-- A rule watches a slot as often as it looks at it. -/
theorem count_watchersAt (owner root id : NodeId) (kind : Kind) (name : String) (index : Nat) :
    (watchersAt id name (Tree.ruleWatches owner root kind)).count (.rule owner index) =
      ((kind.rules[index]?).map (·.timesWatching owner root id name)).getD 0 := by
  have counted (rules : List Rule) (start : Nat) :
      ((rules.zipIdx start).flatMap fun (rule, i) =>
        List.replicate (rule.timesWatching owner root id name) (Watcher.rule owner i)).count
          (.rule owner index) =
        if start ≤ index then ((rules[index - start]?).map (·.timesWatching owner root id name)).getD 0
        else 0 := by
    induction rules generalizing start with
    | nil => simp
    | cons rule rules ih =>
      rw [List.zipIdx_cons, List.flatMap_cons, List.count_append, List.count_replicate, ih]
      rcases Nat.lt_trichotomy start index with before | rfl | behind
      · obtain ⟨further, rfl⟩ : ∃ further, index = start + (further + 1) := ⟨index - start - 1, by omega⟩
        have behind : start + (further + 1) - (start + 1) = further := by omega
        simp [behind]
      · simp
      · simp [Nat.ne_of_gt behind, Nat.not_le.mpr behind, Nat.not_le.mpr (Nat.lt_succ_of_lt behind)]
  rw [watchersAt_ruleWatches, counted, if_pos (Nat.zero_le index), Nat.sub_zero]

/-! ## All nodes -/

namespace SlotWatchers

variable {all : List SlotWatchers} {h : SlotWatchers}

theorem count_ruled (distinct : (all.map (·.id)).Nodup) (hh : h ∈ all) (root : Option NodeId)
    (id : NodeId) (name : String) (index : Nat) :
    (ruled root all id name).count (.rule h.id index) =
      ((h.kind.rules[index]?).map (·.timesWatching h.id (root.getD h.id) id name)).getD 0 := by
  obtain ⟨before, after, rfl⟩ := List.append_of_mem hh
  rw [List.map_append, List.map_cons, List.nodup_middle, List.nodup_cons, ← List.map_append] at distinct
  have others : (ruled root (before ++ after) id name).count (.rule h.id index) = 0 := by
    refine List.count_eq_zero.mpr fun placed => ?_
    obtain ⟨m, hm, placed⟩ := List.mem_flatMap.mp placed
    obtain ⟨i, same⟩ := rule_of_mem_watchersAt placed
    exact distinct.1 ((Watcher.rule.inj same).1 ▸ List.mem_map_of_mem hm)
  rw [(ruled_middle root before after h id name).count_eq, List.count_append, others, places,
    count_watchersAt]
  rfl

theorem length_ruled_cons (root : Option NodeId) (h : SlotWatchers) (all : List SlotWatchers) (id : NodeId)
    (name : String) : (ruled root (h :: all) id name).length =
      (watchersAt id name (h.places root)).length + (ruled root all id name).length := by
  rw [ruled, List.flatMap_cons, List.length_append]
  rfl

/-- A node is watched by its own rules, and if it is the root, by those that look at the root. -/
theorem length_ruled {r : NodeId} (distinct : (all.map (·.id)).Nodup) (hh : h ∈ all) (name : String) :
    (ruled (some r) all h.id name).length = h.kind.watches.count (.own name) +
      if r = h.id then (all.map fun m => m.kind.watches.count (.root name)).sum else 0 := by
  have apart (all : List SlotWatchers) (others : h.id ∉ all.map (·.id)) :
      (ruled (some r) all h.id name).length =
        if r = h.id then (all.map fun m => m.kind.watches.count (.root name)).sum else 0 := by
    induction all with
    | nil => simp [ruled]
    | cons m all ih =>
      rw [List.map_cons, List.mem_cons, not_or] at others
      rw [length_ruled_cons, ih others.2, places, length_watchersAt, if_neg (Ne.symm others.1)]
      split <;> simp_all
  obtain ⟨before, after, rfl⟩ := List.append_of_mem hh
  rw [List.map_append, List.map_cons, List.nodup_middle, List.nodup_cons, ← List.map_append] at distinct
  rw [(ruled_middle (some r) before after h h.id name).length_eq, List.length_append,
    apart _ distinct.1, places, length_watchersAt, if_pos rfl, Nat.add_assoc]
  by_cases here : r = h.id
  · simp only [Option.getD_some, if_pos here, List.map_append, List.map_cons, List.sum_append,
      List.sum_cons]
    omega
  · simp only [Option.getD_some, if_neg here]

end SlotWatchers

/-! ## Attributes -/

theorem Attribute.valueKind_create (kind : Kind) (name value : String) :
    (create kind name value).valueKind = kind.valueKind name := by
  unfold create Kind.valueKind
  cases kind.attribute? name <;> rfl

theorem Attribute.watchers_create (kind : Kind) (name value : String) : (create kind name value).watchers =
    .display :: if kind.valueKind name = .text then [] else [.valueCheck] := by
  rw [watchers, valueKind_create]

namespace Node

variable {n : Node} {name : String}

/-- A node that fits its kind has attributes of the declared kinds of value. -/
theorem Fitted.valueKind (h : n.Fitted) {a : Attribute} (ha : a ∈ n.attributes) :
    a.valueKind = n.kind.valueKind a.name := by
  have same := congrArg Attribute.valueKind (h.attributes a ha)
  simp only [Attribute.valueKind_base] at same
  rw [same, Attribute.valueKind_create]

/-- An attribute listens once for its written form, and once more if not every value will do. -/
theorem Fitted.ownWatchers (h : n.Fitted) (name : String) : n.ownWatchers name =
    if name ∈ n.attributes.map (·.name) then
      .display :: if n.kind.valueKind name = .text then [] else [.valueCheck]
    else [] := by
  unfold Node.ownWatchers
  cases found : n.attribute? name with
  | none =>
    rw [if_neg (Tree.attribute?_eq_none.mp found)]
    rfl
  | some a =>
    obtain ⟨ha, rfl⟩ := attribute?_eq_some found
    rw [if_pos (List.mem_map_of_mem ha), ← h.valueKind ha]
    rfl

end Node

/-! ## The root's `aggregate` -/

/-- Columns look at the root, at one value only. -/
theorem Kind.count_root (kind : Kind) (name : String) :
    kind.watches.count (.root name) = if kind = .column ∧ name = "aggregate" then 1 else 0 := by
  cases kind <;> simp [Kind.watches, Kind.rules, Rule.watches, List.count_cons, @eq_comm _ "aggregate"]

theorem sum_count_root (nodes : List Node) (name : String) :
    (nodes.map fun n => n.kind.watches.count (.root name)).sum =
      if name = "aggregate" then nodes.countP (·.kind = .column) else 0 := by
  induction nodes with
  | nil => simp
  | cons n nodes ih =>
    rw [List.map_cons, List.sum_cons, ih, Kind.count_root, List.countP_cons]
    by_cases named : name = "aggregate" <;> by_cases column : n.kind = .column <;>
      simp [named, column, Nat.add_comm]

namespace Tree

variable {t : Tree} {n : Node}

/-- The number of those who listen to a slot. -/
theorem Attended.length_watchers (h : t.Attended) (nd : t.ids.Nodup) (hn : n ∈ t.nodes)
    (fitted : n.Fitted) (name : String) : (n.slots.get name).watchers.length =
      n.kind.watches.count (.own name) +
      (if t.root? = some n ∧ name = "aggregate" then t.nodes.countP (·.kind = .column) else 0) +
      (if name ∈ n.attributes.map (·.name) then 1 + (if n.kind.valueKind name = .text then 0 else 1)
        else 0) := by
  have distinct : (t.slotWatchers.map (·.id)).Nodup := by
    rw [slotWatchers, List.map_map]
    exact nd
  obtain ⟨r, rest, nodes⟩ := List.exists_cons_of_ne_nil (List.ne_nil_of_mem hn)
  have root : SlotWatchers.rootOf t.slotWatchers = some r.id := by
    rw [rootOf_slotWatchers, ids, nodes]
    rfl
  have first : t.root? = some n ↔ r.id = n.id := by
    rw [root?, nodes, List.head?_cons, Option.some_inj]
    have hr : r ∈ t.nodes := nodes ▸ List.mem_cons_self
    exact ⟨fun same => same ▸ rfl, fun same => List.inj_on_of_nodup_map nd hr hn same⟩
  have heard := (h n.slotWatchers (List.mem_map_of_mem hn) name).length_eq
  have ruled := SlotWatchers.length_ruled (r := r.id) distinct (List.mem_map_of_mem hn) name
  have columns : (t.slotWatchers.map fun m => m.kind.watches.count (.root name)).sum =
      if name = "aggregate" then t.nodes.countP (·.kind = .column) else 0 := by
    rw [slotWatchers, List.map_map]
    exact sum_count_root t.nodes name
  have own : (n.ownWatchers name).length = if name ∈ n.attributes.map (·.name) then
      1 + (if n.kind.valueKind name = .text then 0 else 1) else 0 := by
    rw [fitted.ownWatchers]
    split
    · split <;> rfl
    · rfl
  rw [root, List.length_append, ruled, columns] at heard
  refine heard.trans ?_
  simp only [first, ← own]
  by_cases here : r.id = n.id <;> by_cases named : name = "aggregate" <;>
    simp [here, named, Node.slotWatchers]

end Tree

end QueryMarkup
