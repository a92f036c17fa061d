import QueryMarkup.Proofs.Tree.Asking
import QueryMarkup.Proofs.Tree.Lookup
import QueryMarkup.Proofs.Tree.Recount

/-!
# Counting evaluations

Rules and checks of values count how often they were evaluated. A watcher that is told lets the one
it works for count one more, and all others stay as they are.
-/
namespace QueryMarkup

/-- What is evaluated again and again. -/
inductive Validator where
  /-- The rule with this place among the rules of a node. -/
  | rule (node : NodeId) (index : Nat)
  /-- The check of an attribute against the declared kind of value. -/
  | value (node : NodeId) (name : String)
  deriving DecidableEq

/-- The node that has the validator. -/
def Validator.node : Validator → NodeId
  | rule node _ | value node _ => node

/-- The validator that a watcher of a slot works for. -/
def Watcher.validator? (id : NodeId) (name : String) : Watcher → Option Validator
  | rule owner index => some (.rule owner index)
  | valueCheck => some (.value id name)
  | schema _ | display => none

/-- How often the value was checked. An undeclared name is not checked for its value. -/
def Attribute.runs? (a : Attribute) : Option Nat :=
  a.check.bind fun (check, outcome) =>
    if check = .valueKind then some outcome.evaluations else none

/-- How often the node evaluated a validator that it has. -/
def Node.runs? (n : Node) : Validator → Option Nat
  | .rule _ index => (n.rules[index]?).map (·.outcome.evaluations)
  | .value _ name => (n.attribute? name).bind (·.runs?)

/-- How often a validator was evaluated since it is there. -/
def Tree.runs? (t : Tree) (v : Validator) : Option Nat := (t.node? v.node).bind (·.runs? v)

/-! ## One node -/

theorem Attribute.runs?_follow (a : Attribute) (value : String) (w : Watcher) :
    (a.follow value w).runs? = a.runs?.map (· + if w = .valueCheck then 1 else 0) := by
  cases w with
  | valueCheck =>
    unfold Attribute.runs? follow recheck
    cases a.check with
    | none => rfl
    | some c =>
      obtain ⟨check, outcome⟩ := c
      cases check <;> rfl
  | _ => simp [follow, redisplay, Attribute.runs?]

namespace Node

variable {n : Node} {name : String}

/-- Checking a rule again counts for this rule. -/
theorem runs?_recheckRule (n : Node) (aggregate : String) (index : Nat) (v : Validator) :
    (n.recheckRule aggregate index).runs? v =
      (n.runs? v).map (· + if v = .rule v.node index then 1 else 0) := by
  cases v with
  | rule owner i =>
    change ((n.rules.modify index _)[i]?).map _ = ((n.rules[i]?).map _).map _
    simp only [List.getElem?_modify, Option.map_eq_map, Option.map_map]
    refine Option.map_congr fun c _ => ?_
    by_cases here : index = i
    · simp [here, Validator.node, Outcome.again]
    · simp [here, Ne.symm here, Validator.node]
  | value owner name =>
    have same : (n.recheckRule aggregate index).runs? (.value owner name) = n.runs? (.value owner name) :=
      rfl
    simp [same]

/-- Following a slot counts for the check of the value, if that is what follows. -/
theorem runs?_followSlot (n : Node) (name : String) (w : Watcher) (v : Validator) :
    (n.followSlot name w).runs? v =
      (n.runs? v).map (· + if w = .valueCheck ∧ v = .value v.node name then 1 else 0) := by
  cases v with
  | rule owner i =>
    have same : (n.followSlot name w).runs? (.rule owner i) = n.runs? (.rule owner i) := rfl
    simp [same]
  | value owner x =>
    have found := n.attribute?_alterAttribute name (f := fun a => a.follow (n.value name) w)
      (fun a => by cases w <;> rfl) x
    change ((n.alterAttribute name fun a => a.follow (n.value name) w).attribute? x).bind _ = _
    rw [found, Option.bind_map, runs?, Option.map_bind]
    refine Option.bind_congr fun a ha => ?_
    obtain ⟨-, rfl⟩ := attribute?_eq_some ha
    by_cases here : a.name = name
    · simp [here, a.runs?_follow, Validator.node]
    · simp [here, Validator.node]

end Node

namespace Tree

variable {t t' : Tree} {id : NodeId}

theorem runs?_alter {f : Node → Node} (named : ∀ n, (f n).id = n.id) (t : Tree) (id : NodeId)
    (v : Validator) : (t.alter id f).runs? v =
      if v.node = id then (t.node? id).bind fun n => (f n).runs? v else t.runs? v := by
  rw [runs?, node?_alter named, Option.bind_map]
  split
  · rename_i here
    rw [here]
    refine Option.bind_congr fun n hn => ?_
    rw [Function.comp_apply, if_pos (node?_eq_some hn).2]
  · rename_i other
    refine Option.bind_congr fun n hn => ?_
    rw [Function.comp_apply, if_neg fun here => other ((node?_eq_some hn).2.symm.trans here)]

/-- Where all nodes count the same, nothing was evaluated. -/
theorem runs?_congr (same : t'.nodes.map (fun n => (n.id, n.runs?)) =
    t.nodes.map fun n => (n.id, n.runs?)) : t'.runs? = t.runs? := by
  funext v
  have counts := congrArg (Option.bind · fun runs : Validator → Option Nat => runs v)
    (map_node?_congr same v.node)
  rw [Option.bind_map, Option.bind_map] at counts
  exact counts

theorem Keeps.runs? (h : Keeps (fun n => (n.id, n.runs?)) t t') : t'.runs? = t.runs? :=
  runs?_congr h.nodes

theorem runs?_touch (t : Tree) : t.touch.runs? = t.runs? := rfl

/-! ## Telling and writing -/

theorem runs?_recheckRule (t : Tree) (id : NodeId) (index : Nat) (v : Validator) :
    (t.recheckRule id index).runs? v =
      (t.runs? v).map (· + if v = .rule id index then 1 else 0) := by
  rw [recheckRule, runs?_alter (f := fun n => n.recheckRule t.rootAggregate index) fun _ => rfl]
  split
  · rename_i here
    rw [runs?, here, Option.map_bind]
    refine Option.bind_congr fun n _ => ?_
    rw [Function.comp_apply, Node.runs?_recheckRule, here]
  · rename_i other
    have apart : v ≠ .rule id index := by
      rintro rfl
      exact other rfl
    simp [apart]

theorem runs?_followSlot (t : Tree) (id : NodeId) (name : String) (w : Watcher) (v : Validator) :
    (t.followSlot id name w).runs? v =
      (t.runs? v).map (· + if w = .valueCheck ∧ v = .value id name then 1 else 0) := by
  have followed : (t.followSlot id name w).runs? v =
      (t.alter id fun n => n.followSlot name w).runs? v := by
    unfold followSlot
    dsimp only
    split <;> rfl
  rw [followed, runs?_alter (f := fun n => n.followSlot name w) fun _ => rfl]
  split
  · rename_i here
    rw [runs?, here, Option.map_bind]
    refine Option.bind_congr fun n _ => ?_
    rw [Function.comp_apply, Node.runs?_followSlot, here]
  · rename_i other
    have apart : v ≠ .value id name := by
      rintro rfl
      exact other rfl
    simp [apart]

/-- A watcher that is told lets the validator that it works for count one more. -/
theorem runs?_tell (t : Tree) (id : NodeId) (name : String) (w : Watcher) (v : Validator) :
    (t.tell id name w).runs? v =
      (t.runs? v).map (· + if w.validator? id name = some v then 1 else 0) := by
  cases w with
  | rule owner index =>
    change (t.recheckRule owner index).runs? v = _
    rw [runs?_recheckRule]
    simp [Watcher.validator?, eq_comm]
  | schema owner =>
    change (t.askSchema owner).runs? v = _
    rw [(askSchema_keeps_of (fun _ _ => rfl) t owner).runs?]
    simp [Watcher.validator?]
  | display =>
    change (t.followSlot id name .display).runs? v = _
    rw [runs?_followSlot]
    simp [Watcher.validator?]
  | valueCheck =>
    change (t.followSlot id name .valueCheck).runs? v = _
    rw [runs?_followSlot]
    simp [Watcher.validator?, eq_comm]

theorem runs?_foldl_tell (t : Tree) (id : NodeId) (name : String) (ws : List Watcher) (v : Validator) :
    (ws.foldl (fun t w => t.tell id name w) t).runs? v =
      (t.runs? v).map (· + ws.countP fun w => w.validator? id name = some v) := by
  induction ws generalizing t with
  | nil => simp
  | cons w ws ih =>
    rw [List.foldl_cons, ih, runs?_tell, Option.map_map, List.countP_cons]
    refine Option.map_congr fun k _ => ?_
    simp only [Function.comp_apply, decide_eq_true_eq]
    omega

/-- A write that changes a value lets every validator count as often as it watches the slot. -/
theorem runs?_writeSlot {n : Node} (hn : t.node? id = some n) (name value : String) (v : Validator) :
    (t.writeSlot id name value).runs? v = (t.runs? v).map (· + if n.value name = value then 0
      else (n.slots.get name).watchers.countP fun w => w.validator? id name = some v) := by
  have stored : Keeps (fun n => (n.id, n.runs?)) t (t.alter id fun n => n.setSlot name value) :=
    keeps_alter t id _ fun _ => rfl
  unfold writeSlot
  rw [hn]
  dsimp only
  split
  · rename_i same
    have same : n.value name = value := same
    simp [same]
  · rename_i other
    have other : n.value name ≠ value := other
    rw [runs?_foldl_tell, stored.runs?, if_neg other]

/-! ## Attributes that come and go -/

/-- A new attribute lets nobody count. -/
theorem runs?_insertAttribute {n : Node} {name : String} {v : Validator} {k : Nat}
    (hn : t.node? id = some n) (absent : n.attribute? name = none) (h : t.runs? v = some k) :
    (t.alter id fun n => n.insertAttribute name).runs? v = some k := by
  rw [runs?_alter (f := fun n => n.insertAttribute name) fun _ => rfl]
  split
  · rename_i here
    rw [runs?, here, hn, Option.bind_some] at h
    rw [hn, Option.bind_some]
    cases v with
    | rule owner index => exact h
    | value owner x =>
      rw [Node.runs?, Node.attribute?_insertAttribute absent]
      split
      · rename_i same
        rw [Node.runs?, ← same, absent] at h
        cases h
      · exact h
  · exact h

/-- With an attribute goes the check of its value, and nothing else. -/
theorem runs?_eraseAttribute (t : Tree) (id : NodeId) (name : String) (v : Validator) :
    (t.alter id fun n => n.eraseAttribute name).runs? v =
      if v = .value id name then none else t.runs? v := by
  rw [runs?_alter (f := fun n => n.eraseAttribute name) fun _ => rfl]
  cases v with
  | rule owner index =>
    rw [if_neg fun same : Validator.rule owner index = .value id name => by cases same]
    split
    · rename_i here
      rw [runs?, here]
      rfl
    · rfl
  | value owner x =>
    have erased (n : Node) : (n.eraseAttribute name).runs? (.value owner x) =
        if name = x then none else n.runs? (.value owner x) := by
      rw [Node.runs?, Node.attribute?_eraseAttribute]
      split <;> rfl
    simp only [erased, Validator.node, Validator.value.injEq]
    by_cases here : owner = id
    · subst here
      by_cases same : name = x
      · simp [same]
      · simp [same, Ne.symm same, runs?, Validator.node]
    · simp [here]

end Tree

/-! ## Children that come and go -/

/-- The validator is a rule of the node that demands a child. -/
def Node.demandsChild (n : Node) : Validator → Bool
  | .rule owner index => decide (owner = n.id) && ((n.rules[index]?).any fun c => c.rule == .requireChild)
  | .value _ _ => false

/-- The places of the elements of a list that pass a test, counted. -/
theorem count_zipIdx_filter {α : Type} (p : α → Bool) (xs : List α) (i : Nat) :
    ((xs.zipIdx.filter fun x => p x.1).map (·.2)).count i = if (xs[i]?).any p then 1 else 0 := by
  have distinct : ((xs.zipIdx.filter fun x => p x.1).map (·.2)).Nodup := by
    refine List.Nodup.sublist (List.filter_sublist.map _) ?_
    rw [List.zipIdx_map_snd]
    exact List.nodup_range'
  have there : i ∈ (xs.zipIdx.filter fun x => p x.1).map (·.2) ↔ (xs[i]?).any p := by
    simp only [List.mem_map, List.mem_filter, Prod.exists, List.mk_mem_zipIdx_iff_getElem?,
      Option.any_eq_true]
    constructor
    · rintro ⟨x, j, ⟨hx, hp⟩, rfl⟩
      exact ⟨x, hx, hp⟩
    · rintro ⟨x, hx, hp⟩
      exact ⟨x, i, ⟨hx, hp⟩, rfl⟩
  split
  · rename_i found
    exact List.count_eq_one_of_mem distinct (there.mpr found)
  · rename_i absent
    exact List.count_eq_zero.mpr fun found => absent (there.mp found)

namespace Node

variable {n : Node} {count : Nat}

/-- A node with another number of children evaluates its rules that demand one. -/
theorem runs?_recount (other : n.childCount ≠ count) (aggregate : String) {v : Validator}
    (own : v.node = n.id) : (n.recount aggregate count).runs? v =
      (n.runs? v).map (· + if n.demandsChild v then 1 else 0) := by
  have steps (xs : List (RuleCheck × Nat)) (m : Node) :
      (xs.foldl (fun m x => m.recheckRule aggregate x.2) m).runs? v =
        (m.runs? v).map (· + (xs.map (·.2)).countP fun i => v = .rule v.node i) := by
    induction xs generalizing m with
    | nil => simp
    | cons x xs ih =>
      rw [List.foldl_cons, ih, runs?_recheckRule, Option.map_map, List.map_cons, List.countP_cons]
      refine Option.map_congr fun k _ => ?_
      simp only [Function.comp_apply, decide_eq_true_eq]
      omega
  rw [recount, if_neg other, steps]
  have same : ({ n with childCount := count } : Node).runs? v = n.runs? v := rfl
  rw [same]
  refine Option.map_congr fun k _ => ?_
  cases v with
  | rule owner i =>
    have places := count_zipIdx_filter (fun c : RuleCheck => c.rule == .requireChild) n.rules i
    have counted : ((n.rules.zipIdx.filter fun x => x.1.rule == .requireChild).map (·.2)).countP
        (fun j => decide (Validator.rule owner i = .rule owner j)) =
          if (n.rules[i]?).any fun c => c.rule == .requireChild then 1 else 0 := by
      rw [← places, List.count]
      refine List.countP_congr fun j _ => ?_
      simp only [Validator.rule.injEq, true_and, decide_eq_true_eq, beq_iff_eq]
      exact eq_comm
    have own : owner = n.id := own
    simp only [demandsChild, own, decide_true, Bool.true_and]
    rw [own] at counted
    exact congrArg (k + ·) counted
  | value owner x => simp [demandsChild]

end Node

end QueryMarkup
