import QueryMarkup.Proofs.Tree.FullEntry

/-!
# What follows from the values of a node

A node keeps written forms, findings, a label and its markup. They are current when a
computation from the values of the slots would give the same. Watchers bring them up to
date one at a time, so between a write and the end of its telling they are current but
for what the remaining watchers will renew.
-/
namespace QueryMarkup

/-! ## Computing anew -/

/-- What is wrong with the name or the value of an attribute of a node of this kind. -/
def Attribute.issuesAnew (kind : Kind) (name value : String) : List Issue :=
  match kind.attribute? name with
  | some spec => spec.valueKind.issues name value
  | none => [undeclaredIssue kind name]

theorem Attribute.display_create (kind : Kind) (name value : String) :
    (create kind name value).display.value =
      written name (create kind name value).content value := by
  unfold create
  split <;> rfl

theorem ValueKind.issues_text (name value : String) : ValueKind.text.issues name value = [] := by
  simp [ValueKind.issues, ValueKind.accepts]

theorem Attribute.issues_create (kind : Kind) (name value : String) :
    (create kind name value).issues = issuesAnew kind name value := by
  unfold create issuesAnew
  cases kind.attribute? name with
  | none => rfl
  | some spec =>
    by_cases h : spec.valueKind = .text
    · simp [Attribute.issues, h, ValueKind.issues_text]
    · simp [Attribute.issues, h, Outcome.first]

@[simp] theorem Attribute.name_create (kind : Kind) (name value : String) :
    (create kind name value).name = name := by
  unfold create
  split <;> rfl

/-- All but the written form and the findings of an attribute follows from kind and name. -/
theorem Attribute.base_create (kind : Kind) (name value value' : String) :
    (create kind name value).base = (create kind name value').base := by
  unfold create
  cases kind.attribute? name with
  | none => rfl
  | some spec => by_cases h : spec.valueKind = .text <;> simp [Attribute.base, h, Outcome.first]

@[simp] theorem Attribute.name_base (a : Attribute) : a.base.name = a.name := rfl

@[simp] theorem Attribute.order_base (a : Attribute) : a.base.order = a.order := rfl

@[simp] theorem Attribute.content_base (a : Attribute) : a.base.content = a.content := rfl

@[simp] theorem Attribute.displayable_base (a : Attribute) : a.base.displayable = a.displayable := rfl

@[simp] theorem Attribute.valueKind_base (a : Attribute) : a.base.valueKind = a.valueKind := rfl

/-- A value check of a declared attribute finds what a new check would find. -/
theorem Attribute.issues_recheck {kind : Kind} {a : Attribute} (value : String)
    (base : a.base = (create kind a.name "").base) (declared : (kind.attribute? a.name).isSome) :
    (a.recheck value).issues = issuesAnew kind a.name value := by
  obtain ⟨spec, hs⟩ := Option.isSome_iff_exists.mp declared
  have hk : a.valueKind = spec.valueKind := by
    have := congrArg Attribute.valueKind base
    simpa [create, hs] using this
  have hc : a.check.map (·.1) = if spec.valueKind = .text then none else some .valueKind := by
    have := congrArg (fun b : Attribute => b.check.map (·.1)) base
    simp only [Attribute.base, Option.map_map, Function.comp_def, create, hs] at this
    rw [this]
    split <;> rfl
  rw [issuesAnew, hs]
  by_cases h : spec.valueKind = .text
  · rw [if_pos h] at hc
    have none : a.check = none := by simpa using hc
    simp [Attribute.issues, recheck, none, h, ValueKind.issues_text]
  · rw [if_neg h] at hc
    obtain ⟨⟨check, outcome⟩, he, -⟩ := Option.map_eq_some_iff.mp hc
    simp [Attribute.issues, recheck, he, Outcome.again, hk]

namespace Node

/-! ## The parts of a node fit its kind -/

/-- The attributes and rules of a node are those that its kind gives. -/
structure Fitted (n : Node) : Prop where
  rules : n.rules.map (·.rule) = n.kind.rules
  attributes : ∀ a ∈ n.attributes, a.base = (Attribute.create n.kind a.name "").base
  names : (n.attributes.map (·.name)).Nodup
  sorted : n.attributes.Pairwise fun a b => a.order ≤ b.order

/-- Everything that looks at a slot watches it. `root` are the slots of the root. -/
structure Wired (root : Slots) (n : Node) : Prop where
  own : ∀ i rule x, n.kind.rules[i]? = some rule → .own x ∈ rule.watches →
    .rule n.id i ∈ (n.slots.get x).watchers
  root : ∀ i rule x, n.kind.rules[i]? = some rule → .root x ∈ rule.watches →
    .rule n.id i ∈ (root.get x).watchers
  attributes : ∀ a ∈ n.attributes, ∀ w ∈ a.watchers, w ∈ (n.slots.get a.name).watchers
  declared : ∀ x, .valueCheck ∈ (n.slots.get x).watchers → (n.kind.attribute? x).isSome

/-- Label, markup and findings of a node follow from its attributes and checks. -/
structure Settled (n : Node) : Prop where
  label : n.label = n.labelNow
  markup : n.markup = n.markupNow
  validation : n.validation.value = n.issuesNow

/-- The results that a node keeps are current, but for those that the watchers of a slot
in the list will renew. -/
structure FreshBut (id : NodeId) (name : String) (ws : List Watcher) (rootAggregate : String)
    (n : Node) : Prop where
  rules : ∀ i c, n.rules[i]? = some c → .rule n.id i ∉ ws →
    c.outcome.issues = c.rule.issues (n.scope rootAggregate)
  display : ∀ a ∈ n.attributes, ¬ (n.id = id ∧ a.name = name ∧ .display ∈ ws) →
    a.display.value = Attribute.written a.name a.content (n.value a.name)
  check : ∀ a ∈ n.attributes, ¬ (n.id = id ∧ a.name = name ∧ .valueCheck ∈ ws) →
    a.issues = Attribute.issuesAnew n.kind a.name (n.value a.name)

section
variable {n m : Node} {root : Slots}

theorem Fitted.of_base (h : n.Fitted) (e : m.base = n.base) : m.Fitted := by
  have attributes : m.attributes.map Attribute.base = n.attributes.map Attribute.base :=
    show m.base.attributes = n.base.attributes by rw [e]
  have kind : m.kind = n.kind := show m.base.kind = n.base.kind by rw [e]
  have names : m.attributes.map (·.name) = n.attributes.map (·.name) := by
    have := congrArg (List.map (·.name)) attributes
    rwa [List.map_map, List.map_map] at this
  refine ⟨?_, ?_, names ▸ h.names, ?_⟩
  · have rules : m.base.rules.map (·.rule) = n.base.rules.map (·.rule) := by rw [e]
    simp only [Node.base, List.map_map, Function.comp_def] at rules
    rw [kind, ← h.rules]
    exact rules
  · intro a ha
    have ha' : a.base ∈ n.attributes.map Attribute.base := attributes ▸ List.mem_map_of_mem ha
    obtain ⟨b, hb, e⟩ := List.mem_map.mp ha'
    have name : b.name = a.name := show b.base.name = a.base.name by rw [e]
    rw [← e, h.attributes b hb, kind, name]
  · have orders : m.attributes.map (·.order) = n.attributes.map (·.order) := by
      have := congrArg (List.map (·.order)) attributes
      rwa [List.map_map, List.map_map] at this
    have sorted := List.pairwise_map.mpr h.sorted
    rw [← orders] at sorted
    exact List.pairwise_map.mp sorted

theorem Wired.of_base (h : n.Wired root) (e : m.base = n.base) : m.Wired root := by
  have attributes : m.attributes.map Attribute.base = n.attributes.map Attribute.base :=
    show m.base.attributes = n.base.attributes by rw [e]
  have kind : m.kind = n.kind := show m.base.kind = n.base.kind by rw [e]
  have id : m.id = n.id := show m.base.id = n.base.id by rw [e]
  have slots : m.slots = n.slots := show m.base.slots = n.base.slots by rw [e]
  refine ⟨?_, ?_, ?_, ?_⟩
  · rw [kind, id, slots]
    exact h.own
  · rw [kind, id]
    exact h.root
  · intro a ha w hw
    have ha' : a.base ∈ n.attributes.map Attribute.base := attributes ▸ List.mem_map_of_mem ha
    obtain ⟨b, hb, e⟩ := List.mem_map.mp ha'
    have name : b.name = a.name := show b.base.name = a.base.name by rw [e]
    have watchers : b.watchers = a.watchers := by
      have := congrArg Attribute.valueKind e
      simp only [Attribute.valueKind_base] at this
      simp only [Attribute.watchers, this]
    rw [slots, ← name]
    exact h.attributes b hb w (watchers ▸ hw)
  · rw [slots, kind]
    exact h.declared

theorem settled_settle (n : Node) : n.settle.Settled where
  label := rfl
  markup := rfl
  validation := Cell.set_value _ _

end

end Node

end QueryMarkup
