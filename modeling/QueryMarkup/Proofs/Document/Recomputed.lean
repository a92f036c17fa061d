import QueryMarkup.Proofs.Document.Soundness
import QueryMarkup.Proofs.Tree.Schemaless
import QueryMarkup.Proofs.Tree.Upkeep

/-!
# Kept results and a computation from scratch

What a node keeps about its values is, after every run, what a computation from the
values alone would give: the written form of each attribute, the attributes as markup,
the label, and all findings.
-/
namespace QueryMarkup

/-- An attribute of this name is the text of an element of this kind. -/
def Kind.isContent (kind : Kind) (name : String) : Bool :=
  ((kind.attribute? name).map (·.content)).getD false

/-- An attribute of this name is shown in the label of a node of this kind. -/
def Kind.isDisplayable (kind : Kind) (name : String) : Bool :=
  ((kind.attribute? name).map (·.displayable)).getD false

namespace Node

/-- The names of the attributes that a node has, in their order. -/
def names (n : Node) : List String := n.attributes.map (·.name)

/-- The written form that the value under a name has. -/
def fragmentAnew (n : Node) (name : String) : String :=
  Attribute.written name (n.kind.isContent name) (n.value name)

def markupAnew (n : Node) : String :=
  let fragments := ((n.names.filter fun name => !n.kind.isContent name).map n.fragmentAnew).filter
    fun text => !text.isEmpty
  String.join (fragments.map fun text => " " ++ text)

def labelAnew (n : Node) : String :=
  let shown := ((n.names.filter n.kind.isDisplayable).map n.fragmentAnew).filter
    fun text => !text.isEmpty
  if shown.isEmpty then n.fallbackLabel else " ".intercalate shown

/-- What the rules of the kind and then the checks of the attributes find. -/
def issuesAnew (n : Node) (rootAggregate : String) (children : Nat) : List Issue :=
  (n.kind.rules.flatMap fun rule => rule.issues ⟨n.kind, n.value, rootAggregate, children⟩) ++
    n.names.flatMap fun name => Attribute.issuesAnew n.kind name (n.value name)

section
variable {n : Node} {root : Slots} {aggregate : String}

theorem Fitted.isContent (h : n.Fitted) {a : Attribute} (ha : a ∈ n.attributes) :
    a.content = n.kind.isContent a.name := by
  have := congrArg Attribute.content (h.attributes a ha)
  simp only [Attribute.content_base] at this
  rw [this, Attribute.create, Kind.isContent]
  cases n.kind.attribute? a.name <;> rfl

theorem Fitted.isDisplayable (h : n.Fitted) {a : Attribute} (ha : a ∈ n.attributes) :
    a.displayable = n.kind.isDisplayable a.name := by
  have := congrArg Attribute.displayable (h.attributes a ha)
  simp only [Attribute.displayable_base] at this
  rw [this, Attribute.create, Kind.isDisplayable]
  cases n.kind.attribute? a.name <;> rfl

theorem display_eq (fitted : n.Fitted) (fresh : n.FreshBut ⟨0⟩ "" [] aggregate) {a : Attribute}
    (ha : a ∈ n.attributes) : a.display.value = n.fragmentAnew a.name := by
  rw [fresh.display a ha (by simp), fragmentAnew, fitted.isContent ha]

/-- Choosing attributes by their kind's word on their names. -/
theorem map_display_filter (fitted : n.Fitted) (fresh : n.FreshBut ⟨0⟩ "" [] aggregate)
    (p : Attribute → Bool) (q : String → Bool) (hpq : ∀ a ∈ n.attributes, p a = q a.name) :
    (n.attributes.filter p).map (·.display.value) = (n.names.filter q).map n.fragmentAnew := by
  rw [names, List.filter_map, List.map_map]
  have same : n.attributes.filter p = n.attributes.filter (q ∘ (·.name)) :=
    List.filter_congr fun a ha => hpq a ha
  rw [same]
  exact List.map_congr_left fun a ha => display_eq fitted fresh (List.mem_filter.mp ha).1

theorem markupNow_eq (fitted : n.Fitted) (fresh : n.FreshBut ⟨0⟩ "" [] aggregate) :
    n.markupNow = n.markupAnew := by
  rw [markupNow, markupAnew, map_display_filter fitted fresh (fun a => !a.content)
    (fun name => !n.kind.isContent name) fun a ha => by rw [fitted.isContent ha]]

theorem labelNow_eq (fitted : n.Fitted) (fresh : n.FreshBut ⟨0⟩ "" [] aggregate) :
    n.labelNow = n.labelAnew := by
  rw [labelNow, labelAnew, map_display_filter fitted fresh _ n.kind.isDisplayable
    fun a ha => fitted.isDisplayable ha]

theorem ruleIssues_eq (fitted : n.Fitted) (fresh : n.FreshBut ⟨0⟩ "" [] aggregate) :
    n.rules.flatMap (·.outcome.issues) =
      n.kind.rules.flatMap fun rule => rule.issues (n.scope aggregate) := by
  rw [← fitted.rules, List.flatMap_map]
  refine List.flatMap_congr fun c hc => ?_
  obtain ⟨i, hi, rfl⟩ := List.mem_iff_getElem.mp hc
  exact fresh.rules i _ (List.getElem?_eq_getElem hi) (by simp)

theorem attributeIssues_eq (fresh : n.FreshBut ⟨0⟩ "" [] aggregate) :
    n.attributes.flatMap (·.issues) =
      n.names.flatMap fun name => Attribute.issuesAnew n.kind name (n.value name) := by
  rw [names, List.flatMap_map]
  exact List.flatMap_congr fun a ha => fresh.check a ha (by simp)

theorem issuesNow_eq (fitted : n.Fitted) (fresh : n.FreshBut ⟨0⟩ "" [] aggregate)
    (schema : n.schema = none) : n.issuesNow = n.issuesAnew aggregate n.childCount := by
  rw [issuesNow, ruleIssues_eq fitted fresh, attributeIssues_eq fresh, schema, issuesAnew]
  simp [scope]

end

end Node

namespace Tree

variable {t : Tree}

theorem current_invariant : Invariant fun t => t.Sound ∧ t.Current where
  change c h := ⟨c.sound h.1, c.current h.1 h.2⟩
  setSpan t id span h :=
    ⟨sound_invariant.setSpan t id span h.1, h.2.of_keeps (keeps_alter t id _ fun _ => rfl)⟩
  setAttributeSpan t id name span h := by
    refine ⟨sound_invariant.setAttributeSpan t id name span h.1, h.2.of_keeps ?_⟩
    refine keeps_alter t id _ fun n => ?_
    simp only [Node.core, Node.alterAttribute, List.map_map, Node.mk.injEq, true_and, and_true]
    refine List.map_congr_left fun a _ => ?_
    rw [Function.comp_apply]
    split <;> rfl

theorem Reached.current {desk : Option Desk} (h : Reached desk t) : t.Current :=
  (current_invariant.of_reached ⟨sound_new desk, current_of_empty rfl⟩ h).2

theorem schemaless_invariant : Invariant Schemaless where
  change := Change.schemaless
  setSpan _ id _ h := h.alter id _ fun _ hn => hn
  setAttributeSpan _ id _ _ h := h.alter id _ fun _ hn => hn

theorem Reached.schemaless (h : Reached none t) : t.Schemaless :=
  schemaless_invariant.of_reached ⟨rfl, fun _ hn => absurd hn List.not_mem_nil⟩ h

/-- Where there is no schema, all that the nodes of a tree keep about their values is
what a computation from scratch would give. -/
theorem reached_recomputed (h : Reached none t) : ∀ n ∈ t.nodes,
    (∀ a ∈ n.attributes, a.display.value = n.fragmentAnew a.name) ∧
      n.markup = n.markupAnew ∧ n.label = n.labelAnew ∧
      n.validation.value = n.issuesAnew t.rootAggregate (t.children n.id).length := by
  intro n hn
  have current := h.current
  have fitted := current.fitted n hn
  have fresh := current.fresh n hn
  obtain ⟨label, markup, validation⟩ := current.settled n hn
  refine ⟨fun a ha => Node.display_eq fitted fresh ha, ?_, ?_, ?_⟩
  · rw [markup, Node.markupNow_eq fitted fresh]
  · rw [label, Node.labelNow_eq fitted fresh]
  · rw [validation, Node.issuesNow_eq fitted fresh (h.schemaless.nodes n hn),
      h.sound.length_children hn]

/-- A text that is read, a rule that watches the root, a write, and a removal. -/
theorem reached_recomputed_run :
    let t := (((Document.parse (.new none)
      "<fetch><entity name='a'><attribute name='x' q='&amp;'/></entity></fetch>" {}).1.edit
      (.setAttribute ⟨0⟩ "aggregate" "true")).edit (.writeAttribute ⟨2⟩ "name" "")).edit
      (.remove ⟨2⟩)
    Reached none t ∧ ∀ n ∈ t.nodes,
      (∀ a ∈ n.attributes, a.display.value = n.fragmentAnew a.name) ∧
        n.markup = n.markupAnew ∧ n.label = n.labelAnew ∧
        n.validation.value = n.issuesAnew t.rootAggregate (t.children n.id).length := by
  have reached := ((((@Reached.new none).parse
    "<fetch><entity name='a'><attribute name='x' q='&amp;'/></entity></fetch>" {}).edit
    (.setAttribute ⟨0⟩ "aggregate" "true")).edit (.writeAttribute ⟨2⟩ "name" "")).edit (.remove ⟨2⟩)
  exact ⟨reached, reached_recomputed reached⟩

end Tree

end QueryMarkup
