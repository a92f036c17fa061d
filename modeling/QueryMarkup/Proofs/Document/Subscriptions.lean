import QueryMarkup.Proofs.Document.Recomputed
import QueryMarkup.Proofs.Tree.Listeners

/-!
# Watchers after every run

Whatever was added, removed, written or read before, a slot has the watchers that the nodes and
attributes of the present tree give it.
-/
namespace QueryMarkup.Tree

variable {t : Tree}

theorem attended_invariant : Invariant fun t => t.Sound ∧ t.Schemaless ∧ t.Attended where
  change c h := ⟨c.sound h.1, c.schemaless h.2.1, c.attended h.1 h.2.1 h.2.2⟩
  setSpan t id span h :=
    ⟨sound_invariant.setSpan t id span h.1, schemaless_invariant.setSpan t id span h.2.1,
      h.2.2.of_keeps (keeps_alter t id _ fun _ => rfl)⟩
  setAttributeSpan t id name span h :=
    ⟨sound_invariant.setAttributeSpan t id name span h.1,
      schemaless_invariant.setAttributeSpan t id name span h.2.1,
      h.2.2.of_keeps (keeps_alter t id _ fun n => n.slotWatchers_setAttributeSpan name span)⟩

theorem Reached.attended (h : Reached none t) : t.Attended :=
  (attended_invariant.of_reached
    ⟨sound_new none, ⟨rfl, fun _ hn => absurd hn List.not_mem_nil⟩,
      fun _ hm => absurd hm List.not_mem_nil⟩ h).2.2

/-- Where there is no schema, those who listen to a slot are the node's own rules, each as often
as it looks there, the columns for the root's `aggregate`, and the attribute if it is there. -/
theorem reached_watchers (h : Reached none t) : ∀ n ∈ t.nodes, ∀ name,
    (n.slots.get name).watchers.length =
      (n.kind.rules.flatMap (·.watches)).count (.own name) +
      (if t.root? = some n ∧ name = "aggregate" then t.nodes.countP (·.kind = .column) else 0) +
      (if name ∈ n.names then 1 + (if n.kind.valueKind name = .text then 0 else 1) else 0) :=
  fun n hn name => h.attended.length_watchers h.sound.nodup hn (h.current.fitted n hn) name

/-- A column comes and goes, and an attribute does, too: two columns are left that listen to the
root. -/
theorem reached_watchers_run :
    let t := ((((Document.parse (.new none)
      "<fetch><entity name='a'><attribute name='x'/><attribute name='y'/></entity></fetch>" {}).1.edit
      (.add .column (some ⟨1⟩))).edit (.setAttribute ⟨0⟩ "aggregate" "true")).edit
      (.remove ⟨4⟩)).edit (.removeAttribute ⟨2⟩ "name")
    Reached none t ∧ ∀ n ∈ t.nodes, ∀ name, (n.slots.get name).watchers.length =
      (n.kind.rules.flatMap (·.watches)).count (.own name) +
      (if t.root? = some n ∧ name = "aggregate" then t.nodes.countP (·.kind = .column) else 0) +
      (if name ∈ n.names then 1 + (if n.kind.valueKind name = .text then 0 else 1) else 0) := by
  have reached := (((((@Reached.new none).parse
    "<fetch><entity name='a'><attribute name='x'/><attribute name='y'/></entity></fetch>" {}).edit
    (.add .column (some ⟨1⟩))).edit (.setAttribute ⟨0⟩ "aggregate" "true")).edit (.remove ⟨4⟩)).edit
    (.removeAttribute ⟨2⟩ "name")
  exact ⟨reached, reached_watchers reached⟩

end QueryMarkup.Tree
