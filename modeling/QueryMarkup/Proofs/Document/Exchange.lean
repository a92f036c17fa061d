import QueryMarkup.Proofs.Document.Assigned
import QueryMarkup.Proofs.Document.Chunks
import QueryMarkup.Proofs.Document.Growth
import QueryMarkup.Proofs.Document.Revision
import QueryMarkup.Proofs.Tree.Planting

/-!
# Additions in any order

Two nodes may be added to a tree in any order. The ids of what is new depend on the order, but the
markup does not show them.
-/
namespace QueryMarkup

/-! ## Markup without ids -/

/-- The markup of a node reads like that of another, which may have another id. -/
def Node.ReadsLike (n m : Node) : Prop := { n.markupParts with id := m.id } = m.markupParts

namespace Document

/-- A line as it reads: how deep it is, and its characters. -/
def Line.said (l : Line) : Nat × List Char := (l.level, pieceChars l.pieces)

theorem said_rename (n : Node) (id : NodeId) : (elementLine { n with id }).said = (elementLine n).said := by
  have attributes : (attributePieces { n with id }).flatMap (fun p => p.text.toList) =
      (attributePieces n).flatMap fun p => p.text.toList := by
    simp only [attributePieces, List.flatMap_assoc]
    rfl
  have content : Node.content? { n with id } = n.content? := rfl
  simp only [Line.said, elementLine, content, pieceChars, List.cons_append, List.flatMap_cons,
    List.flatMap_append, attributes]

theorem said_elementLine {n m : Node} (like : n.ReadsLike m) : (elementLine n).said = (elementLine m).said := by
  rw [← said_rename n m.id]
  exact congrArg Line.said (elementLine_congr like)

theorem said_linesFrom {nodes nodes' : List Node} (like : List.Forall₂ Node.ReadsLike nodes nodes')
    (owed : List Owed) : (linesFrom owed nodes).map Line.said = (linesFrom owed nodes').map Line.said := by
  induction like generalizing owed with
  | nil => rfl
  | @cons n m nodes nodes' here _ ih =>
    have tag : n.tag = m.tag := congrArg MarkupParts.tag here
    have level : n.level = m.level := congrArg MarkupParts.level here
    have expandable : n.expandable = m.expandable := congrArg MarkupParts.expandable here
    simp only [linesFrom, List.map_append, List.map_cons, said_elementLine here, ih, tag, level,
      expandable]

theorem pieceChars_join_congr {lines lines' : List Line} (same : lines.map Line.said = lines'.map Line.said)
    (width : Nat) : pieceChars (join width lines) = pieceChars (join width lines') := by
  have broken (ls : List Line) : ls.flatMap (brokenLine width) =
      (ls.map Line.said).flatMap fun l => lineBreak width l.1 ++ l.2 := by
    rw [List.flatMap_map]
    rfl
  cases lines with
  | nil =>
    rw [List.map_nil, eq_comm, List.map_eq_nil_iff] at same
    rw [same]
  | cons l ls =>
    obtain ⟨l', ls', rfl, first, rest⟩ := List.map_eq_cons_iff.mp same.symm
    obtain ⟨level, chars⟩ := Prod.mk.inj first
    rw [pieceChars_join, pieceChars_join, broken, broken, rest, level, chars]

/-- Trees whose nodes read alike have the same text. -/
theorem text_congr {t t' : Tree} (like : List.Forall₂ Node.ReadsLike t.nodes t'.nodes) (width : Nat) :
    (render t width).text = (render t' width).text := by
  apply String.toList_injective
  rw [toList_text, toList_text, lines, lines, pieceChars_join_congr (said_linesFrom like [])]

end Document

/-! ## Entries without ids -/

/-- An entry without its parent, and without its id unless this was among the first that were
issued. -/
def Entry.veil (issued : Nat) (e : Entry) : Entry :=
  { e with id := if e.id.index < issued then e.id else ⟨issued⟩, parent := none }

theorem Entry.id_veil_eq_iff {issued : Nat} {e : Entry} {id : NodeId} (old : id.index < issued) :
    (e.veil issued).id = id ↔ e.id = id := by
  unfold veil
  dsimp only
  split
  · rfl
  · rename_i new
    refine ⟨fun same => ?_, fun same => absurd (same ▸ old) new⟩
    subst same
    exact absurd old (Nat.lt_irrefl issued)

theorem Entry.veil_blank {issued index : Nat} (new : issued ≤ index) (kind : Kind) (level : Nat)
    (parent : NodeId) : (Entry.blank ⟨index⟩ kind (kind.tag?.getD "") level parent).veil issued =
      .sprout issued kind level := by
  have later : ¬ index < issued := Nat.not_lt.mpr new
  simp [veil, blank, sprout, later]

/-- What the written attributes of a current node are. -/
theorem Node.markupParts_attributes {n : Node} {aggregate : String}
    (fresh : n.FreshBut ⟨0⟩ "" [] aggregate) :
    n.markupParts.attributes = n.entry.attributes.map fun a =>
      (a.name, a.content, Attribute.written a.name a.content (n.entry.value a.name)) := by
  have base : n.entry.attributes = n.attributes.map Attribute.base := rfl
  rw [base, List.map_map]
  refine List.map_congr_left fun a ha => ?_
  rw [Attribute.markupParts, fresh.display a ha (by simp), Function.comp_apply, a.content_base]
  rfl

/-- Current nodes read alike if their entries are alike and both have children, or none has. -/
theorem Node.readsLike {n m : Node} {issued : Nat} {aggregate aggregate' : String}
    (fresh : n.FreshBut ⟨0⟩ "" [] aggregate) (fresh' : m.FreshBut ⟨0⟩ "" [] aggregate')
    (same : n.entry.veil issued = m.entry.veil issued) (expandable : n.expandable = m.expandable) :
    n.ReadsLike m := by
  obtain ⟨-, -, tag, level, -, listed, values⟩ := Entry.mk.inj same
  have tag : n.tag = m.tag := tag
  have level : n.level = m.level := level
  have attributes : n.markupParts.attributes = m.markupParts.attributes := by
    rw [markupParts_attributes fresh, markupParts_attributes fresh', listed, values]
  have split (k : Node) :
      k.markupParts = ⟨k.id, k.tag, k.level, k.expandable, k.markupParts.attributes⟩ := rfl
  rw [ReadsLike, split n, split m, tag, level, expandable, attributes]

namespace Tree

open Document

variable {t t' : Tree} {issued : Nat}

/-- The entries of a tree determine how its nodes read. -/
theorem Sound.readsLike (h : t.Sound) (h' : t'.Sound) (current : t.Current) (current' : t'.Current)
    (same : t.entries.map (Entry.veil issued) = t'.entries.map (Entry.veil issued)) :
    List.Forall₂ Node.ReadsLike t.nodes t'.nodes := by
  have sketches : t.sketches = t'.sketches := by
    have blind : Entry.sketch = Entry.sketch ∘ Entry.veil issued := rfl
    rw [sketches_eq_entries, sketches_eq_entries, blind, ← List.map_map, same, List.map_map]
  rw [entries, entries, List.map_map, List.map_map] at same
  have size : t.nodes.length = t'.nodes.length := by simpa using congrArg List.length same
  have leads {u : Tree} (hu : u.Sound) (i : Nat) (hi : i < u.nodes.length) :
      u.nodes[i].expandable = u.nodes[i].sketch.leads (u.sketches.drop (i + 1)) := by
    have split : u.nodes = u.nodes.take i ++ u.nodes[i] :: u.nodes.drop (i + 1) := by
      rw [List.getElem_cons_drop, List.take_append_drop]
    rw [hu.expandable_eq split, List.map_drop]
    rfl
  refine List.forall₂_iff_get.mpr ⟨size, fun i hi hi' => ?_⟩
  have entry : t.nodes[i].entry.veil issued = t'.nodes[i].entry.veil issued := by
    have here := List.getElem_of_eq same (by simpa using hi)
    rwa [List.getElem_map, List.getElem_map] at here
  have sketch : t.nodes[i].sketch = t'.nodes[i].sketch := by
    have here : (t.nodes[i].entry.veil issued).sketch = (t'.nodes[i].entry.veil issued).sketch :=
      congrArg Entry.sketch entry
    rwa [← Node.sketch_entry, ← Node.sketch_entry]
  refine Node.readsLike (current.fresh _ (List.getElem_mem hi)) (current'.fresh _ (List.getElem_mem hi'))
    entry ?_
  rw [List.get_eq_getElem, List.get_eq_getElem, leads h i hi, leads h' i hi', sketch, sketches]

theorem veil_branchOf (new : issued ≤ t.issued) (kind : Kind) (n : Node) :
    (branchOf t.issued kind n).map (Entry.veil issued) = Entry.branch issued kind (n.level + 1) := by
  rw [branchOf, List.map_cons, List.map_map, Entry.veil_blank new, Entry.branch]
  refine congrArg _ (List.map_congr_left fun child _ => ?_)
  exact Entry.veil_blank (Nat.le_succ_of_le new) child (n.level + 2) ⟨t.issued⟩

/-- A branch is planted below a node where a new child of this kind goes. -/
theorem Sound.plant_entries (h : t.Sound) {before after : List Node} {n : Node}
    (split : t.nodes = before ++ n :: after) (old : n.id.index < issued) (kind : Kind) :
    let look := Entry.veil issued ∘ Node.entry
    Entry.plant issued n.id kind (t.entries.map (Entry.veil issued)) =
      (before ++ n :: after.takeWhile (passes (n.level + 1) kind.rank)).map look ++
        Entry.branch issued kind (n.level + 1) ++
          (after.dropWhile (passes (n.level + 1) kind.rank)).map look := by
  intro look
  have others : ∀ e ∈ before.map look, e.id ≠ n.id := by
    intro e he
    obtain ⟨m, hm, rfl⟩ := List.mem_map.mp he
    obtain ⟨-, -, first⟩ := splitAt_eq_some (h.splitAt_eq split)
    exact fun same => first m hm ((Entry.id_veil_eq_iff old).mp same)
  have here := @Entry.plant_here (look n) issued kind (after.map look)
  have id : (look n).id = n.id := (Entry.id_veil_eq_iff old).mpr rfl
  have pass : Entry.passed ((look n).level + 1) kind.rank ∘ look = passes (n.level + 1) kind.rank := rfl
  have level : (look n).level = n.level := rfl
  rw [id, lodge, List.takeWhile_map, List.dropWhile_map, pass, level] at here
  rw [entries, split, List.map_map, List.map_append, List.map_cons, Entry.plant_append others, here]
  simp

/-- An addition, as far as entries can tell: a branch is planted. -/
theorem Sound.exists_planted (h : t.Sound) (current : t.Current) {id : NodeId} (live : id ∈ t.ids)
    (old : id.index < issued) (grown : issued ≤ t.issued) (kind : Kind) :
    ∃ t', t.add kind (some id) = .ok (t', ⟨t.issued⟩) ∧ t'.Sound ∧ t'.Current ∧ t.ids ⊆ t'.ids ∧
      issued ≤ t'.issued ∧
      t'.entries.map (Entry.veil issued) = Entry.plant issued id kind (t.entries.map (Entry.veil issued)) := by
  obtain ⟨n, hn, rfl⟩ := List.mem_map.mp live
  obtain ⟨before, after, split⟩ := List.append_of_mem hn
  have above : (some n.id).or t.selection = some n.id := rfl
  obtain ⟨t', made, -, graft⟩ := h.exists_add current split kind above
  obtain ⟨sound, current'⟩ := (add_changes made).keep current_invariant.change ⟨h, current⟩
  refine ⟨t', made, sound, current', fun id hid => ?_, ?_, ?_⟩
  · obtain ⟨m, hm, rfl⟩ := List.mem_map.mp hid
    obtain ⟨m', hm', host⟩ := graft.hosting m hm
    exact host.id ▸ List.mem_map_of_mem hm'
  · have new : (⟨t.issued⟩ : NodeId) ∈ t'.ids := by
      rw [ids_eq_entries, graft.entries]
      simp [branchOf, Entry.blank]
    exact grown.trans (Nat.le_of_lt (sound.index_lt new))
  · rw [h.plant_entries split old, graft.entries, List.map_append, List.map_append, List.map_map,
      List.map_map, veil_branchOf grown]

/-- Two nodes, wherever they are added, can be added in any order: the markup is the same. -/
theorem reached_add_comm {desk : Option Desk} (h : Reached desk t) {p q : NodeId} (hp : p ∈ t.ids)
    (hq : q ∈ t.ids) (kind kind' : Kind) : ∃ t₁ t₂ u₁ u₂,
      t.add kind (some p) = .ok (t₁, ⟨t.issued⟩) ∧ t₁.add kind' (some q) = .ok (t₂, ⟨t₁.issued⟩) ∧
      t.add kind' (some q) = .ok (u₁, ⟨t.issued⟩) ∧ u₁.add kind (some p) = .ok (u₂, ⟨u₁.issued⟩) ∧
      ∀ width, (render t₂ width).text = (render u₂ width).text := by
  have old := @Sound.index_lt t h.sound
  have other {id : NodeId} (live : id ∈ t.ids) : id ≠ ⟨t.issued⟩ := fun same =>
    h.sound.issued_not_mem (same ▸ live)
  obtain ⟨t₁, first, sound₁, current₁, more₁, later₁, planted₁⟩ :=
    h.sound.exists_planted h.current hp (old hp) le_rfl kind
  obtain ⟨t₂, second, sound₂, current₂, -, -, planted₂⟩ :=
    sound₁.exists_planted current₁ (more₁ hq) (old hq) later₁ kind'
  obtain ⟨u₁, first', sound₁', current₁', more₁', later₁', planted₁'⟩ :=
    h.sound.exists_planted h.current hq (old hq) le_rfl kind'
  obtain ⟨u₂, second', sound₂', current₂', -, -, planted₂'⟩ :=
    sound₁'.exists_planted current₁' (more₁' hp) (old hp) later₁' kind
  have same : t₂.entries.map (Entry.veil t.issued) = u₂.entries.map (Entry.veil t.issued) := by
    rw [planted₂, planted₁, planted₂', planted₁', Entry.plant_comm (other hp) (other hq)]
  exact ⟨t₁, t₂, u₁, u₂, first, second, first', second',
    text_congr (sound₂.readsLike sound₂' current₂ current₂' same)⟩

/-- A filter that goes right behind another, and a condition that goes to the end of the other one.
The ids tell what was added first, and so do the marks in what is rendered. -/
theorem reached_add_comm_run :
    let t := (Document.parse (.new none)
      "<fetch><entity><filter><condition/></filter><link-entity/></entity></fetch>" {}).1
    Reached none t ∧ ⟨1⟩ ∈ t.ids ∧ ⟨2⟩ ∈ t.ids ∧ ∃ t₁ t₂ u₁ u₂,
      t.add .filter (some ⟨1⟩) = .ok (t₁, ⟨5⟩) ∧ t₁.add .condition (some ⟨2⟩) = .ok (t₂, ⟨7⟩) ∧
      t.add .condition (some ⟨2⟩) = .ok (u₁, ⟨5⟩) ∧ u₁.add .filter (some ⟨1⟩) = .ok (u₂, ⟨6⟩) ∧
      t₂.ids = [⟨0⟩, ⟨1⟩, ⟨2⟩, ⟨3⟩, ⟨7⟩, ⟨5⟩, ⟨6⟩, ⟨4⟩] ∧
      u₂.ids = [⟨0⟩, ⟨1⟩, ⟨2⟩, ⟨3⟩, ⟨5⟩, ⟨6⟩, ⟨7⟩, ⟨4⟩] ∧
      ∀ width, (render t₂ width).text = (render u₂ width).text := by
  intro t
  have reached : Reached none t := Reached.new.parse _ {}
  have ids : t.ids = [⟨0⟩, ⟨1⟩, ⟨2⟩, ⟨3⟩, ⟨4⟩] := by decide +kernel
  have issued : t.issued = 5 := by decide +kernel
  have hp : ⟨1⟩ ∈ t.ids := by rw [ids]; decide
  have hq : ⟨2⟩ ∈ t.ids := by rw [ids]; decide
  obtain ⟨t₁, t₂, u₁, u₂, first, second, first', second', text⟩ :=
    reached_add_comm reached hp hq .filter .condition
  rw [issued] at first first'
  have one : (t.add .filter (some ⟨1⟩)).toOption.map (fun t₁ => (t₁.1.issued,
      (t₁.1.add .condition (some ⟨2⟩)).toOption.map (·.1.ids))) =
        some (7, some [⟨0⟩, ⟨1⟩, ⟨2⟩, ⟨3⟩, ⟨7⟩, ⟨5⟩, ⟨6⟩, ⟨4⟩]) := by decide +kernel
  have two : (t.add .condition (some ⟨2⟩)).toOption.map (fun u₁ => (u₁.1.issued,
      (u₁.1.add .filter (some ⟨1⟩)).toOption.map (·.1.ids))) =
        some (6, some [⟨0⟩, ⟨1⟩, ⟨2⟩, ⟨3⟩, ⟨5⟩, ⟨6⟩, ⟨7⟩, ⟨4⟩]) := by decide +kernel
  rw [first] at one
  rw [first'] at two
  obtain ⟨issued₁, there⟩ := Prod.mk.inj (Option.some.inj one)
  obtain ⟨issued₁', there'⟩ := Prod.mk.inj (Option.some.inj two)
  rw [second] at there
  rw [second'] at there'
  rw [issued₁] at second
  rw [issued₁'] at second'
  exact ⟨reached, hp, hq, t₁, t₂, u₁, u₂, first, second, first', second', Option.some.inj there,
    Option.some.inj there', text⟩

end Tree

end QueryMarkup
