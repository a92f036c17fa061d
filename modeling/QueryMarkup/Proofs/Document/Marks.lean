import QueryMarkup.Proofs.Document.Chunks
import QueryMarkup.Proofs.Text.Boundary

/-!
# What the marks of a rendering name

Every node has a mark with its place in the written text, and so has every attribute that is
written into a start tag. Nothing else has one, and at the place of a mark stands the name that
it is for, whatever is written in front of it.
-/
namespace QueryMarkup

/-- The attribute has a written form in the start tag. -/
def Attribute.IsWritten (a : Attribute) : Prop := a.content = false ∧ a.display.value.isEmpty = false

namespace Document

open Text

/-- The name that a mark stands for, on a piece with this text. -/
def Mark.word (text : String) : Mark → String
  | .tag _ => text
  | .attributeName _ name => name

/-! ## Places of marked pieces -/

section
variable {pieces : List Piece} {m : Mark} {r : Range} {start : Nat}

/-- A piece starts with the name that its mark stands for. -/
def Piece.Starts (p : Piece) : Prop := ∀ m ∈ p.mark, (m.word p.text).toList <+: p.text.toList

theorem exists_place {p : Piece} (hp : p ∈ pieces) (marked : p.mark = some m) :
    ∃ r, (m, r) ∈ place start pieces := by
  induction pieces generalizing start with
  | nil => cases hp
  | cons q rest ih =>
    rw [place]
    rcases List.mem_cons.mp hp with rfl | later
    · rw [marked]
      cases m with
      | tag id => exact ⟨_, List.mem_append_left _ List.mem_cons_self⟩
      | attributeName id name => exact ⟨_, List.mem_append_left _ List.mem_cons_self⟩
    · obtain ⟨r, found⟩ := ih later
      exact ⟨r, List.mem_append_right _ found⟩

/-- The place of the first piece's mark, behind what was written before. -/
theorem names_here {before after : List Char} {p : Piece} (starts : p.Starts) (marked : p.mark = some m) :
    (Range.ofLength (byteLength before) (m.word p.text).utf8ByteSize).Names
      (String.ofList (before ++ (p.text.toList ++ after))) (m.word p.text) := by
  obtain ⟨rest, split⟩ := starts m marked
  have named := Range.names_append before (m.word p.text).toList (rest ++ after)
  rwa [← List.append_assoc _ rest, split, ← utf8ByteSize_eq, String.ofList_toList] at named

theorem names_of_mem_place {before : List Char} (starts : ∀ p ∈ pieces, p.Starts)
    (h : (m, r) ∈ place (byteLength before) pieces) : ∃ p ∈ pieces, p.mark = some m ∧
      r.Names (String.ofList (before ++ pieceChars pieces)) (m.word p.text) := by
  induction pieces generalizing before with
  | nil => cases h
  | cons p rest ih =>
    obtain ⟨here, later⟩ := List.forall_mem_cons.mp starts
    have chars : pieceChars (p :: rest) = p.text.toList ++ pieceChars rest := List.flatMap_cons
    have next : byteLength before + p.text.utf8ByteSize = byteLength (before ++ p.text.toList) := by
      rw [byteLength_append, utf8ByteSize_eq]
    rw [place, next] at h
    rw [chars]
    rcases List.mem_append.mp h with first | behind
    · have marked : p.mark = some m ∧
          r = Range.ofLength (byteLength before) (m.word p.text).utf8ByteSize := by
        cases mark : p.mark with
        | none =>
          rw [mark] at first
          cases first
        | some other =>
          rw [mark] at first
          cases other <;> cases List.mem_singleton.mp first <;> exact ⟨rfl, rfl⟩
      obtain ⟨marked, rfl⟩ := marked
      exact ⟨p, List.mem_cons_self, marked, names_here here marked⟩
    · obtain ⟨q, hq, marked, named⟩ := ih later behind
      rw [List.append_assoc] at named
      exact ⟨q, List.mem_cons_of_mem p hq, marked, named⟩

end

/-! ## The marked pieces of a tree -/

/-- The marked pieces of an element. -/
def markedPieces (n : Node) : List Piece :=
  { text := n.tag, mark := some (.tag n.id) } ::
    (n.attributes.filter fun a => !a.content && !a.display.value.isEmpty).map fun a =>
      { text := a.display.value, mark := some (.attributeName n.id a.name) }

/-- The pieces that have a mark. -/
def marked (pieces : List Piece) : List Piece := pieces.filter (·.mark.isSome)

theorem marked_append (ps qs : List Piece) : marked (ps ++ qs) = marked ps ++ marked qs :=
  List.filter_append ..

theorem marked_elementLine (n : Node) : marked (elementLine n).pieces = markedPieces n := by
  have attributes (as : List Attribute) : marked (as.flatMap fun a =>
      [{ text := " " }, { text := a.display.value, mark := some (.attributeName n.id a.name) }]) =
        as.map fun a => { text := a.display.value, mark := some (.attributeName n.id a.name) } := by
    induction as with
    | nil => rfl
    | cons a as ih =>
      rw [List.flatMap_cons, marked_append, ih]
      rfl
  have rest : marked (endPieces n) = [] := by
    unfold endPieces
    cases n.content? <;> cases n.expandable <;> rfl
  have line : (elementLine n).pieces = [{ text := "<" }, { text := n.tag, mark := some (.tag n.id) }] ++
    attributePieces n ++ endPieces n := rfl
  rw [line, marked_append, marked_append, rest, List.append_nil, attributePieces, attributes]
  rfl

theorem marked_join (width : Nat) (ls : List Line) :
    marked (join width ls) = ls.flatMap fun l => marked l.pieces := by
  induction ls with
  | nil => rfl
  | cons l ls ih =>
    cases ls with
    | nil => simp [join, marked, indentation]
    | cons m ls =>
      have split : join width (l :: m :: ls) = [indentation width l.level] ++ l.pieces ++
        ({ text := "\n" } :: join width (m :: ls)) := rfl
      have broken : marked ({ text := "\n" } :: join width (m :: ls)) = marked (join width (m :: ls)) := rfl
      rw [split, marked_append, marked_append, broken, ih, List.flatMap_cons]
      rfl

/-- Lines that close elements have no marks. -/
theorem marked_linesFrom (owed : List Owed) (nodes : List Node) :
    ((linesFrom owed nodes).flatMap fun l => marked l.pieces) = nodes.flatMap markedPieces := by
  have closing (owed : List Owed) : ((owed.map Owed.line).flatMap fun l => marked l.pieces) = [] := by
    rw [List.flatMap_map, List.flatMap_eq_nil_iff]
    exact fun o _ => rfl
  induction nodes generalizing owed with
  | nil => exact closing owed
  | cons n nodes ih =>
    rw [linesFrom, List.flatMap_append, closing, List.flatMap_cons, List.flatMap_cons, ih,
      marked_elementLine]
    rfl

theorem mem_pieces_iff {t : Tree} {width : Nat} {p : Piece} :
    p ∈ join width (lines t) ∧ p.mark.isSome = true ↔ ∃ n ∈ t.nodes, p ∈ markedPieces n := by
  have all : marked (join width (lines t)) = t.nodes.flatMap markedPieces := by
    rw [marked_join, lines, marked_linesFrom]
  rw [← List.mem_flatMap, ← all, marked, List.mem_filter]

theorem mem_markedPieces {n : Node} {p : Piece} : p ∈ markedPieces n ↔
    p = { text := n.tag, mark := some (.tag n.id) } ∨ ∃ a ∈ n.attributes, a.IsWritten ∧
      p = { text := a.display.value, mark := some (.attributeName n.id a.name) } := by
  have written (a : Attribute) : (!a.content && !a.display.value.isEmpty) = true ↔ a.IsWritten := by
    simp [Attribute.IsWritten]
  simp only [markedPieces, List.mem_cons, List.mem_map, List.mem_filter, written]
  constructor
  · rintro (rfl | ⟨a, ⟨ha, hw⟩, rfl⟩)
    · exact .inl rfl
    · exact .inr ⟨a, ha, hw, rfl⟩
  · rintro (rfl | ⟨a, ha, hw, rfl⟩)
    · exact .inl rfl
    · exact .inr ⟨a, ⟨ha, hw⟩, rfl⟩

/-! ## Where the names stand -/

/-- The written form of every attribute is current. -/
def Displays (t : Tree) : Prop := ∀ n ∈ t.nodes, ∀ a ∈ n.attributes,
  a.display.value = Attribute.written a.name a.content (n.value a.name)

section
variable {t : Tree} {width : Nat} {id : NodeId} {name : String} {r : Range}

theorem Displays.starts (h : Displays t) : ∀ p ∈ join width (lines t), p.Starts := by
  intro p hp m hm
  obtain ⟨n, hn, hp'⟩ := mem_pieces_iff.mp ⟨hp, Option.isSome_of_mem hm⟩
  rcases mem_markedPieces.mp hp' with rfl | ⟨a, ha, ⟨plain, filled⟩, rfl⟩
  · cases hm
    exact List.prefix_rfl
  · cases hm
    have display := h n hn a ha
    rw [plain] at display
    have nonempty : (n.value a.name).isEmpty = false := by
      rw [← Attribute.isEmpty_written a.name false, ← display, filled]
    rw [display, Attribute.written, nonempty]
    simp [Mark.word]

theorem names_mark (h : Displays t) {m : Mark} (placed : (m, r) ∈ place 0 (join width (lines t))) :
    ∃ n ∈ t.nodes, ∃ p ∈ markedPieces n, p.mark = some m ∧
      r.Names (render t width).text (m.word p.text) := by
  obtain ⟨p, hp, mark, named⟩ := @names_of_mem_place _ _ _ [] h.starts placed
  obtain ⟨n, hn, hp'⟩ := mem_pieces_iff.mp ⟨hp, mark ▸ rfl⟩
  have text : String.ofList ([] ++ pieceChars (join width (lines t))) = (render t width).text := by
    rw [List.nil_append, ← toList_text, String.ofList_toList]
  exact ⟨n, hn, p, hp', mark, text ▸ named⟩

theorem mem_spans : (id, r) ∈ (render t width).spans ↔
    (.tag id, r) ∈ place 0 (join width (lines t)) := by
  simp only [render, ofPieces, List.mem_filterMap, Prod.exists]
  constructor
  · rintro ⟨m, range, placed, e⟩
    cases m <;> cases e
    exact placed
  · exact fun placed => ⟨_, _, placed, rfl⟩

theorem mem_attributeSpans : (id, name, r) ∈ (render t width).attributeSpans ↔
    (.attributeName id name, r) ∈ place 0 (join width (lines t)) := by
  simp only [render, ofPieces, List.mem_filterMap, Prod.exists]
  constructor
  · rintro ⟨m, range, placed, e⟩
    cases m <;> cases e
    exact placed
  · exact fun placed => ⟨_, _, placed, rfl⟩

/-- The place of a node names its tag. -/
theorem names_of_mem_spans (h : Displays t) (placed : (id, r) ∈ (render t width).spans) :
    ∃ n ∈ t.nodes, n.id = id ∧ r.Names (render t width).text n.tag := by
  obtain ⟨n, hn, p, hp, mark, named⟩ := names_mark h (mem_spans.mp placed)
  rcases mem_markedPieces.mp hp with rfl | ⟨a, -, -, rfl⟩
  · cases mark
    exact ⟨n, hn, rfl, named⟩
  · cases mark

/-- The place of an attribute names it, and only what is written has a place. -/
theorem names_of_mem_attributeSpans (h : Displays t)
    (placed : (id, name, r) ∈ (render t width).attributeSpans) :
    r.Names (render t width).text name ∧
      ∃ n ∈ t.nodes, n.id = id ∧ ∃ a ∈ n.attributes, a.name = name ∧ a.IsWritten := by
  obtain ⟨n, hn, p, hp, mark, named⟩ := names_mark h (mem_attributeSpans.mp placed)
  rcases mem_markedPieces.mp hp with rfl | ⟨a, ha, written, rfl⟩
  · cases mark
  · cases mark
    exact ⟨named, n, hn, rfl, a, ha, rfl, written⟩

theorem exists_mem_spans {n : Node} (hn : n ∈ t.nodes) : ∃ r, (n.id, r) ∈ (render t width).spans := by
  have hp : (⟨n.tag, some (.tag n.id)⟩ : Piece) ∈ markedPieces n := List.mem_cons_self
  obtain ⟨listed, -⟩ := (@mem_pieces_iff t width _).mpr ⟨n, hn, hp⟩
  obtain ⟨r, placed⟩ := exists_place listed rfl
  exact ⟨r, mem_spans.mpr placed⟩

theorem exists_mem_attributeSpans {n : Node} (hn : n ∈ t.nodes) {a : Attribute} (ha : a ∈ n.attributes)
    (written : a.IsWritten) : ∃ r, (n.id, a.name, r) ∈ (render t width).attributeSpans := by
  have hp := mem_markedPieces.mpr (.inr ⟨a, ha, written, rfl⟩)
  obtain ⟨listed, -⟩ := (@mem_pieces_iff t width _).mpr ⟨n, hn, hp⟩
  obtain ⟨r, placed⟩ := exists_place listed rfl
  exact ⟨r, mem_attributeSpans.mpr placed⟩

end

end Document

end QueryMarkup
