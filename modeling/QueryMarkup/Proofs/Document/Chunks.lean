import QueryMarkup.Document.Render
import QueryMarkup.Proofs.Document.Recomputed
import QueryMarkup.Proofs.Tree.Sketch

/-!
# The chunks of a rendered tree

The text of a rendered tree is put together from its sketches alone: a start tag and
perhaps a text for each of them, and the close tags that are owed.
-/
namespace QueryMarkup

open Markup

namespace Document

/-! ## Chunks of sketches -/

def lineBreak (width level : Nat) : List Char := '\n' :: List.replicate (level * width) ' '

/-- The close tags that are owed, each on a line of its own. -/
def closings (width : Nat) (owed : List Owed) : List Chunk :=
  owed.map fun o => ⟨lineBreak width o.level, .closing o.tag, []⟩

/-- The chunks of one element behind some blanks. -/
def elementChunks (indent : List Char) (x : Sketch) (leads : Bool) : List Chunk :=
  if leads then [⟨indent, .opening x.tag x.plain false, x.text⟩]
  else if x.text = [] then [⟨indent, .opening x.tag x.plain true, []⟩]
  else [⟨indent, .opening x.tag x.plain false, x.text⟩, ⟨[], .closing x.tag, []⟩]

/-- The close tags that are still owed behind an element. -/
def owedAfter (x : Sketch) (leads : Bool) (owed : List Owed) : List Owed :=
  if leads then ⟨x.level, x.tag⟩ :: owed else owed

/-- The chunks of sketches in preorder, given the close tags that are owed, the innermost first. -/
def chunksFrom (width : Nat) (owed : List Owed) : List Sketch → List Chunk
  | [] => closings width owed
  | x :: rest =>
    closings width (owed.takeWhile fun o => decide (x.level ≤ o.level)) ++
      (elementChunks (lineBreak width x.level) x (x.leads rest) ++
        chunksFrom width (owedAfter x (x.leads rest)
          (owed.dropWhile fun o => decide (x.level ≤ o.level))) rest)

/-- The chunks of a document. No line break stands before its root. -/
def chunks (width : Nat) : List Sketch → List Chunk
  | [] => []
  | x :: rest =>
    elementChunks [] x (x.leads rest) ++ chunksFrom width (owedAfter x (x.leads rest) []) rest

end Document

/-! ## One element -/

theorem Kind.isName_of_tag? {kind : Kind} {tag : String} (h : kind.tag? = some tag) :
    isName tag.toList = true := by
  cases kind <;> cases h <;> decide

theorem Attribute.isEmpty_written (name : String) (content : Bool) (value : String) :
    (written name content value).isEmpty = value.isEmpty := by
  by_cases h : value.isEmpty = true
  · simp [written, h]
  · have nonempty : Text.encodeChars value.toList ≠ [] := by
      rw [Ne, Text.encodeChars_eq_nil]
      simpa using h
    cases content with
    | true => simpa [written, h, Text.encode] using nonempty
    | false => simp [written, h]

namespace Document

/-- The characters of pieces. -/
def pieceChars (pieces : List Piece) : List Char := pieces.flatMap fun p => p.text.toList

/-- The written forms of a node are current, and among what is written only the text is content. -/
structure Writes (n : Node) : Prop where
  display : ∀ a ∈ n.attributes,
    a.display.value = Attribute.written a.name a.content (n.value a.name)
  content : ∀ a ∈ n.attributes, (n.value a.name).isEmpty = false →
    a.content = decide (a.name = contentName)

section
variable {n : Node}

/-- A blank, and an attribute as it is written in a start tag. -/
def pairPieces (id : NodeId) (p : String × String) : List Piece :=
  [{ text := " " },
    { text := Attribute.written p.1 false p.2, mark := some (.attributeName id p.1) }]

/-- The attributes in a start tag are the plain ones. -/
theorem Writes.plain (h : Writes n) : n.sketch.plain =
    (n.attributes.filter fun a => !a.content && !a.display.value.isEmpty).map
      fun a => (a.name, n.value a.name) := by
  change ((n.attributes.map fun a => (a.name, n.value a.name)).filter _).filter _ = _
  rw [List.filter_filter, List.filter_map]
  congr 1
  refine List.filter_congr fun a ha => ?_
  rw [h.display a ha, Attribute.isEmpty_written, Function.comp_apply]
  cases filled : (n.value a.name).isEmpty with
  | true => simp
  | false => simp [h.content a ha filled, bne, beq_eq_decide]

theorem attributePieces_pairs (h : Writes n) :
    attributePieces n = n.sketch.plain.flatMap (pairPieces n.id) := by
  rw [attributePieces, h.plain, List.flatMap_map]
  refine List.flatMap_congr fun a ha => ?_
  obtain ⟨ha, shown⟩ := List.mem_filter.mp ha
  have plain : a.content = false := by simpa using (Bool.and_eq_true_iff.mp shown).1
  rw [pairPieces, h.display a ha, plain]

theorem pieceChars_pairPieces (id : NodeId) {p : String × String} (filled : p.2 ≠ "") :
    pieceChars (pairPieces id p) = Tag.pairChars p := by
  have nonempty : p.2.isEmpty = false := by simpa using filled
  simp [pieceChars, pairPieces, Attribute.written, nonempty, Tag.pairChars, Text.encode]

theorem pieceChars_attributePieces (h : Writes n) :
    pieceChars (attributePieces n) = n.sketch.plain.flatMap Tag.pairChars := by
  rw [attributePieces_pairs h, pieceChars, List.flatMap_assoc]
  refine List.flatMap_congr fun p hp => pieceChars_pairPieces n.id ?_
  have filled := (List.mem_filter.mp (Sketch.mem_plain.mp hp).1).2
  simpa using filled

/-- The text of an element is its content in its written form. -/
theorem content?_eq (h : Writes n) :
    n.content? = (n.sketch.value? contentName).map Text.encode := by
  rw [Node.value?_sketch, Node.content?]
  cases ha : n.attribute? contentName with
  | none => rfl
  | some a =>
    have hm := List.mem_of_find?_eq_some ha
    have name : a.name = contentName := by simpa using List.find?_some ha
    have display := h.display a hm
    have content := h.content a hm
    rw [name] at display content
    have empty : a.display.value.isEmpty = (n.value contentName).isEmpty := by
      rw [display, Attribute.isEmpty_written]
    by_cases filled : (n.value contentName).isEmpty = true
    · simp only [Option.map_some, Option.filter, empty, filled]
      rfl
    · rw [content (by simpa using filled), decide_eq_true rfl] at display
      have written : a.display.value = Text.encode (n.value contentName) := by
        rw [display, Attribute.written, if_neg filled]
        rfl
      simp only [Option.map_some, Option.filter, empty, filled]
      rw [written]
      rfl

theorem text_eq (n : Node) :
    n.sketch.text = (((n.sketch.value? contentName).map Text.encode).getD "").toList := by
  rw [Sketch.text]
  cases n.sketch.value? contentName with
  | none => rfl
  | some v => simp [Text.encode]

/-- What ends the line of an element, behind the attributes. -/
def endPieces (n : Node) : List Piece :=
  match n.content?, n.expandable with
  | some text, false => [{ text := ">" }, { text }, { text := "</" ++ n.tag ++ ">" }]
  | content, true => { text := ">" } :: content.toList.map fun text => { text }
  | none, false => [{ text := " />" }]

/-- A line is made of the chunks of its element. -/
theorem pieceChars_elementLine (h : Writes n) :
    pieceChars (elementLine n).pieces = (elementChunks [] n.sketch n.expandable).flatMap Chunk.chars := by
  have start (rest : List Piece) : pieceChars ({ text := "<" } ::
      { text := n.tag, mark := some (.tag n.id) } :: attributePieces n ++ rest) =
        '<' :: (n.tag.toList ++ (n.sketch.plain.flatMap Tag.pairChars ++ pieceChars rest)) := by
    rw [← pieceChars_attributePieces h]
    simp [pieceChars]
  have line : pieceChars (elementLine n).pieces = '<' :: (n.tag.toList ++
      (n.sketch.plain.flatMap Tag.pairChars ++ pieceChars (endPieces n))) := start _
  have tag : n.sketch.tag = n.tag := rfl
  have text := text_eq n
  rw [← content?_eq h] at text
  rw [line, endPieces]
  cases hc : n.content? with
  | none =>
    rw [hc] at text
    have silent : n.sketch.text = [] := text
    cases n.expandable <;> simp [elementChunks, silent, tag, Chunk.chars, Tag.chars, Tag.endChars, pieceChars]
  | some t =>
    rw [hc] at text
    have nonempty : t.toList ≠ [] := by
      have := Option.filter_eq_some_iff.mp hc
      simpa using this.2
    have spoken : n.sketch.text = t.toList := text
    cases n.expandable <;>
      simp [elementChunks, spoken, nonempty, tag, Chunk.chars, Tag.chars, Tag.endChars, pieceChars]

/-- Blanks before an element stand before its first chunk. -/
theorem chars_elementChunks (indent : List Char) (x : Sketch) (leads : Bool) :
    (elementChunks indent x leads).flatMap Chunk.chars =
      indent ++ (elementChunks [] x leads).flatMap Chunk.chars := by
  unfold elementChunks
  split
  · simp [Chunk.chars]
  · split <;> simp [Chunk.chars]

/-- What a node with current results and a legible sketch writes. -/
theorem writes_of_legible {aggregate : String} (fitted : n.Fitted)
    (fresh : n.FreshBut ⟨0⟩ "" [] aggregate) (legible : n.sketch.Legible) : Writes n where
  display a ha := fresh.display a ha (by simp)
  content := by
    intro a ha filled
    have pair : (a.name, n.value a.name) ∈ n.sketch.pairs :=
      List.mem_filter.mpr ⟨List.mem_map.mpr ⟨a, ha, rfl⟩, by simp [filled]⟩
    have base : a.base = n.kind.bareAttribute a.name := fitted.attributes a ha
    rw [← a.content_base, base, Kind.content_bareAttribute]
    rcases legible.named _ pair with named | ⟨-, accepts⟩
    · have other : a.name ≠ contentName := by
        intro e
        rw [e, not_isName_contentName] at named
        cases named
      simp [other]
    · have accepts : n.kind.acceptsContent = true := accepts
      rw [accepts, Bool.and_true]

end

/-! ## All lines -/

/-- A line behind a line break. -/
def brokenLine (width : Nat) (l : Line) : List Char := lineBreak width l.level ++ pieceChars l.pieces

theorem pieceChars_closing (width : Nat) (owed : List Owed) :
    (owed.map Owed.line).flatMap (brokenLine width) = (closings width owed).flatMap Chunk.chars := by
  rw [closings, List.flatMap_map, List.flatMap_map]
  refine List.flatMap_congr fun o _ => ?_
  simp [brokenLine, Owed.line, pieceChars, Chunk.chars, Tag.chars]

/-- Nodes in preorder are written as their sketches say. -/
structure Written (nodes : List Node) : Prop where
  writes : ∀ n ∈ nodes, Writes n
  leads : ∀ before n after, nodes = before ++ n :: after →
    n.expandable = n.sketch.leads (after.map Node.sketch)

theorem Written.tail {n : Node} {nodes : List Node} (h : Written (n :: nodes)) : Written nodes where
  writes m hm := h.writes m (List.mem_cons_of_mem n hm)
  leads before m after split := h.leads (n :: before) m after (by rw [split]; rfl)

theorem pieceChars_linesFrom (width : Nat) {nodes : List Node} (h : Written nodes) (owed : List Owed) :
    (linesFrom owed nodes).flatMap (brokenLine width) =
      (chunksFrom width owed (nodes.map Node.sketch)).flatMap Chunk.chars := by
  induction nodes generalizing owed with
  | nil => exact pieceChars_closing width owed
  | cons n nodes ih =>
    have writes := h.writes n List.mem_cons_self
    have leads := h.leads [] n nodes rfl
    have level : (elementLine n).level = n.level := rfl
    rw [linesFrom, List.map_cons, chunksFrom, List.flatMap_append, List.flatMap_append,
      List.flatMap_append, List.flatMap_cons, ih h.tail, pieceChars_closing, chars_elementChunks,
      brokenLine, level, pieceChars_elementLine writes, leads]
    rfl

theorem pieceChars_join (width : Nat) (l : Line) (ls : List Line) :
    pieceChars (join width (l :: ls)) = List.replicate (l.level * width) ' ' ++
      (pieceChars l.pieces ++ ls.flatMap (brokenLine width)) := by
  induction ls generalizing l with
  | nil => simp [join, pieceChars, indentation]
  | cons m ls ih =>
    have split : pieceChars (join width (l :: m :: ls)) = List.replicate (l.level * width) ' ' ++
        (pieceChars l.pieces ++ '\n' :: pieceChars (join width (m :: ls))) := by
      simp [join, pieceChars, indentation]
    rw [split, ih, List.flatMap_cons]
    simp [brokenLine, lineBreak]

/-- The text of a rendered tree is made of the pieces of its lines. -/
theorem toList_text (t : Tree) (width : Nat) :
    (render t width).text.toList = pieceChars (join width (lines t)) := by
  simp [render, ofPieces, pieceChars, List.flatMap_map]

/-- The text of a rendered tree is made of the chunks of its sketches. -/
theorem toList_render {t : Tree} (written : Written t.nodes) (root : ∀ x ∈ t.sketches.head?, x.level = 0)
    (width : Nat) : (render t width).text.toList = (chunks width t.sketches).flatMap Chunk.chars := by
  rw [toList_text, lines, Tree.sketches]
  rw [Tree.sketches] at root
  cases hn : t.nodes with
  | nil => rfl
  | cons n nodes =>
    rw [hn] at written root
    have level : (elementLine n).level = 0 := root n.sketch rfl
    have first : linesFrom [] (n :: nodes) = elementLine n :: linesFrom
        (if n.expandable then [⟨n.level, n.tag⟩] else []) nodes := rfl
    rw [first, pieceChars_join, level, pieceChars_elementLine (written.writes n List.mem_cons_self),
      pieceChars_linesFrom width written.tail, List.map_cons, chunks, List.flatMap_append,
      written.leads [] n nodes rfl]
    simp
    rfl

/-! ## The chunks can be read -/

theorem not_mem_lineBreak (width level : Nat) : '<' ∉ lineBreak width level := by
  simp [lineBreak, List.mem_replicate]

theorem lexes_closings (width : Nat) {owed : List Owed}
    (named : ∀ o ∈ owed, isName o.tag.toList = true) :
    ∀ chunk ∈ closings width owed, chunk.Lexes := by
  intro chunk hc
  obtain ⟨o, ho, rfl⟩ := List.mem_map.mp hc
  exact ⟨not_mem_lineBreak width o.level, named o ho, by simp⟩

theorem lexes_elementChunks {indent : List Char} (blank : '<' ∉ indent) {x : Sketch}
    (legible : x.Legible) (leads : Bool) :
    ∀ chunk ∈ elementChunks indent x leads, chunk.Lexes := by
  have opening (selfClosing : Bool) : (Tag.opening x.tag x.plain selfClosing).Named :=
    ⟨legible.tag, fun _ hp => legible.isName hp⟩
  have text : '<' ∉ x.text := (Text.not_mem_encodeChars _).1
  have start : Chunk.Lexes ⟨indent, .opening x.tag x.plain false, x.text⟩ :=
    ⟨blank, opening false, text⟩
  unfold elementChunks
  split
  · exact List.forall_mem_singleton.mpr start
  · split
    · exact List.forall_mem_singleton.mpr ⟨blank, opening true, by simp⟩
    · exact List.forall_mem_cons.mpr
        ⟨start, List.forall_mem_singleton.mpr ⟨by simp, legible.tag, by simp⟩⟩

theorem named_owedAfter {x : Sketch} (tag : isName x.tag.toList = true) (leads : Bool)
    {owed : List Owed} (named : ∀ o ∈ owed, isName o.tag.toList = true) :
    ∀ o ∈ owedAfter x leads owed, isName o.tag.toList = true := by
  unfold owedAfter
  split
  · exact List.forall_mem_cons.mpr ⟨tag, named⟩
  · exact named

theorem lexes_chunksFrom (width : Nat) {xs : List Sketch} (legible : ∀ x ∈ xs, x.Legible)
    {owed : List Owed} (named : ∀ o ∈ owed, isName o.tag.toList = true) :
    ∀ chunk ∈ chunksFrom width owed xs, chunk.Lexes := by
  induction xs generalizing owed with
  | nil => exact lexes_closings width named
  | cons x xs ih =>
    obtain ⟨here, later⟩ := List.forall_mem_cons.mp legible
    have due : ∀ o ∈ owed.takeWhile fun o => decide (x.level ≤ o.level), isName o.tag.toList = true :=
      fun o ho => named o ((List.takeWhile_prefix _).subset ho)
    have left : ∀ o ∈ owed.dropWhile fun o => decide (x.level ≤ o.level), isName o.tag.toList = true :=
      fun o ho => named o ((List.dropWhile_suffix _).subset ho)
    intro chunk hc
    rcases List.mem_append.mp hc with hc | hc
    · exact lexes_closings width due chunk hc
    · rcases List.mem_append.mp hc with hc | hc
      · exact lexes_elementChunks (not_mem_lineBreak width x.level) here _ chunk hc
      · exact ih later (named_owedAfter here.tag _ left) chunk hc

/-- The chunks of legible sketches are taken apart as they were put together. -/
theorem lexes_chunks (width : Nat) {xs : List Sketch} (legible : ∀ x ∈ xs, x.Legible) :
    ∀ chunk ∈ chunks width xs, chunk.Lexes := by
  cases xs with
  | nil => simp [chunks]
  | cons x xs =>
    obtain ⟨here, later⟩ := List.forall_mem_cons.mp legible
    intro chunk hc
    rcases List.mem_append.mp hc with hc | hc
    · exact lexes_elementChunks (by simp) here _ chunk hc
    · exact lexes_chunksFrom width later (named_owedAfter here.tag _ (by simp)) chunk hc

end Document

end QueryMarkup
