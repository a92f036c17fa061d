import QueryMarkup.Proofs.Document.Handing
import QueryMarkup.Proofs.Document.Marks
import QueryMarkup.Proofs.Document.Revision
import QueryMarkup.Proofs.Document.RoundTrip

/-!
# Writing and reading agree on places

The places that are given to what is written are those at which it is read: of the tag of every
node, and of the name of every attribute in a start tag.
-/
namespace QueryMarkup

open Markup Text

/-- Where the tag and the names in a start tag stand; the tag has no label. -/
def StagedElement.labels (e : StagedElement) : List (Option String × Range) :=
  (none, e.span) :: e.attributes.map fun a => (some a.name, a.span)

namespace Document

/-- The name of an attribute labels its place. -/
def Mark.label : Mark → Option String
  | .tag _ => none
  | .attributeName _ name => some name

/-! ## Places in lines -/

/-- The places of marked pieces, without the nodes that they belong to. -/
def labels (start : Nat) (pieces : List Piece) : List (Option String × Range) :=
  (place start pieces).map fun m => (m.1.label, m.2)

theorem labels_append (start : Nat) (ps qs : List Piece) :
    labels start (ps ++ qs) = labels start ps ++ labels (start + byteLength (pieceChars ps)) qs := by
  induction ps generalizing start with
  | nil => rfl
  | cons p ps ih =>
    have chars : pieceChars (p :: ps) = p.text.toList ++ pieceChars ps := List.flatMap_cons
    have first (rest : List Piece) : labels start (p :: rest) =
        labels start [p] ++ labels (start + p.text.utf8ByteSize) rest := by
      simp [labels, place]
    rw [List.cons_append, first, ih, chars, byteLength_append, utf8ByteSize_eq, ← Nat.add_assoc,
      first ps, List.append_assoc, utf8ByteSize_eq]

theorem labels_unmarked {pieces : List Piece} (h : ∀ p ∈ pieces, p.mark = none) (start : Nat) :
    labels start pieces = [] := by
  induction pieces generalizing start with
  | nil => rfl
  | cons p pieces ih =>
    obtain ⟨here, later⟩ := List.forall_mem_cons.mp h
    rw [labels, place, here]
    exact ih later _

theorem labels_pairs (id : NodeId) {pairs : List (String × String)} (filled : ∀ p ∈ pairs, p.2 ≠ "")
    (start : Nat) : labels start (pairs.flatMap (pairPieces id)) =
      (stagedPairs start pairs).map fun a => (some a.name, a.span) := by
  induction pairs generalizing start with
  | nil => rfl
  | cons p pairs ih =>
    obtain ⟨here, later⟩ := List.forall_mem_cons.mp filled
    rw [List.flatMap_cons, labels_append, pieceChars_pairPieces id here, ih later, stagedPairs]
    rfl

/-- What ends a line has no marks. -/
theorem unmarked_endPieces (n : Node) : ∀ p ∈ endPieces n, p.mark = none := by
  unfold endPieces
  cases n.content? <;> cases n.expandable <;> simp

/-- The places in the line of an element are those of its start tag. -/
theorem labels_elementLine {n : Node} (h : Writes n) (filled : ∀ p ∈ n.sketch.plain, p.2 ≠ "")
    (start : Nat) : labels start (elementLine n).pieces =
      (stagedChunks start (elementChunks [] n.sketch n.expandable)).flatMap StagedElement.labels := by
  have line : (elementLine n).pieces = [{ text := "<" }, { text := n.tag, mark := some (.tag n.id) }] ++
    attributePieces n ++ endPieces n := rfl
  have staged : stagedChunks start (elementChunks [] n.sketch n.expandable) =
      (Tag.opening n.tag n.sketch.plain false).staged start := by
    unfold elementChunks
    split
    · rfl
    · split <;> rfl
  have before : byteLength (pieceChars [{ text := "<" }, { text := n.tag, mark := some (.tag n.id) }]) =
      1 + n.tag.utf8ByteSize := by
    have chars : pieceChars [{ text := "<" }, { text := n.tag, mark := some (.tag n.id) }] =
        ['<'] ++ n.tag.toList := by simp [pieceChars]
    rw [chars, byteLength_append, utf8ByteSize_eq]
    rfl
  rw [line, labels_append, labels_unmarked (unmarked_endPieces n), List.append_nil, labels_append,
    before, attributePieces_pairs h, labels_pairs n.id filled, staged, ← Nat.add_assoc]
  have one : "<".utf8ByteSize = 1 := by decide
  simp [labels, place, Tag.staged, StagedElement.labels, Mark.label, Node.sketch, one]

/-! ## All lines -/

/-- The places in lines that each begin with a line break. -/
def lineLabels (width start : Nat) : List Line → List (Option String × Range)
  | [] => []
  | l :: ls =>
    labels (start + byteLength (lineBreak width l.level)) l.pieces ++
      lineLabels width (start + byteLength (brokenLine width l)) ls

theorem lineLabels_append (width start : Nat) (ks ls : List Line) :
    lineLabels width start (ks ++ ls) = lineLabels width start ks ++
      lineLabels width (start + byteLength (ks.flatMap (brokenLine width))) ls := by
  induction ks generalizing start with
  | nil => rfl
  | cons k ks ih =>
    rw [List.cons_append, lineLabels, ih, lineLabels, List.flatMap_cons, byteLength_append,
      List.append_assoc, Nat.add_assoc]

theorem labels_join (width start : Nat) (l : Line) (ls : List Line) :
    labels start (join width (l :: ls)) =
      labels (start + byteLength (List.replicate (l.level * width) ' ')) l.pieces ++
        lineLabels width (start + byteLength (List.replicate (l.level * width) ' ' ++
          pieceChars l.pieces)) ls := by
  have indent (start level : Nat) (ps : List Piece) : labels start (indentation width level :: ps) =
      labels (start + byteLength (List.replicate (level * width) ' ')) ps := by
    rw [← List.singleton_append, labels_append]
    simp [pieceChars, indentation, labels, place]
  induction ls generalizing l start with
  | nil =>
    rw [join, indent, lineLabels, List.append_nil]
  | cons m ls ih =>
    have split : join width (l :: m :: ls) =
        indentation width l.level :: (l.pieces ++ ([{ text := "\n" }] ++ join width (m :: ls))) := rfl
    have broken : byteLength (pieceChars [({ text := "\n" } : Piece)]) = 1 := by decide
    have break' (level : Nat) : byteLength (lineBreak width level) =
        1 + byteLength (List.replicate (level * width) ' ') := rfl
    rw [split, indent, labels_append, labels_append, broken, ih, lineLabels, brokenLine,
      byteLength_append, byteLength_append, byteLength_append, break']
    simp only [Nat.add_assoc]
    rfl

theorem stagedChunks_elementChunks (start : Nat) (indent : List Char) (x : Sketch) (leads : Bool) :
    stagedChunks start (elementChunks indent x leads) =
      stagedChunks (start + byteLength indent) (elementChunks [] x leads) := by
  unfold elementChunks
  split
  · rfl
  · split <;> rfl

theorem stagedChunks_closings (width start : Nat) (owed : List Owed) :
    stagedChunks start (closings width owed) = [] := by
  induction owed generalizing start with
  | nil => rfl
  | cons o owed ih => exact ih _

theorem lineLabels_closings (width start : Nat) (owed : List Owed) :
    lineLabels width start (owed.map Owed.line) = [] := by
  induction owed generalizing start with
  | nil => rfl
  | cons o owed ih => exact ih _

theorem lineLabels_linesFrom (width : Nat) {nodes : List Node} (h : Written nodes)
    (filled : ∀ n ∈ nodes, ∀ p ∈ n.sketch.plain, p.2 ≠ "") (owed : List Owed) (start : Nat) :
    lineLabels width start (linesFrom owed nodes) =
      (stagedChunks start (chunksFrom width owed (nodes.map Node.sketch))).flatMap
        StagedElement.labels := by
  induction nodes generalizing owed start with
  | nil =>
    rw [linesFrom, lineLabels_closings, List.map_nil, chunksFrom, stagedChunks_closings]
    rfl
  | cons n nodes ih =>
    obtain ⟨here, later⟩ := List.forall_mem_cons.mp filled
    have writes := h.writes n List.mem_cons_self
    have leads := h.leads [] n nodes rfl
    have level : (elementLine n).level = n.level := rfl
    have line : brokenLine width (elementLine n) = (elementChunks (lineBreak width n.level) n.sketch
        n.expandable).flatMap Chunk.chars := by
      rw [chars_elementChunks, brokenLine, level, pieceChars_elementLine writes]
    rw [linesFrom, lineLabels_append, lineLabels_closings, List.nil_append, lineLabels,
      labels_elementLine writes here, ih h.tail later, pieceChars_closing, level, line, List.map_cons,
      chunksFrom, stagedChunks_append, stagedChunks_closings, List.nil_append, stagedChunks_append,
      stagedChunks_elementChunks _ (lineBreak width n.sketch.level), List.flatMap_append, ← leads]
    rfl

/-- The places in a rendered tree are those at which its chunks are staged. -/
theorem labels_render {t : Tree} (h : t.Writable) (width : Nat) :
    labels 0 (join width (lines t)) =
      (stagedChunks 0 (chunks width t.sketches)).flatMap StagedElement.labels := by
  have written : Written t.nodes := by
    refine ⟨fun n hn => ?_, fun before n after split => h.sound.expandable_eq split⟩
    exact writes_of_legible (h.current.fitted n hn) (h.current.fresh n hn)
      (h.legible n.sketch (List.mem_map_of_mem hn))
  have filled : ∀ n ∈ t.nodes, ∀ p ∈ n.sketch.plain, p.2 ≠ "" := fun n hn p hp =>
    (h.legible n.sketch (List.mem_map_of_mem hn)).filled p (Sketch.mem_plain.mp hp).1
  have root := h.sound.treelike.root
  rw [lines, Tree.sketches]
  rw [Tree.sketches] at root
  cases hn : t.nodes with
  | nil => rfl
  | cons n nodes =>
    rw [hn] at written filled root
    obtain ⟨here, later⟩ := List.forall_mem_cons.mp filled
    have writes := written.writes n List.mem_cons_self
    have level : (elementLine n).level = 0 := root n.sketch rfl
    have first : linesFrom [] (n :: nodes) = elementLine n :: linesFrom
        (if n.expandable then [⟨n.level, n.tag⟩] else []) nodes := rfl
    rw [first, labels_join, level, labels_elementLine writes here, pieceChars_elementLine writes,
      lineLabels_linesFrom width written.tail later, List.map_cons, chunks, stagedChunks_append,
      List.flatMap_append, written.leads [] n nodes rfl]
    simp
    rfl

/-! ## The elements of a tree -/

/-- An element is staged with the attributes that stand in its start tag. -/
def StagedAs (x : Sketch) (e : StagedElement) : Prop := ∃ start, e.attributes = stagedPairs start x.plain

theorem stagedAs_elementChunks (start : Nat) (indent : List Char) (x : Sketch) (leads : Bool) :
    List.Forall₂ StagedAs [x] (stagedChunks start (elementChunks indent x leads)) := by
  unfold elementChunks
  split
  · exact .cons ⟨_, rfl⟩ .nil
  · split <;> exact .cons ⟨_, rfl⟩ .nil

theorem stagedAs_chunksFrom (width start : Nat) (owed : List Owed) (xs : List Sketch) :
    List.Forall₂ StagedAs xs (stagedChunks start (chunksFrom width owed xs)) := by
  induction xs generalizing owed start with
  | nil =>
    rw [chunksFrom, stagedChunks_closings]
    exact .nil
  | cons x xs ih =>
    rw [chunksFrom, stagedChunks_append, stagedChunks_closings, List.nil_append, stagedChunks_append]
    exact List.rel_append (stagedAs_elementChunks _ _ x _) (ih _ _)

theorem stagedAs_chunks (width : Nat) (xs : List Sketch) :
    List.Forall₂ StagedAs xs (stagedChunks 0 (chunks width xs)) := by
  cases xs with
  | nil => exact .nil
  | cons x xs =>
    rw [chunks, stagedChunks_append]
    exact List.rel_append (stagedAs_elementChunks _ _ x _) (stagedAs_chunksFrom _ _ _ _)

end Document

/-! ## Where names stand -/

namespace Stand

variable {as : List StagedAttribute} {s : Stand} {name : String}

theorem name_put_all_of_notMem (h : name ∉ as.map (·.name)) :
    (as.foldl putStaged s).name name = s.name name := by
  induction as generalizing s with
  | nil => rfl
  | cons a as ih =>
    obtain ⟨here, later⟩ := not_or.mp (mt List.mem_cons.mpr h)
    refine (ih later).trans ?_
    unfold putStaged
    split
    · exact if_neg here
    · rfl

/-- A name that is read once, with a value, stands where it was read. -/
theorem name_put_all {a : StagedAttribute} (distinct : (as.map (·.name)).Nodup) (ha : a ∈ as)
    (valued : a.value.isSome = true) : (as.foldl putStaged s).name a.name = some a.span := by
  induction as generalizing s with
  | nil => cases ha
  | cons b as ih =>
    obtain ⟨apart, distinct⟩ := List.nodup_cons.mp distinct
    rcases List.mem_cons.mp ha with rfl | later
    · refine (name_put_all_of_notMem apart).trans ?_
      rw [putStaged, if_pos valued]
      exact if_pos rfl
    · exact ih distinct later

end Stand

/-- The names of the attributes of a node that were read, with their places. -/
def Node.readPlaces (n : Node) : List (String × Range) :=
  n.attributes.filterMap fun a => a.span.map (a.name, ·)

theorem names_stagedPairs (start : Nat) (pairs : List (String × String)) :
    (stagedPairs start pairs).map (·.name) = pairs.map (·.1) := by
  induction pairs generalizing start with
  | nil => rfl
  | cons p pairs ih => exact congrArg (p.1 :: ·) (ih _)

theorem valued_stagedPairs (start : Nat) (pairs : List (String × String)) :
    ∀ a ∈ stagedPairs start pairs, a.value.isSome = true := by
  induction pairs generalizing start with
  | nil => simp [stagedPairs]
  | cons p pairs ih => exact List.forall_mem_cons.mpr ⟨rfl, ih _⟩

/-- A node that stands where an element with its attributes does has their places. -/
theorem Node.places_of_stand {n : Node} {e : StagedElement} (names : (n.attributes.map (·.name)).Nodup)
    (stages : Document.StagedAs n.sketch e) (stand : n.stand = e.stand) :
    n.readPlaces = e.attributes.map fun a => (a.name, a.span) := by
  obtain ⟨start, staged⟩ := stages
  have found : n.readPlaces =
      (n.attributes.map (·.name)).filterMap fun name => (e.stand.name name).map (name, ·) := by
    rw [Node.readPlaces, List.filterMap_map]
    refine List.filterMap_congr fun a ha => ?_
    have here : e.stand.name a.name = a.span := by
      rw [← stand]
      exact congrArg (Option.bind · (·.span)) (Tree.attribute?_of_mem names ha)
    rw [Function.comp_apply, here]
  have read : e.attributes.map (·.name) =
      (n.attributes.map (·.name)).filter fun name => !(n.value name).isEmpty && name != contentName := by
    rw [staged, names_stagedPairs]
    simp only [Sketch.plain, Node.sketch, Node.pairs, List.filter_map, List.map_map, List.filter_filter]
    rw [List.filter_congr]
    · rfl
    · simp [Bool.and_comm]
  have distinct : (e.attributes.map (·.name)).Nodup := read ▸ names.filter _
  -- Names that were not read stand nowhere, so the others may be left out.
  have only : ∀ name ∈ n.attributes.map (·.name), (e.stand.name name).map (name, ·) =
      if (!(n.value name).isEmpty && name != contentName) = true
        then (e.stand.name name).map (name, ·) else none := by
    intro name hn
    split
    · rfl
    · rename_i unread
      have missing : name ∉ e.attributes.map (·.name) := by
        rw [read]
        exact fun hm => unread (List.mem_filter.mp hm).2
      have nowhere : e.stand.name name = none := Stand.name_put_all_of_notMem missing
      rw [nowhere]
      rfl
  rw [found, List.filterMap_congr only, ← List.filterMap_filter, ← read, List.filterMap_map,
    ← List.filterMap_eq_map]
  refine List.filterMap_congr fun a ha => ?_
  have here : e.stand.name a.name = some a.span :=
    Stand.name_put_all distinct ha (valued_stagedPairs _ _ a (staged ▸ ha))
  rw [Function.comp_apply, here]
  rfl

namespace Document

/-! ## What is rendered, and what is read -/

theorem spans_ofPieces (pieces : List Piece) : (ofPieces pieces).spans.map (·.2) =
    (labels 0 pieces).filterMap fun l => if l.1.isNone then some l.2 else none := by
  rw [labels, List.filterMap_map, ofPieces, List.map_filterMap]
  refine List.filterMap_congr fun m _ => ?_
  obtain ⟨_ | _, r⟩ := m <;> rfl

theorem attributeSpans_ofPieces (pieces : List Piece) : (ofPieces pieces).attributeSpans.map (·.2) =
    (labels 0 pieces).filterMap fun l => l.1.map (·, l.2) := by
  rw [labels, List.filterMap_map, ofPieces, List.map_filterMap]
  refine List.filterMap_congr fun m _ => ?_
  obtain ⟨_ | _, r⟩ := m <;> rfl

theorem tags_labels (es : List StagedElement) : (es.flatMap StagedElement.labels).filterMap
    (fun l => if l.1.isNone then some l.2 else none) = es.map (·.span) := by
  induction es with
  | nil => rfl
  | cons e es ih =>
    rw [List.flatMap_cons, List.filterMap_append, ih, List.map_cons, StagedElement.labels]
    simp [List.filterMap_map]

theorem names_labels (es : List StagedElement) : (es.flatMap StagedElement.labels).filterMap
    (fun l => l.1.map (·, l.2)) = es.flatMap fun e => e.attributes.map fun a => (a.name, a.span) := by
  induction es with
  | nil => rfl
  | cons e es ih =>
    rw [List.flatMap_cons, List.filterMap_append, ih, List.flatMap_cons, StagedElement.labels]
    simp [List.filterMap_map]

/-- The nodes that are read from the markup of a tree stand where its start tags do. -/
theorem stands_parse {t : Tree} (h : t.Writable) (width : Nat) (settings : Settings)
    (fits : ∀ x ∈ t.sketches, x.level < settings.nestingLimit) (into : Tree) :
    (parse into (render t width).text settings).1.nodes.map Node.stand =
      (stagedChunks 0 (chunks width t.sketches)).map StagedElement.stand := by
  have words : (lex (render t width).text).map (lexemeOf (render t width).text) =
      wordsAfter [] (chunks width t.sketches) := by
    rw [← lexemes_chunks (lexes_chunks width h.legible), ← toList_render_of_writable h]
    exact words_eq _
  have placed : lex (render t width).text = Markup.place 0 (wordsAfter [] (chunks width t.sketches)) := by
    rw [lex, toList_render_of_writable h, lexemes_chunks (lexes_chunks width h.legible)]
  have stands : StandIn (render t width).text 0 (wordsAfter [] (chunks width t.sketches)) := by
    rw [StandIn, ← placed, words]
  have start : ({ limit := settings.nestingLimit } : Builder).AtRest := ⟨rfl, rfl, by simp⟩
  obtain ⟨handed, -⟩ := Builder.hands_chunks (t := into.clear) start [] (chunks width t.sketches) stands
  obtain ⟨taken, sub, logs⟩ := @Builder.takes_readAll _ into.clear (render t width).text into.logs_clear
    { limit := settings.nestingLimit } (lex (render t width).text)
  obtain ⟨rest, drawn⟩ := readAll_render h width settings.nestingLimit fits into
  rw [← placed] at handed
  rw [handed] at sub
  have parsed := parse_eq into (render t width).text settings
  generalize Builder.readAll (render t width).text ({ limit := settings.nestingLimit }, into.clear)
    (lex (render t width).text) = s at rest drawn logs parsed
  obtain ⟨b, t'⟩ := s
  dsimp only at rest parsed logs
  rw [List.nil_append] at logs
  have issued : t'.issued = (t.sketches.map Sketch.trimmed).length := drawn.issued
  have counted := logs.issued
  rw [issued] at counted
  have all : taken = stagedChunks 0 (chunks width t.sketches) := by
    rw [List.length_map, List.length_map, (stagedAs_chunks width t.sketches).length_eq] at counted
    exact sub.eq_of_length counted.symm
  have nonempty : t'.nodes ≠ [] := by
    intro none
    have sketches := drawn.sketches
    rw [Tree.sketches, none, Tree.sketches, eq_comm, List.map_nil, List.map_eq_nil_iff,
      List.map_eq_nil_iff] at sketches
    exact h.nonempty sketches
  have tree : (parse into (render t width).text settings).1 = t' := by
    rw [parsed, Builder.finish_tree, rest.abandon, orDefault, Tree.isEmpty,
      List.isEmpty_eq_false_iff.mpr nonempty]
    rfl
  rw [tree, ← all]
  refine logs.map_stand ?_
  rw [drawn.ids, counted]

/-- Nodes that stand where elements with their attributes do have their places. -/
theorem places_of_stands {nodes : List Node} {es : List StagedElement}
    (names : ∀ n ∈ nodes, (n.attributes.map (·.name)).Nodup)
    (staged : List.Forall₂ StagedAs (nodes.map Node.sketch) es)
    (stands : nodes.map Node.stand = es.map StagedElement.stand) :
    nodes.map (·.span) = es.map (fun e => some e.span) ∧
      nodes.flatMap Node.readPlaces = es.flatMap fun e => e.attributes.map fun a => (a.name, a.span) := by
  induction nodes generalizing es with
  | nil =>
    cases staged
    exact ⟨rfl, rfl⟩
  | cons n nodes ih =>
    cases staged with
    | cons here later =>
      obtain ⟨stand, stands⟩ := List.cons.inj stands
      obtain ⟨distinct, names⟩ := List.forall_mem_cons.mp names
      obtain ⟨spans, places⟩ := ih names later stands
      constructor
      · rw [List.map_cons, List.map_cons, spans, ← StagedElement.tag_stand, ← stand]
        rfl
      · rw [List.flatMap_cons, List.flatMap_cons, places, n.places_of_stand distinct here stand]

/-- What is read of the markup of a tree stands where it was written. -/
theorem places_parse {t : Tree} (h : t.Writable) (width : Nat) (settings : Settings)
    (fits : ∀ x ∈ t.sketches, x.level < settings.nestingLimit) (into : Tree) :
    let read := (parse into (render t width).text settings).1
    read.nodes.map (·.span) = (render t width).spans.map (fun p => some p.2) ∧
      read.nodes.flatMap Node.readPlaces = (render t width).attributeSpans.map (·.2) := by
  intro read
  obtain ⟨again, sketches, -⟩ := parse_again h width settings fits into
  have staged : List.Forall₂ StagedAs (read.nodes.map Node.sketch)
      (stagedChunks 0 (chunks width t.sketches)) := by
    have same : read.nodes.map Node.sketch = t.sketches.map Sketch.trimmed := sketches
    rw [same, List.forall₂_map_left_iff]
    refine (stagedAs_chunks width t.sketches).imp fun x e staged => ?_
    rwa [StagedAs, x.plain_trimmed]
  obtain ⟨spans, places⟩ := places_of_stands (fun n hn => (again.current.fitted n hn).names) staged
    (stands_parse h width settings fits into)
  constructor
  · have written : (render t width).spans.map (·.2) = _ := spans_ofPieces _
    rw [labels_render h, tags_labels] at written
    have said := congrArg (List.map some) written
    rw [List.map_map, List.map_map] at said
    exact spans.trans said.symm
  · rw [places, ← names_labels, ← labels_render h, ← attributeSpans_ofPieces]
    rfl

/-- Writing and reading agree on places. A tree that was made by hand is written, whatever the
indentation, and its markup is read: the nodes that are read stand, in order, where the tags
were written, and their attributes, node by node, where the names were. -/
theorem parse_render_places {desk : Option Desk} {t : Tree} (h : Tree.Authored desk t) (width : Nat)
    (settings : Settings) (fits : ∀ n ∈ t.nodes, n.level < settings.nestingLimit) (into : Tree) :
    let rendered := render t width
    let read := (parse into rendered.text settings).1
    read.nodes.map (·.span) = rendered.spans.map (fun p => some p.2) ∧
      (read.nodes.flatMap fun n => n.attributes.filterMap fun a => a.span.map (a.name, ·)) =
        rendered.attributeSpans.map (·.2) := by
  refine places_parse h.writable width settings (fun x hx => ?_) into
  obtain ⟨n, hn, rfl⟩ := List.mem_map.mp hx
  exact fits n hn

/-- A text and a value with characters that markup has to hide in front of names, an attribute
without a value, and a character of more than one byte. -/
theorem parse_render_places_run :
    let t := (((((((Tree.new none).reset.edit (.add .value (some ⟨0⟩))).edit
      (.setAttribute ⟨2⟩ "#text" "a <b> & 'c'")).edit (.setAttribute ⟨2⟩ "x-y" "\"é")).edit
      (.add .filter (some ⟨2⟩))).edit (.toggle ⟨2⟩)).edit (.setAttribute ⟨1⟩ "name" "")).edit
      (.add .linkEntity (some ⟨0⟩))
    Tree.Authored none t ∧ (∀ n ∈ t.nodes, n.level < ({} : Settings).nestingLimit) ∧
      let rendered := render t 2
      let read := (parse .empty rendered.text {}).1
      read.nodes.map (·.span) = rendered.spans.map (fun p => some p.2) ∧
        (read.nodes.flatMap fun n => n.attributes.filterMap fun a => a.span.map (a.name, ·)) =
          rendered.attributeSpans.map (·.2) := by
  intro t
  have authored : Tree.Authored none t :=
    ((((((Tree.Authored.start.edit (.add .value (some ⟨0⟩)) (by decide)).edit
      (.setAttribute ⟨2⟩ "#text" "a <b> & 'c'") (by decide +kernel)).edit
      (.setAttribute ⟨2⟩ "x-y" "\"é") (by decide +kernel)).edit
      (.add .filter (some ⟨2⟩)) (by decide)).edit (.toggle ⟨2⟩) (by decide)).edit
      (.setAttribute ⟨1⟩ "name" "") (by decide +kernel)).edit
      (.add .linkEntity (some ⟨0⟩)) (by decide)
  have fits : ∀ n ∈ t.nodes, n.level < ({} : Settings).nestingLimit := by decide +kernel
  exact ⟨authored, fits, parse_render_places authored 2 {} fits .empty⟩

end Document

end QueryMarkup
