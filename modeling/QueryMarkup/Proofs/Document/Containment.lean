import QueryMarkup.Proofs.Document.Labels
import QueryMarkup.Proofs.Document.FrameReader
import QueryMarkup.Proofs.Document.Writable
import QueryMarkup.Proofs.Tree.InPlace

/-!
# Attributes stay in their elements

The markup of a tree has the same frame whatever values its attributes have, and whatever names
these have that stay inside of a start tag. So setting such an attribute never changes which
elements are read back, nor where they stand.
-/
namespace QueryMarkup

open Markup

/-! ## The tags of a node -/

namespace Node

/-- The attributes that are written in the start tag of a node. -/
def inscribed (n : Node) : List (String × String) :=
  (n.attributes.filter fun a => !a.content && !a.display.value.isEmpty).map
    fun a => (a.name, n.value a.name)

/-- The tags on the line of a node. -/
def tags (n : Node) : List Tag :=
  match n.content?, n.expandable with
  | some _, false => [.opening n.tag n.inscribed false, .closing n.tag]
  | _, true => [.opening n.tag n.inscribed false]
  | none, false => [.opening n.tag n.inscribed true]

/-- The written forms of a node are current, and its attributes can be written in its start tag. -/
structure Contained (n : Node) : Prop where
  named : isName n.tag.toList = true
  display : ∀ a ∈ n.attributes,
    a.display.value = Attribute.written a.name a.content (n.value a.name)
  inert : ∀ p ∈ n.pairs, isInert p.1 = true

variable {n : Node}

theorem Contained.inscribed (h : n.Contained) : ∀ p ∈ n.inscribed, isInert p.1 = true := by
  intro p hp
  obtain ⟨a, ha, rfl⟩ := List.mem_map.mp hp
  obtain ⟨mem, written⟩ := List.mem_filter.mp ha
  refine h.inert _ (List.mem_filter.mpr ⟨List.mem_map_of_mem mem, ?_⟩)
  rw [h.display a mem, Attribute.isEmpty_written] at written
  exact (Bool.and_eq_true_iff.mp written).2

theorem Contained.pieceChars_attributePieces (h : n.Contained) :
    Document.pieceChars (Document.attributePieces n) = n.inscribed.flatMap Tag.pairChars := by
  rw [Document.pieceChars, Document.attributePieces, List.flatMap_assoc, Node.inscribed,
    List.flatMap_map]
  refine List.flatMap_congr fun a ha => ?_
  obtain ⟨mem, shown⟩ := List.mem_filter.mp ha
  have display := h.display a mem
  rw [display, Attribute.isEmpty_written, Bool.and_eq_true, Bool.not_eq_true', Bool.not_eq_true'] at shown
  obtain ⟨plain, filled⟩ := shown
  rw [plain, Attribute.written, if_neg (by simp [filled])] at display
  simp [display, Tag.pairChars, Text.encode]

/-- The text of an element opens no tag, whether it is its content or an attribute with the name of
content that its kind does not declare. -/
theorem Contained.content_plain (h : n.Contained) {text : String} (ht : n.content? = some text) :
    '<' ∉ text.toList := by
  obtain ⟨found, -⟩ := Option.filter_eq_some_iff.mp ht
  obtain ⟨a, ha, rfl⟩ := Option.map_eq_some_iff.mp found
  have name : a.name = contentName := by simpa using List.find?_some ha
  have encoded : '<' ∉ Text.encodeChars (n.value contentName).toList := (Text.not_mem_encodeChars _).1
  rw [h.display a (List.mem_of_find?_eq_some ha), name, Attribute.written]
  split
  · simp
  · split
    · simpa [Text.encode] using encoded
    · simpa [Text.encode, contentName] using encoded

/-- The line of a node has the frame of its tags. -/
theorem Contained.frameFrom_line (h : n.Contained) (rest : List Char) :
    frameFrom .content (Document.pieceChars (Document.elementLine n).pieces ++ rest) =
      n.tags.flatMap Tag.frame ++ frameFrom .content rest := by
  have start (rest : List Document.Piece) : Document.pieceChars ({ text := "<" } ::
      { text := n.tag, mark := some (.tag n.id) } :: Document.attributePieces n ++ rest) =
        '<' :: (n.tag.toList ++ (n.inscribed.flatMap Tag.pairChars ++ Document.pieceChars rest)) := by
    rw [← h.pieceChars_attributePieces]
    simp [Document.pieceChars]
  have line : Document.pieceChars (Document.elementLine n).pieces = '<' :: (n.tag.toList ++
      (n.inscribed.flatMap Tag.pairChars ++ Document.pieceChars (Document.endPieces n))) := start _
  have opening (selfClosing : Bool) : (Tag.opening n.tag n.inscribed selfClosing).Inert :=
    ⟨h.named, h.inscribed⟩
  have closing : (Tag.closing n.tag).Inert := h.named
  rw [line, tags, Document.endPieces]
  cases hc : n.content? with
  | none =>
    cases n.expandable with
    | false =>
      have chars := frameFrom_tag (opening true) rest
      simpa [Tag.chars, Tag.endChars, Document.pieceChars] using chars
    | true =>
      have chars := frameFrom_tag (opening false) rest
      simpa [Tag.chars, Tag.endChars, Document.pieceChars] using chars
  | some text =>
    have plain := h.content_plain hc
    cases n.expandable with
    | false =>
      have chars := frameFrom_tag (opening false) (text.toList ++ ((Tag.closing n.tag).chars ++ rest))
      rw [frameFrom_run plain, frameFrom_tag closing] at chars
      simpa [Tag.chars, Tag.endChars, Document.pieceChars] using chars
    | true =>
      have chars := frameFrom_tag (opening false) (text.toList ++ rest)
      rw [frameFrom_run plain] at chars
      simpa [Tag.chars, Tag.endChars, Document.pieceChars] using chars

end Node

namespace Document

/-! ## The tags of a tree -/

/-- The close tags that are owed. -/
def closingTags (owed : List Owed) : List Tag := owed.map fun o => .closing o.tag

/-- The tags of nodes in preorder, given the close tags that are owed, the innermost first. -/
def tagsFrom (owed : List Owed) : List Node → List Tag
  | [] => closingTags owed
  | n :: rest =>
    closingTags (owed.takeWhile fun o => decide (n.level ≤ o.level)) ++ (n.tags ++
      tagsFrom (owedAfter n.sketch n.expandable
        (owed.dropWhile fun o => decide (n.level ≤ o.level))) rest)

theorem closingTags_cons (o : Owed) (owed : List Owed) :
    closingTags (o :: owed) = .closing o.tag :: closingTags owed := rfl

theorem frameFrom_closings (width : Nat) {owed : List Owed}
    (named : ∀ o ∈ owed, isName o.tag.toList = true) (rest : List Char) :
    frameFrom .content ((owed.map Owed.line).flatMap (brokenLine width) ++ rest) =
      (closingTags owed).flatMap Tag.frame ++ frameFrom .content rest := by
  induction owed with
  | nil => rfl
  | cons o owed ih =>
    obtain ⟨here, later⟩ := List.forall_mem_cons.mp named
    have inert : (Tag.closing o.tag).Inert := here
    have line : brokenLine width o.line = lineBreak width o.level ++ (Tag.closing o.tag).chars := by
      simp [brokenLine, Owed.line, pieceChars, Tag.chars]
    rw [List.map_cons, List.flatMap_cons, line, List.append_assoc, List.append_assoc,
      frameFrom_run (not_mem_lineBreak width o.level), frameFrom_tag inert, ih later,
      closingTags_cons, List.flatMap_cons, List.append_assoc]

/-- The lines of nodes have the frame of their tags. -/
theorem frameFrom_lines (width : Nat) {nodes : List Node} (h : ∀ n ∈ nodes, n.Contained)
    {owed : List Owed} (named : ∀ o ∈ owed, isName o.tag.toList = true) :
    frameFrom .content ((linesFrom owed nodes).flatMap (brokenLine width)) =
      (tagsFrom owed nodes).flatMap Tag.frame := by
  induction nodes generalizing owed with
  | nil =>
    have closings := frameFrom_closings width named []
    rw [List.append_nil] at closings
    rw [linesFrom, closings, tagsFrom]
    simp [frameFrom, frame, lexemesFrom]
  | cons n nodes ih =>
    obtain ⟨here, later⟩ := List.forall_mem_cons.mp h
    have due : ∀ o ∈ owed.takeWhile fun o => decide (n.level ≤ o.level), isName o.tag.toList = true :=
      fun o ho => named o ((List.takeWhile_prefix _).subset ho)
    have left : ∀ o ∈ owed.dropWhile fun o => decide (n.level ≤ o.level), isName o.tag.toList = true :=
      fun o ho => named o ((List.dropWhile_suffix _).subset ho)
    have rest := ih later (@named_owedAfter n.sketch here.named n.expandable _ left)
    rw [linesFrom, tagsFrom, List.flatMap_append, List.flatMap_cons, frameFrom_closings width due,
      brokenLine, List.append_assoc, frameFrom_run (not_mem_lineBreak width _), here.frameFrom_line,
      List.flatMap_append, List.flatMap_append]
    exact congrArg (fun ls => _ ++ (_ ++ ls)) rest

/-- The first node stands in no other, and nothing is owed before it. -/
theorem tagsFrom_nil_cons (n : Node) (nodes : List Node) : tagsFrom [] (n :: nodes) =
    n.tags ++ tagsFrom (owedAfter n.sketch n.expandable []) nodes := rfl

/-- The markup of a tree has the frame of its tags. -/
theorem frame_render {t : Tree} (h : ∀ n ∈ t.nodes, n.Contained) (width : Nat) :
    frame (words (render t width).text) = (tagsFrom [] t.nodes).flatMap Tag.frame := by
  have framed : frame (words (render t width).text) = frameFrom .content (render t width).text.toList := by
    rw [words_eq, lexemes, frame_joinErrors]
    rfl
  rw [framed, toList_text, lines]
  cases hn : t.nodes with
  | nil => simp [linesFrom, join, pieceChars, frameFrom, frame, lexemesFrom, tagsFrom, closingTags]
  | cons n nodes =>
    rw [hn] at h
    obtain ⟨here, later⟩ := List.forall_mem_cons.mp h
    have first : linesFrom [] (n :: nodes) =
        elementLine n :: linesFrom (owedAfter n.sketch n.expandable []) nodes := rfl
    have owing := @named_owedAfter n.sketch here.named n.expandable [] (List.forall_mem_nil _)
    have blank : '<' ∉ List.replicate ((elementLine n).level * width) ' ' := by
      simp [List.mem_replicate]
    rw [first, pieceChars_join, frameFrom_run blank, here.frameFrom_line,
      frameFrom_lines width later owing, tagsFrom_nil_cons, List.flatMap_append]

/-! ## One start tag for each node -/

theorem countP_closingTags (owed : List Owed) :
    ((closingTags owed).flatMap Tag.frame).countP (·.kind = .startTag) = 0 := by
  induction owed with
  | nil => rfl
  | cons o owed ih =>
    rw [closingTags_cons, List.flatMap_cons, List.countP_append, ih]
    rfl

theorem countP_tags (n : Node) : (n.tags.flatMap Tag.frame).countP (·.kind = .startTag) = 1 := by
  unfold Node.tags
  split <;> rfl

theorem countP_tagsFrom (owed : List Owed) (nodes : List Node) :
    ((tagsFrom owed nodes).flatMap Tag.frame).countP (·.kind = .startTag) = nodes.length := by
  induction nodes generalizing owed with
  | nil => exact countP_closingTags owed
  | cons n nodes ih =>
    rw [tagsFrom, List.flatMap_append, List.flatMap_append, List.countP_append, List.countP_append,
      countP_closingTags, countP_tags, ih, List.length_cons]
    omega

theorem countP_startTag {t : Tree} (h : ∀ n ∈ t.nodes, n.Contained) (width : Nat) :
    (lex (render t width).text).countP (·.kind = .startTag) = t.nodes.length := by
  have tokens (source : String) : (lex source).countP (·.kind = .startTag) =
      (frame (words source)).countP (·.kind = .startTag) := by
    rw [frame, List.countP_filter, words, List.countP_map]
    refine List.countP_congr fun token _ => ?_
    cases kind : token.kind <;> simp [lexemeOf, Lexeme.isFrame, kind]
  rw [tokens, frame_render h, countP_tagsFrom]

/-! ## The tree without its attributes -/

end Document

/-- An element without attributes and without a text. -/
def Sketch.stripped (x : Sketch) : Sketch := { x with pairs := [] }

theorem Sketch.text_stripped (x : Sketch) : x.stripped.text = [] := by
  simp [Sketch.text, Sketch.stripped, Sketch.value?, Text.encodeChars]

theorem Sketch.leads_stripped (x : Sketch) (rest : List Sketch) :
    x.stripped.leads (rest.map Sketch.stripped) = x.leads rest := by
  cases rest <;> rfl

/-- How elements lie does not depend on their attributes. -/
theorem Sketch.Treelike.stripped {xs : List Sketch} (h : Treelike xs) :
    Treelike (xs.map Sketch.stripped) where
  root x hx := by
    rw [List.head?_map] at hx
    obtain ⟨y, hy, rfl⟩ := Option.map_eq_some_iff.mp hx
    exact h.root y hy
  steps := (List.isChain_map _).mpr h.steps
  ranked := by
    intro before x between y after split deep same
    obtain ⟨before, tail, rfl, rfl, ht⟩ := List.map_eq_append_iff.mp split
    obtain ⟨x, rest, rfl, rfl, hr⟩ := List.map_eq_cons_iff.mp ht
    obtain ⟨between, last, rfl, rfl, hl⟩ := List.map_eq_append_iff.mp hr
    obtain ⟨y, after, rfl, rfl, rfl⟩ := List.map_eq_cons_iff.mp hl
    exact h.ranked before x between y after rfl
      (fun z hz => deep z.stripped (List.mem_map_of_mem hz)) same

namespace Document

/-- Without its attributes a node is read alike. -/
theorem after_tags (n : Node) (indent : List Char) (s : FrameReader) :
    n.tags.foldl FrameReader.after s =
      ((elementChunks indent n.sketch.stripped n.expandable).map Chunk.tag).foldl
        FrameReader.after s := by
  rw [elementChunks, Sketch.text_stripped, if_pos rfl, Node.tags]
  -- an element that is opened and closed again is like one that closes itself
  cases n.content? <;> cases n.expandable <;> rfl

theorem after_tagsFrom (width : Nat) {nodes : List Node} (leads : ∀ before n after,
      nodes = before ++ n :: after → n.expandable = n.sketch.leads (after.map Node.sketch))
    (owed : List Owed) (s : FrameReader) :
    (tagsFrom owed nodes).foldl FrameReader.after s =
      ((chunksFrom width owed ((nodes.map Node.sketch).map Sketch.stripped)).map Chunk.tag).foldl
        FrameReader.after s := by
  have closings (owed : List Owed) : (closings width owed).map Chunk.tag = closingTags owed := by
    rw [closings, List.map_map]
    rfl
  induction nodes generalizing owed s with
  | nil => rw [tagsFrom, List.map_nil, List.map_nil, chunksFrom, closings]
  | cons n nodes ih =>
    have here := leads [] n nodes rfl
    have later := ih fun before m after split => leads (n :: before) m after (by rw [split]; rfl)
    rw [tagsFrom, List.map_cons, List.map_cons, chunksFrom, List.map_append, List.map_append,
      List.foldl_append, List.foldl_append, List.foldl_append, List.foldl_append, closings,
      Sketch.leads_stripped, ← here, after_tags n (lineBreak width n.sketch.stripped.level), later]
    rfl

/-- Reading the frame of a tree is reading the tree without its attributes. -/
theorem read_tags {t : Tree} (sound : t.Sound) (width : Nat) :
    FrameReader.read {} ((tagsFrom [] t.nodes).flatMap Tag.frame) = FrameReader.read {}
      (frame (wordsAfter [] (chunks width (t.sketches.map Sketch.stripped)))) := by
  have rests : ({} : FrameReader).Rests := ⟨rfl, rfl, rfl⟩
  rw [frame_wordsAfter, rests.read_tags, rests.read_tags, Tree.sketches]
  cases hn : t.nodes with
  | nil => rfl
  | cons n nodes =>
    have here : n.expandable = n.sketch.leads (nodes.map Node.sketch) :=
      @Tree.Sound.expandable_eq t sound [] nodes n hn
    have later := @after_tagsFrom width nodes fun before m after split =>
      @Tree.Sound.expandable_eq t sound (n :: before) after m (by rw [hn, split]; rfl)
    rw [tagsFrom_nil_cons, List.map_cons, List.map_cons, chunks, List.map_append, List.foldl_append,
      List.foldl_append, Sketch.leads_stripped, ← here, after_tags n [], later]
    rfl

/-! ## Reading the markup of a tree -/

end Document

/-- What an element is, its kind and its tag, and how deep it stands. -/
def Node.seat (n : Node) : Kind × String × Nat := (n.kind, n.tag, n.level)

namespace Tree

def seats (t : Tree) : List (Kind × String × Nat) := t.nodes.map Node.seat

/-- Every node is of a known kind and has the tag of this kind. -/
def Known (t : Tree) : Prop := ∀ n ∈ t.nodes, n.kind.tag? = some n.tag

/-- The names of all attributes that have a value stay inside of the start tags. -/
def Inert (t : Tree) : Prop := ∀ n ∈ t.nodes, ∀ p ∈ n.pairs, isInert p.1 = true

instance (t : Tree) : Decidable t.Known := inferInstanceAs (Decidable (∀ n ∈ t.nodes, _))

instance (t : Tree) : Decidable t.Inert := inferInstanceAs (Decidable (∀ n ∈ t.nodes, _))

variable {t t' : Tree}

theorem seats_eq_standings (t : Tree) :
    t.seats = t.standings.map fun e => (e.kind, e.tag, e.level) := by
  rw [standings, List.map_map]
  rfl

theorem seats_eq_sketches (t : Tree) : t.seats = t.sketches.map fun x => (x.kind, x.tag, x.level) := by
  rw [sketches, List.map_map]
  rfl

/-- Where the tags say the kinds, it is enough that these are known. -/
theorem Labelled.known (h : t.Labelled) (kinds : ∀ n ∈ t.nodes, n.kind ≠ .unknown) : t.Known := by
  intro n hn
  have named : Kind.ofTag n.tag = n.kind := h (label n) (List.mem_map_of_mem hn)
  exact Kind.tag?_of_ofTag named (kinds n hn)

/-- Without its attributes a tree of known kinds can be written and read again. -/
theorem Known.legible (h : t.Known) : ∀ x ∈ t.sketches.map Sketch.stripped, x.Legible := by
  intro x hx
  obtain ⟨y, hy, rfl⟩ := List.mem_map.mp hx
  obtain ⟨n, hn, rfl⟩ := List.mem_map.mp hy
  exact ⟨Kind.isName_of_tag? (h n hn), (Kind.ofTag_of_tag? (h n hn)).1, List.nodup_nil,
    List.Pairwise.nil, by simp [Sketch.stripped], by simp [Sketch.stripped]⟩

theorem Known.contained (h : t.Known) (current : t.Current) (inert : t.Inert) :
    ∀ n ∈ t.nodes, n.Contained := fun n hn =>
  ⟨Kind.isName_of_tag? (h n hn), fun a ha => (current.fresh n hn).display a ha (by simp), inert n hn⟩

end Tree

namespace Document

/-- The markup of a tree of known kinds has one start tag for each node, and is read as the same
elements on the same levels, whatever their attributes are, as long as the names of these stay
inside of the start tags. -/
theorem parse_contained {t : Tree} (sound : t.Sound) (current : t.Current) (nonempty : t.nodes ≠ [])
    (known : t.Known) (inert : t.Inert) (width : Nat) (settings : Settings)
    (fits : ∀ n ∈ t.nodes, n.level < settings.nestingLimit) (into : Tree) :
    let text := (render t width).text
    (lex text).countP (·.kind = .startTag) = t.nodes.length ∧ (parse into text settings).1.seats = t.seats := by
  intro text
  have contained := known.contained current inert
  refine ⟨countP_startTag contained width, ?_⟩
  have levels : ∀ x ∈ t.sketches.map Sketch.stripped, x.level < settings.nestingLimit := by
    intro x hx
    obtain ⟨y, hy, rfl⟩ := List.mem_map.mp hx
    obtain ⟨n, hn, rfl⟩ := List.mem_map.mp hy
    exact fits n hn
  generalize hb : String.ofList ((chunks width (t.sketches.map Sketch.stripped)).flatMap Chunk.chars) = bare
  have written : bare.toList = (chunks width (t.sketches.map Sketch.stripped)).flatMap Chunk.chars := by
    rw [← hb, String.toList_ofList]
  -- both texts have frames that amount to the same, and the bare one is read as it was written
  have same : FrameReader.read {} (frame (words text)) = FrameReader.read {} (frame (words bare)) := by
    rw [frame_render contained, read_tags sound width, words_eq, written,
      lexemes_chunks (lexes_chunks width known.legible)]
  have standings := standings_readTokens same into into settings
  have sketches := (readTokens_chunks sound.treelike.stripped known.legible levels written into).1
  have seats : (readTokens into (lex text) text settings).1.seats = t.seats := by
    rw [Tree.seats_eq_standings, standings, ← Tree.seats_eq_standings, Tree.seats_eq_sketches, sketches,
      List.map_map, List.map_map, Tree.seats_eq_sketches]
    rfl
  have live : (readTokens into (lex text) text settings).1.nodes ≠ [] := by
    intro none
    rw [Tree.seats, none, Tree.seats, List.map_nil, eq_comm, List.map_eq_nil_iff] at seats
    exact nonempty seats
  rw [parse_of_nodes live, seats]

end Document

/-! ## Setting an attribute -/

/-- The pairs of an entry after an assignment are old ones and the new one, unless that is empty. -/
theorem Entry.mem_pairs_assign {e : Entry} {name value : String} {p : String × String}
    (hp : p ∈ (e.assign name value).sketch.pairs) :
    p = (name, value) ∧ value ≠ "" ∨ p ∈ e.sketch.pairs := by
  obtain ⟨hm, filled⟩ := List.mem_filter.mp hp
  obtain ⟨a, ha, rfl⟩ := List.mem_map.mp hm
  by_cases own : a.name = name
  · have given : (e.assign name value).value a.name = value := if_pos own
    rw [given] at filled ⊢
    exact .inl ⟨congrArg (·, value) own, by simpa using filled⟩
  · have kept : (e.assign name value).value a.name = e.value a.name := if_neg own
    rw [kept] at filled ⊢
    have old : a ∈ e.attributes := by
      unfold Entry.assign at ha
      dsimp only at ha
      split at ha
      · exact ha
      · rcases Attribute.mem_insertInto.mp ha with rfl | ha
        · exact absurd (Kind.name_bareAttribute _ _) own
        · exact ha
    exact .inr (List.mem_filter.mpr ⟨List.mem_map_of_mem old, filled⟩)

namespace Tree

variable {t t' : Tree} {id : NodeId} {name value : String} {issues : List StructuralIssue}

theorem seats_insertParsed (nd : t.ids.Nodup) (e : t.insertParsed id name value = .ok (t', issues)) :
    t'.seats = t.seats := by
  have entries (t : Tree) : t.seats = t.entries.map fun e => (e.kind, e.tag, e.level) := by
    rw [Tree.entries, List.map_map]
    rfl
  rw [entries, entries, (entries_insertParsed nd e).1, List.map_map]
  refine List.map_congr_left fun x _ => ?_
  rw [Function.comp_apply]
  split <;> rfl

theorem inert_insertParsed (nd : t.ids.Nodup) (inert : t.Inert) (stays : isInert name = true ∨ value = "")
    (e : t.insertParsed id name value = .ok (t', issues)) : t'.Inert := by
  have pairs (n : Node) : n.entry.sketch.pairs = n.pairs := congrArg Sketch.pairs n.sketch_entry
  intro m hm p hp
  have here : m.entry ∈ t'.entries := List.mem_map_of_mem hm
  rw [(entries_insertParsed nd e).1] at here
  obtain ⟨x, hx, same⟩ := List.mem_map.mp here
  obtain ⟨n, hn, rfl⟩ := List.mem_map.mp hx
  rw [← pairs, ← same] at hp
  have old (kept : p ∈ n.entry.sketch.pairs) : isInert p.1 = true := inert n hn p (pairs n ▸ kept)
  split at hp
  · rcases Entry.mem_pairs_assign hp with ⟨rfl, filled⟩ | kept
    · exact stays.resolve_right filled
    · exact old kept
  · exact old hp

/-- Of nodes only what they are and how deep they stand matters. -/
theorem forall_of_seats (same : t'.seats = t.seats) {P : Kind × String × Nat → Prop}
    (h : ∀ n ∈ t.nodes, P n.seat) : ∀ m ∈ t'.nodes, P m.seat := by
  intro m hm
  have seated : m.seat ∈ t.seats := same ▸ List.mem_map_of_mem hm
  obtain ⟨n, hn, e⟩ := List.mem_map.mp seated
  exact e ▸ h n hn

end Tree

namespace Document

/-- Attributes cannot change the structure of a document, as long as their names stay inside of the
start tags. In a tree of known kinds any attribute of any node can be set to any value; then the
markup has one start tag for each node, and it is read as the same elements on the same levels. -/
theorem setAttribute_contained {desk : Option Desk} {t : Tree} (reached : Tree.Reached desk t)
    (known : t.Known) (inert : t.Inert) {id : NodeId} (live : id ∈ t.ids) {name value : String}
    (stays : isInert name = true ∨ value = "") (settings : Settings)
    (fits : ∀ n ∈ t.nodes, n.level < settings.nestingLimit) :
    ∃ t', t.setAttribute id name value = .ok t' ∧ ∀ (width : Nat) (into : Tree),
      let text := (render t' width).text
      (lex text).countP (·.kind = .startTag) = t.nodes.length ∧
        (parse into text settings).1.seats = t.seats := by
  obtain ⟨t', issues, inserted, -⟩ := Tree.insertParsed_ok live name value
  have set : t.setAttribute id name value = .ok t' := by
    rw [Tree.setAttribute_eq, inserted]
    rfl
  have after : Tree.Reached desk t' := by
    have edited : t.edit (.setAttribute id name value) = t' := by
      simp only [Tree.edit, Tree.perform, set, Except.map]
    exact edited ▸ reached.edit _
  have nd := reached.sound.nodup
  have seats := Tree.seats_insertParsed nd inserted
  have length : t'.nodes.length = t.nodes.length := by simpa [Tree.seats] using congrArg List.length seats
  have nonempty : t'.nodes ≠ [] := by
    rw [← List.length_pos_iff, length, ← List.length_map]
    exact List.length_pos_of_mem live
  refine ⟨t', set, fun width into => ?_⟩
  rw [← seats, ← length]
  exact parse_contained after.sound after.current nonempty
    (Tree.forall_of_seats (P := fun s => s.1.tag? = some s.2.1) seats known)
    (Tree.inert_insertParsed nd inert stays inserted) width settings
    (Tree.forall_of_seats (P := fun s => s.2.2 < settings.nestingLimit) seats fits) into

/-- A text where none is declared, and a name with blanks, a slash and brackets in quotes for a
value that would end its tag. -/
theorem setAttribute_contained_run :
    let t := ((Tree.new none).reset.edit (.setAttribute ⟨1⟩ "#text" "<b>")).edit (.add .value (some ⟨1⟩))
    Tree.Reached none t ∧ t.Known ∧ t.Inert ∧ ⟨1⟩ ∈ t.ids ∧ isInert "x '<y>' /" = true ∧
      (∀ n ∈ t.nodes, n.level < ({} : Settings).nestingLimit) ∧
      ∃ t', t.setAttribute ⟨1⟩ "x '<y>' /" "\"/><entity name='" = .ok t' ∧ ∀ (width : Nat) (into : Tree),
        let text := (render t' width).text
        (lex text).countP (·.kind = .startTag) = t.nodes.length ∧
          (parse into text {}).1.seats = t.seats := by
  intro t
  have honest : Tree.Honest none t := ((Tree.Honest.new.edit .reset trivial).edit
    (.setAttribute ⟨1⟩ "#text" "<b>") trivial).edit (.add .value (some ⟨1⟩)) trivial
  have known : t.Known := honest.labelled.known (by decide +kernel)
  have inert : t.Inert := by decide +kernel
  have live : ⟨1⟩ ∈ t.ids := by decide +kernel
  have stays : isInert "x '<y>' /" = true := by decide +kernel
  have fits : ∀ n ∈ t.nodes, n.level < ({} : Settings).nestingLimit := by decide +kernel
  exact ⟨honest.reached, known, inert, live, stays, fits,
    setAttribute_contained honest.reached known inert live (.inl stays) {} fits⟩

/-- A name may be anything, and it is written as it is: this one ends its tag and starts another. -/
theorem setAttribute_breaks_out :
    let t := (Tree.new none).reset
    Tree.Reached none t ∧ t.Known ∧ t.Inert ∧ ⟨1⟩ ∈ t.ids ∧
      (∀ n ∈ t.nodes, n.level < ({} : Settings).nestingLimit) ∧
      t.nodes.length = 2 ∧ t.seats = [(.fetch, "fetch", 0), (.entity, "entity", 1)] ∧
      (t.setAttribute ⟨1⟩ "x><entity y" "1").toOption.map (fun t' =>
        let text := (render t' 2).text
        ((lex text).countP (·.kind = .startTag), (parse .empty text {}).1.seats)) =
          some (3, [(.fetch, "fetch", 0), (.entity, "entity", 1), (.entity, "entity", 2)]) :=
  ⟨Tree.Reached.new.edit .reset, by decide +kernel, by decide +kernel, by decide +kernel,
    by decide +kernel, by decide +kernel, by decide +kernel, by decide +kernel⟩

end Document

end QueryMarkup
