import QueryMarkup.Proofs.Document.Marks
import QueryMarkup.Proofs.Document.Soundness
import QueryMarkup.Proofs.Tree.Lineage

/-!
# Printing by recursion

Rendering walks over the nodes once and keeps the close tags that are owed on a stack. What it
writes is what a printer writes that goes down from each element to those directly in it: the
line of the element, the lines of what is in it, and its close tag. In a sound tree a node and its
descendants stand side by side, so the walk pays what it owes for an element exactly where the
printer comes back from it.
-/
namespace QueryMarkup.Document

/-! ## The printer -/

/-- The nodes that name a node as their parent, in preorder. -/
def inside (t : Tree) (n : Node) : List Node := t.nodes.filter fun m => decide (m.parent = some n.id)

/-- A text behind the indentation of its level. -/
def indented (width level : Nat) (text : String) : String :=
  String.ofList (List.replicate (level * width) ' ') ++ text

/-- The lines of an element on a level, where `inner` prints each element that is directly in it. -/
def printElement (t : Tree) (width : Nat) (inner : Node → List String) (level : Nat) (n : Node) :
    List String :=
  let start := "<" ++ n.tag ++ n.markupNow
  let stop := "</" ++ n.tag ++ ">"
  match inside t n, n.content? with
  | [], none => [indented width level (start ++ " />")]
  | [], some text => [indented width level (start ++ ">" ++ text ++ stop)]
  | m :: rest, content =>
    indented width level (start ++ ">" ++ content.getD "") :: (m :: rest).flatMap inner ++
      [indented width level stop]

/-- Prints an element and what is in it, going down at most `depth` times. -/
def printTo (t : Tree) (width : Nat) : Nat → Nat → Node → List String
  | 0, _, _ => []
  | depth + 1, level, n => printElement t width (printTo t width depth (level + 1)) level n

/-- Prints an element and all that is in it. Nothing is nested deeper than there are nodes. -/
def print (t : Tree) (width level : Nat) (n : Node) : List String :=
  printTo t width t.nodes.length level n

section
variable {t : Tree} {n m : Node} {width level : Nat}

theorem printElement_congr {inner inner' : Node → List String}
    (same : ∀ m ∈ inside t n, inner m = inner' m) :
    printElement t width inner level n = printElement t width inner' level n := by
  unfold printElement
  cases kids : inside t n with
  | nil => cases n.content? <;> rfl
  | cons m rest =>
    rw [kids] at same
    simp only [List.flatMap_congr same]

theorem mem_inside (h : t.Sound) (hn : n ∈ t.nodes) (hm : m ∈ inside t n) :
    m ∈ t.nodes ∧ m.level = n.level + 1 := by
  rw [inside, ← h.children_eq hn] at hm
  exact h.level_of_mem_children hn hm

/-- Below a node there is less than there is from it on. -/
theorem length_descendants_lt (h : t.Sound) (hn : n ∈ t.nodes) :
    (t.descendants n.id).length < t.nodes.length := by
  obtain ⟨before, after, split⟩ := List.append_of_mem hn
  have run : (Tree.runOf n.level after).length ≤ after.length := (List.takeWhile_sublist _).length_le
  rw [h.descendants_split split, split, List.length_append, List.length_cons]
  omega

theorem length_descendants_inside (h : t.Sound) (hn : n ∈ t.nodes) (hm : m ∈ inside t n) :
    (t.descendants m.id).length < (t.descendants n.id).length := by
  rw [inside, ← h.children_eq hn] at hm
  obtain ⟨front, back, split⟩ := List.append_of_mem hm
  have whole := congrArg List.length (h.descendants_eq hn)
  rw [split, List.flatMap_append, List.flatMap_cons, List.length_append, List.length_append,
    List.length_cons] at whole
  omega

/-- Going down further than there is something changes nothing. -/
theorem printTo_eq (h : t.Sound) (hn : n ∈ t.nodes) {depth depth' : Nat}
    (enough : (t.descendants n.id).length < depth) (enough' : (t.descendants n.id).length < depth') :
    printTo t width depth level n = printTo t width depth' level n := by
  induction depth generalizing depth' level n with
  | zero => omega
  | succ depth ih =>
    cases depth' with
    | zero => omega
    | succ depth' =>
      apply printElement_congr
      intro m hm
      have less := length_descendants_inside h hn hm
      apply ih (mem_inside h hn hm).1
      · omega
      · omega

/-- What the printer does, without a bound on how far it goes down. -/
theorem print_eq (h : t.Sound) (hn : n ∈ t.nodes) (width level : Nat) :
    print t width level n = printElement t width (print t width (level + 1)) level n := by
  have room := length_descendants_lt h hn
  calc print t width level n
    _ = printTo t width (t.nodes.length + 1) level n := by
      apply printTo_eq h hn
      · exact room
      · omega
    _ = printElement t width (print t width (level + 1)) level n := rfl

end

/-! ## The text of lines -/

/-- A line as it stands in the text. -/
def Line.text (width : Nat) (l : Line) : String :=
  indented width l.level (String.join (l.pieces.map (·.text)))

theorem text_join (width : Nat) (ls : List Line) :
    String.join ((join width ls).map (·.text)) = "\n".intercalate (ls.map (Line.text width)) := by
  induction ls with
  | nil => rfl
  | cons l ls ih =>
    cases ls with
    | nil =>
      rw [List.map_singleton, String.intercalate_singleton, join, List.map_cons, String.join_cons]
      rfl
    | cons m ls =>
      have split : join width (l :: m :: ls) =
        indentation width l.level :: l.pieces ++ { text := "\n" } :: join width (m :: ls) := rfl
      rw [List.map_cons, List.map_cons, String.intercalate_cons_cons, ← List.map_cons, ← ih, split]
      simp [Line.text, indented, indentation, String.join_append, String.append_assoc]

/-- The attributes in a start tag are written one behind the other, each behind a blank. -/
theorem text_attributePieces (n : Node) :
    String.join ((attributePieces n).map (·.text)) = n.markupNow := by
  have each (as : List Attribute) :
      String.join (((as.filter fun a => !a.content && !a.display.value.isEmpty).flatMap fun a =>
        [{ text := " " }, ⟨a.display.value, some (.attributeName n.id a.name)⟩]).map Piece.text) =
      String.join ((((as.filter fun a => !a.content).map (·.display.value)).filter
        fun text => !text.isEmpty).map fun text => " " ++ text) := by
    induction as with
    | nil => rfl
    | cons a as ih =>
      cases content : a.content <;> cases silent : a.display.value.isEmpty <;>
        simp [content, silent, ih, String.append_assoc]
  exact each n.attributes

theorem text_elementLine (n : Node) : String.join ((elementLine n).pieces.map (·.text)) =
    "<" ++ n.tag ++ n.markupNow ++ String.join ((endPieces n).map (·.text)) := by
  have line : (elementLine n).pieces =
    { text := "<" } :: { text := n.tag, mark := some (.tag n.id) } :: attributePieces n ++ endPieces n := rfl
  rw [line, List.map_append, String.join_append, List.map_cons, List.map_cons, String.join_cons,
    String.join_cons, text_attributePieces]
  simp only [String.append_assoc]

/-! ## The walk prints every element -/

section
variable {t : Tree} {n : Node} {width : Nat} {owed : List Owed} {rest : List Node}

/-- A close tag that is owed is written as soon as something follows that is not in its element. -/
theorem linesFrom_pay {o : Owed} (stop : ∀ m ∈ rest.head?, m.level ≤ o.level) :
    linesFrom (o :: owed) rest = o.line :: linesFrom owed rest := by
  cases rest with
  | nil => rfl
  | cons m rest =>
    have due : m.level ≤ o.level := stop m rfl
    simp [linesFrom, due]

/-- Nothing that is owed for elements higher up is written in front of an element. -/
theorem linesFrom_enter (higher : ∀ o ∈ owed, o.level < n.level) : linesFrom owed (n :: rest) =
    elementLine n :: linesFrom (if n.expandable then ⟨n.level, n.tag⟩ :: owed else owed) rest := by
  have later : ∀ o ∈ owed.head?, decide (n.level ≤ o.level) = false := by
    intro o ho
    simpa using higher o (List.mem_of_mem_head? ho)
  rw [linesFrom]
  cases owed with
  | nil => rfl
  | cons o owed =>
    have first := later o rfl
    simp [first]

/-- A node is expandable exactly if another one names it as its parent. -/
theorem expandable_iff_inside (h : t.Sound) (hn : n ∈ t.nodes) :
    n.expandable = !(inside t n).isEmpty := by
  have flag := h.arranged.expandable n.shape (List.mem_map_of_mem hn)
  have count := h.length_children hn
  rw [h.children_eq hn, ← inside] at count
  rw [show n.expandable = n.shape.expandable from rfl, flag, show n.shape.childCount = n.childCount from rfl,
    ← count]
  cases inside t n <;> simp

/-- The walk over some elements and what is in them writes what the printer prints of each. -/
theorem linesFrom_blocks {level depth : Nat} {ns : List Node} (levels : ∀ m ∈ ns, m.level = level)
    (each : ∀ m ∈ ns, ∀ rest, (∀ r ∈ rest.head?, r.level ≤ level) →
      (linesFrom owed (m :: t.descendants m.id ++ rest)).map (Line.text width) =
        printTo t width depth level m ++ (linesFrom owed rest).map (Line.text width))
    (stop : ∀ r ∈ rest.head?, r.level ≤ level) :
    (linesFrom owed ((ns.flatMap fun m => m :: t.descendants m.id) ++ rest)).map (Line.text width) =
      ns.flatMap (printTo t width depth level) ++ (linesFrom owed rest).map (Line.text width) := by
  induction ns with
  | nil => rfl
  | cons m ns ih =>
    obtain ⟨here, levels⟩ := List.forall_mem_cons.mp levels
    obtain ⟨first, each⟩ := List.forall_mem_cons.mp each
    rw [List.flatMap_cons, List.flatMap_cons, List.append_assoc, List.append_assoc, first, ih levels each]
    -- another element on this level follows, or what follows all of them
    intro r hr
    cases ns with
    | nil => exact stop r hr
    | cons m' ns =>
      obtain rfl : m' = r := Option.some.inj hr
      exact Nat.le_of_eq (levels m' List.mem_cons_self)

/-- The walk over an element and what is in it writes what the printer prints. -/
theorem linesFrom_block (h : t.Sound) (hn : n ∈ t.nodes) {depth : Nat}
    (enough : (t.descendants n.id).length < depth) (higher : ∀ o ∈ owed, o.level < n.level)
    (stop : ∀ r ∈ rest.head?, r.level ≤ n.level) :
    (linesFrom owed (n :: t.descendants n.id ++ rest)).map (Line.text width) =
      printTo t width depth n.level n ++ (linesFrom owed rest).map (Line.text width) := by
  induction depth generalizing n owed rest with
  | zero => omega
  | succ depth ih =>
    have expandable := expandable_iff_inside h hn
    have below := h.descendants_eq hn
    rw [h.children_eq hn, ← inside] at below
    rw [List.cons_append, linesFrom_enter higher, List.map_cons, Line.text, text_elementLine, endPieces,
      printTo, printElement]
    cases kids : inside t n with
    | nil =>
      rw [kids] at expandable below
      rw [below, show n.expandable = false from expandable]
      cases n.content? <;> simp [elementLine, String.append_assoc]
    | cons m others =>
      rw [kids] at expandable below
      have inner : (linesFrom (⟨n.level, n.tag⟩ :: owed) (t.descendants n.id ++ rest)).map (Line.text width) =
          (m :: others).flatMap (printTo t width depth (n.level + 1)) ++
            (linesFrom (⟨n.level, n.tag⟩ :: owed) rest).map (Line.text width) := by
        rw [below]
        apply linesFrom_blocks
        · intro c hc
          exact (mem_inside h hn (kids ▸ hc)).2
        · intro c hc rest' stop'
          have less := length_descendants_inside h hn (kids ▸ hc)
          obtain ⟨hc', level⟩ := mem_inside h hn (kids ▸ hc)
          rw [← level] at stop' ⊢
          apply ih hc' (by omega) _ stop'
          intro o ho
          rcases List.mem_cons.mp ho with rfl | ho
          · exact level ▸ Nat.lt_succ_self _
          · exact Nat.lt_trans (higher o ho) (level ▸ Nat.lt_succ_self _)
        · intro r hr
          exact Nat.le_succ_of_le (stop r hr)
      rw [show n.expandable = true from expandable, if_pos rfl, inner, linesFrom_pay stop]
      cases n.content? <;>
        simp [elementLine, Owed.line, Line.text, String.append_assoc]

end

theorem level_root {t : Tree} {n : Node} (h : t.Sound) (first : n ∈ t.nodes.head?) : n.level = 0 := by
  obtain ⟨rest, split⟩ := List.head?_eq_some_iff.mp first
  exact h.treelike.root n.sketch (by rw [Tree.sketches, split]; rfl)

/-- The text of a rendered tree is what the printer prints of its root. -/
theorem text_render {t : Tree} (h : t.Sound) (width : Nat) :
    (render t width).text = "\n".intercalate (t.root?.toList.flatMap (print t width 0)) := by
  have text : (render t width).text = "\n".intercalate ((lines t).map (Line.text width)) := text_join width _
  rw [text]
  cases root : t.root? with
  | none =>
    have empty : t.nodes = [] := List.head?_eq_none_iff.mp root
    rw [lines, empty]
    rfl
  | some n =>
    have first : n ∈ t.nodes.head? := root
    have hn := List.mem_of_mem_head? first
    have level := level_root h first
    have whole := @linesFrom_block t n width [] [] h hn _ (length_descendants_lt h hn) (by simp) (by simp)
    rw [List.append_nil, ← h.nodes_eq first, level] at whole
    rw [lines, whole]
    simp [linesFrom, print]

/-! ## Where the tags stand -/

/-- The node whose tag a piece is. -/
def Piece.tag? (p : Piece) : Option NodeId :=
  match p.mark with
  | some (.tag id) => some id
  | _ => none

/-- The places of tags among those of all marks. -/
def tagPlaces (marks : List (Mark × Text.Range)) : List (NodeId × Text.Range) :=
  marks.filterMap fun
    | (.tag id, range) => some (id, range)
    | _ => none

/-- A tag never comes right behind a piece that is empty. -/
def Spaced (p q : Piece) : Prop := q.tag?.isSome = true → 0 < p.text.utf8ByteSize

section
variable {pieces rest : List Piece} {p : Piece} {start : Nat}

theorem tagPlaces_cons (start : Nat) (p : Piece) (rest : List Piece) :
    tagPlaces (place start (p :: rest)) =
      p.tag?.toList.map (·, .ofLength start p.text.utf8ByteSize) ++
        tagPlaces (place (start + p.text.utf8ByteSize) rest) := by
  obtain ⟨text, mark⟩ := p
  cases mark with
  | none => rfl
  | some m => cases m <;> rfl

theorem map_fst_tagPlaces (start : Nat) (pieces : List Piece) :
    (tagPlaces (place start pieces)).map (·.1) = pieces.filterMap Piece.tag? := by
  induction pieces generalizing start with
  | nil => rfl
  | cons p rest ih =>
    rw [tagPlaces_cons, List.map_append, ih]
    cases tag : p.tag? <;> simp [tag]

/-- Tags behind a piece start behind where the piece starts, also where the piece is empty. -/
theorem start_lt_tagPlaces (spaced : (p :: rest).IsChain Spaced) :
    ∀ x ∈ tagPlaces (place (start + p.text.utf8ByteSize) rest), start < x.2.start := by
  induction rest generalizing p start with
  | nil => simp [place, tagPlaces]
  | cons q rest ih =>
    obtain ⟨space, spaced⟩ := List.isChain_cons_cons.mp spaced
    intro x hx
    rw [tagPlaces_cons] at hx
    rcases List.mem_append.mp hx with here | behind
    · obtain ⟨id, tag, rfl⟩ := List.mem_map.mp here
      have size := space (Option.isSome_of_mem (Option.mem_toList.mp tag))
      change start < start + p.text.utf8ByteSize
      omega
    · have := ih spaced x behind
      omega

theorem pairwise_tagPlaces (spaced : pieces.IsChain Spaced) :
    (tagPlaces (place start pieces)).Pairwise fun x y => x.2.start < y.2.start := by
  induction pieces generalizing start with
  | nil => exact List.Pairwise.nil
  | cons p rest ih =>
    rw [tagPlaces_cons]
    refine List.pairwise_append.mpr ⟨?_, ih spaced.tail, ?_⟩
    · cases p.tag? <;> simp
    · intro x hx y hy
      obtain ⟨id, -, rfl⟩ := List.mem_map.mp hx
      exact start_lt_tagPlaces spaced y hy

theorem spaced_of_untagged (untagged : ∀ q ∈ rest, q.tag? = none) : (p :: rest).IsChain Spaced := by
  induction rest generalizing p with
  | nil => exact List.isChain_singleton p
  | cons q rest ih =>
    obtain ⟨here, later⟩ := List.forall_mem_cons.mp untagged
    refine List.isChain_cons_cons.mpr ⟨?_, ih later⟩
    intro tag
    rw [here] at tag
    cases tag

end

/-- A line is spaced, and no tag comes first in it. -/
def Line.Spaced (l : Line) : Prop :=
  l.pieces.IsChain Document.Spaced ∧ ∀ q ∈ l.pieces.head?, q.tag? = none

theorem spaced_elementLine (n : Node) : (elementLine n).Spaced := by
  have line : (elementLine n).pieces =
    { text := "<" } :: { text := n.tag, mark := some (.tag n.id) } :: (attributePieces n ++ endPieces n) := rfl
  have untagged : ∀ q ∈ attributePieces n ++ endPieces n, q.tag? = none := by
    intro q hq
    rcases List.mem_append.mp hq with written | last
    · obtain ⟨a, -, ha⟩ := List.mem_flatMap.mp written
      simp only [List.mem_cons, List.not_mem_nil, or_false] at ha
      rcases ha with rfl | rfl <;> rfl
    · have unmarked : ∀ p ∈ endPieces n, p.mark = none := by
        unfold endPieces
        cases n.content? <;> cases n.expandable <;> simp
      rw [Piece.tag?, unmarked q last]
  constructor
  · rw [line]
    refine List.isChain_cons_cons.mpr ⟨?_, spaced_of_untagged untagged⟩
    intro _
    decide
  · rw [line]
    rintro q ⟨⟩
    rfl

theorem spaced_linesFrom (owed : List Owed) (nodes : List Node) :
    ∀ l ∈ linesFrom owed nodes, l.Spaced := by
  have closing (owed : List Owed) : ∀ l ∈ owed.map Owed.line, l.Spaced := by
    intro l hl
    obtain ⟨o, -, rfl⟩ := List.mem_map.mp hl
    exact ⟨List.isChain_singleton _, by rintro q ⟨⟩; rfl⟩
  induction nodes generalizing owed with
  | nil => exact closing owed
  | cons n nodes ih =>
    intro l hl
    rw [linesFrom] at hl
    rcases List.mem_append.mp hl with paid | hl
    · exact closing _ l paid
    · rcases List.mem_cons.mp hl with rfl | later
      · exact spaced_elementLine n
      · exact ih _ l later

theorem spaced_join {width : Nat} {ls : List Line} (each : ∀ l ∈ ls, l.Spaced) :
    (join width ls).IsChain Spaced ∧ ∀ q ∈ (join width ls).head?, q.tag? = none := by
  -- whatever a piece stands behind, it is spaced if it is no tag
  have apart {ps qs : List Piece} (hp : ps.IsChain Spaced) (hq : qs.IsChain Spaced)
      (first : ∀ q ∈ qs.head?, q.tag? = none) : (ps ++ qs).IsChain Spaced := by
    refine List.isChain_append.mpr ⟨hp, hq, ?_⟩
    intro p _ q hq tag
    rw [first q hq] at tag
    cases tag
  induction ls with
  | nil => exact ⟨List.isChain_nil, by simp [join]⟩
  | cons l ls ih =>
    obtain ⟨⟨spaced, first⟩, later⟩ := List.forall_mem_cons.mp each
    have indented : (indentation width l.level :: l.pieces).IsChain Spaced :=
      apart (List.isChain_singleton _) spaced first
    cases ls with
    | nil => exact ⟨indented, by rintro q ⟨⟩; rfl⟩
    | cons m ls =>
      obtain ⟨rest, head⟩ := ih later
      have broken := apart (List.isChain_singleton ({ text := "\n" } : Piece)) rest head
      refine ⟨apart indented broken ?_, ?_⟩
      · rintro q ⟨⟩
        rfl
      · rintro q ⟨⟩
        rfl

theorem tags_join (t : Tree) (width : Nat) : (join width (lines t)).filterMap Piece.tag? = t.ids := by
  have marks (ps : List Piece) : ps.filterMap Piece.tag? = (marked ps).filterMap Piece.tag? := by
    rw [marked, List.filterMap_filter]
    apply List.filterMap_congr
    rintro ⟨text, mark⟩ -
    cases mark <;> rfl
  have each (n : Node) : (markedPieces n).filterMap Piece.tag? = [n.id] := by
    have others (as : List Attribute) : (as.map fun a =>
        (⟨a.display.value, some (.attributeName n.id a.name)⟩ : Piece)).filterMap Piece.tag? = [] := by
      induction as with
      | nil => rfl
      | cons a as ih => exact ih
    exact congrArg (n.id :: ·) (others _)
  rw [marks, marked_join, lines, marked_linesFrom, List.filterMap_flatMap, Tree.ids, List.map_eq_flatMap]
  simp only [each]

/-- Rendering writes what the printer prints of the root. The printer goes from each node to those
that name it as their parent, and these are one level deeper. Every node has one place, in preorder,
and each place starts behind the one before. -/
theorem reached_printed {desk : Option Desk} {t : Tree} (h : Tree.Reached desk t) (width : Nat) :
    (∀ n ∈ t.root?, n.level = 0) ∧
      (∀ n ∈ t.nodes, (∀ m ∈ inside t n, m ∈ t.nodes ∧ m.level = n.level + 1) ∧
        ∀ level, print t width level n = printElement t width (print t width (level + 1)) level n) ∧
      (render t width).text = "\n".intercalate (t.root?.toList.flatMap (print t width 0)) ∧
      (render t width).spans.map (·.1) = t.ids ∧
      (render t width).spans.Pairwise fun x y => x.2.start < y.2.start := by
  have sound := h.sound
  have places : (render t width).spans = tagPlaces (place 0 (join width (lines t))) := rfl
  refine ⟨fun n hn => level_root sound hn, fun n hn => ⟨fun m => mem_inside sound hn, ?_⟩,
    text_render sound width, ?_, ?_⟩
  · exact print_eq sound hn width
  · rw [places, map_fst_tagPlaces, tags_join]
  · rw [places]
    exact pairwise_tagPlaces (spaced_join (spaced_linesFrom [] t.nodes)).1

/-- Three close tags come one behind the other in the middle, and three at the end. One node has lost
all its children, and one has both a text and a child. -/
theorem reached_printed_run :
    let t := ((Document.parse (.new none) "<fetch><entity name='a'><filter><condition><value>x<order/>
      </value></condition></filter><link-entity><filter><condition/></filter></link-entity></entity>
      </fetch>" {}).1.edit (.remove ⟨8⟩)).edit (.toggle ⟨2⟩)
    Tree.Reached none t ∧ (∀ n ∈ t.root?, n.level = 0) ∧
      (∀ n ∈ t.nodes, (∀ m ∈ inside t n, m ∈ t.nodes ∧ m.level = n.level + 1) ∧
        ∀ level, print t 2 level n = printElement t 2 (print t 2 (level + 1)) level n) ∧
      (render t 2).text = "\n".intercalate (t.root?.toList.flatMap (print t 2 0)) ∧
      (render t 2).spans.map (·.1) = t.ids ∧
      (render t 2).spans.Pairwise (fun x y => x.2.start < y.2.start) ∧
      t.root?.toList.flatMap (print t 2 0) =
        ["<fetch>", "  <entity name=\"a\">", "    <filter>", "      <condition>", "        <value>x",
          "          <order />", "        </value>", "      </condition>", "    </filter>",
          "    <link-entity>", "      <filter />", "    </link-entity>", "  </entity>", "</fetch>"] := by
  intro t
  have reached : Tree.Reached none t := (Tree.Reached.new.parse _ {}).edit (.remove ⟨8⟩) |>.edit (.toggle ⟨2⟩)
  obtain ⟨root, step, text, order, rise⟩ := reached_printed reached 2
  exact ⟨reached, root, step, text, order, rise, by decide +kernel⟩

end QueryMarkup.Document
