import QueryMarkup.Proofs.Document.Determined
import QueryMarkup.Proofs.Document.Tolerance
import QueryMarkup.Proofs.Markup.Frame

/-!
# Reading frames

What is read of attributes and texts never changes where an element stands. The frame of a text
alone, read by a machine that knows nothing else, says which elements there are and how they lie
in each other; and this decides which of them can be placed, and where in the tree.
-/
namespace QueryMarkup

open Markup

/-- The tag of an element, the number of the element around it and how deep it is. -/
structure NestedTag where
  tag : String
  around : Option Nat
  depth : Nat
  deriving DecidableEq

/-- The state of the machine that reads a frame: whether it is in a close tag and in a tag at all,
the tag that was begun, the numbers of the elements that are open, and the elements so far. -/
structure FrameReader where
  /-- A close tag was opened and neither ended nor given up. -/
  closing : Bool := false
  inTag : Bool := false
  staged : Option String := none
  stack : List Nat := []
  nestedTags : List NestedTag := []
  deriving DecidableEq

namespace FrameReader

def enter (s : FrameReader) (tag : String) (selfClosing : Bool) : FrameReader :=
  { s with
    nestedTags := s.nestedTags ++ [⟨tag, s.stack.head?, s.stack.length⟩]
    stack := if selfClosing then s.stack else s.nestedTags.length :: s.stack }

def abandon (s : FrameReader) : FrameReader :=
  let closed := { s with inTag := false, staged := none }
  match s.staged with
  | some tag => closed.enter tag true
  | none => closed

def leave (s : FrameReader) (selfClosing : Bool) : FrameReader :=
  if s.closing then { s with stack := s.stack.tail }
  else match s.staged with
    | some tag => { s with staged := none }.enter tag selfClosing
    | none => s

def endTag (s : FrameReader) (selfClosing : Bool) : FrameReader :=
  { s.leave selfClosing with inTag := false, closing := false }

def next (s : FrameReader) (l : Lexeme) : FrameReader :=
  match l.kind with
  | .startTag => { s.abandon with inTag := true, closing := false }
  | .startCloseTag => { s.abandon with inTag := true, closing := true }
  | .tagName => if !s.closing && s.inTag then { s with staged := some (String.ofList l.chars) } else s
  | .endTag => s.endTag false
  | .selfCloseEndTag => s.endTag true
  | _ => s

/-- What words amount to. -/
def read (s : FrameReader) (ls : List Lexeme) : FrameReader := ls.foldl next s

variable {s : FrameReader}

/-- Only the frame is read. -/
theorem read_frame (s : FrameReader) (ls : List Lexeme) : s.read (frame ls) = s.read ls := by
  induction ls generalizing s with
  | nil => rfl
  | cons l ls ih =>
    by_cases framed : l.isFrame = true
    · rw [frame_cons framed]
      exact ih (s.next l)
    · have skipped : s.next l = s := by
        unfold Lexeme.isFrame at framed
        unfold next
        split <;> simp_all
      have dropped : frame (l :: ls) = frame ls := List.filter_cons_of_neg framed
      rw [dropped, ih, read, read, List.foldl_cons, skipped]

/-! ## Whole tags -/

/-- No tag is open. -/
structure Rests (s : FrameReader) : Prop where
  inTag : s.inTag = false
  staged : s.staged = none
  closing : s.closing = false

/-- What a whole tag does to what is read before it. -/
def after (s : FrameReader) : Tag → FrameReader
  | .opening tag _ selfClosing => s.enter tag selfClosing
  | .closing _ => { s with stack := s.stack.tail }

/-- A tag is read as a whole, and none is open behind it. -/
theorem Rests.read_tag (h : s.Rests) (tag : Tag) :
    s.read tag.frame = s.after tag ∧ (s.after tag).Rests := by
  obtain ⟨closing, inTag, staged, stack, nestedTags⟩ := s
  obtain ⟨rfl, rfl, rfl⟩ := h
  cases tag with
  | opening tag pairs selfClosing =>
    refine ⟨?_, rfl, rfl, rfl⟩
    cases selfClosing <;> simp [read, after, Tag.frame, next, abandon, endTag, leave, enter]
  | closing tag =>
    refine ⟨?_, rfl, rfl, rfl⟩
    simp [read, after, Tag.frame, next, abandon, endTag, leave]

theorem Rests.read_tags (h : s.Rests) (tags : List Tag) :
    s.read (tags.flatMap Tag.frame) = tags.foldl after s := by
  induction tags generalizing s with
  | nil => rfl
  | cons tag tags ih =>
    obtain ⟨one, rests⟩ := h.read_tag tag
    rw [List.flatMap_cons, read, List.foldl_append]
    exact (congrArg (List.foldl next · (tags.flatMap Tag.frame)) one).trans (ih rests)

end FrameReader

/-! ## The frame of what is gathered -/

def Element.nestedTag (e : Element) : NestedTag := ⟨e.start.tag, e.around, e.depth⟩

namespace Gathered

/-- What is left of the elements without attributes, texts and places. -/
def frameReader (g : Gathered) : FrameReader where
  closing := decide (g.phase = .closing)
  inTag := g.inTag
  staged := g.staged.map (·.tag)
  stack := g.stack
  nestedTags := g.elements.map Element.nestedTag

theorem frameReader_enter (g : Gathered) (start : StagedElement) (selfClosing : Bool) :
    (g.enter start selfClosing).frameReader = g.frameReader.enter start.tag selfClosing := by
  cases selfClosing <;> simp [frameReader, Gathered.enter, FrameReader.enter, Element.nestedTag]

theorem frameReader_abandon (g : Gathered) : g.abandon.frameReader = g.frameReader.abandon := by
  unfold Gathered.abandon FrameReader.abandon
  have here : g.frameReader.staged = g.staged.map (·.tag) := rfl
  rw [here]
  cases g.staged with
  | none => rfl
  | some start => exact frameReader_enter { g with inTag := false, staged := none } start true

theorem frameReader_leave (g : Gathered) (selfClosing : Bool) :
    (g.leave selfClosing).frameReader = g.frameReader.leave selfClosing := by
  have here : g.frameReader.staged = g.staged.map (·.tag) := rfl
  have phase : g.frameReader.closing = decide (g.phase = .closing) := rfl
  unfold Gathered.leave FrameReader.leave
  rw [here, phase]
  by_cases closing : g.phase = .closing
  · rw [if_pos closing, if_pos (decide_eq_true closing)]
    rfl
  · rw [if_neg closing, if_neg (by simpa using closing)]
    cases g.staged with
    | none => rfl
    | some start => exact frameReader_enter { g with staged := none } start selfClosing

theorem frameReader_endTag (g : Gathered) (selfClosing : Bool) :
    (g.endTag selfClosing).frameReader = g.frameReader.endTag selfClosing := by
  rw [FrameReader.endTag, ← frameReader_leave]
  have phase : decide ((g.endTag selfClosing).phase = .closing) = false := by
    unfold Gathered.endTag
    dsimp only
    split
    · rfl
    · split
      · rfl
      · rename_i other
        simpa using other
  rw [frameReader, phase]
  rfl

/-- A token does to the reader of frames what its word does. -/
theorem frameReader_next (source : String) (g : Gathered) (token : Token) :
    (g.next source token).frameReader = g.frameReader.next (lexemeOf source token) := by
  have kind : (lexemeOf source token).kind = token.kind := rfl
  have word : String.ofList (lexemeOf source token).chars = Text.slice source token.span :=
    String.ofList_toList
  have opened (g : Gathered) (phase : Phase) : ({ g with inTag := true, phase } : Gathered).frameReader =
      { g.frameReader with inTag := true, closing := decide (phase = .closing) } := rfl
  unfold Gathered.next FrameReader.next
  dsimp only
  rw [kind, word]
  cases token.kind with
  | startTag => exact (opened _ _).trans (by rw [frameReader_abandon]; rfl)
  | startCloseTag => exact (opened _ _).trans (by rw [frameReader_abandon]; rfl)
  | tagName =>
    have named : (!g.frameReader.closing && g.frameReader.inTag) = true ↔
        g.phase ≠ .closing ∧ g.inTag = true := by
      simp [frameReader]
    simp only [named]
    split <;> rfl
  | attributeName => simp [frameReader, Function.comp_def]
  | attributeValue =>
    have tag (e : StagedElement) (raw : String) : (e.takeValue raw).tag = e.tag := by
      unfold StagedElement.takeValue
      split <;> rfl
    simp [frameReader, Function.comp_def, tag]
  | endTag => exact frameReader_endTag g false
  | selfCloseEndTag => exact frameReader_endTag g true
  | text =>
    obtain ⟨elements, stack, phase, inTag, staged⟩ :=
      g.readText_keeps (Text.slice source token.span).toList
    simp [frameReader, elements, stack, phase, inTag, staged]
  | equals | whitespace | comment | error => rfl

/-- What tokens amount to is read from the frame of their words. -/
theorem frameReader_ofTokens (source : String) (tokens : List Token) :
    (ofTokens source tokens).frameReader =
      (FrameReader.read {} (frame (tokens.map (lexemeOf source)))).abandon := by
  have words (g : Gathered) : (tokens.foldl (next source) g).frameReader =
      g.frameReader.read (tokens.map (lexemeOf source)) := by
    induction tokens generalizing g with
    | nil => rfl
    | cons token tokens ih => exact (ih _).trans (by rw [frameReader_next]; rfl)
  rw [ofTokens, frameReader_abandon, words, FrameReader.read_frame]
  rfl

end Gathered

/-! ## Trees with one frame -/

section
variable {limit : Nat} {elements elements' : List Element}

/-- What becomes of elements is settled by how they lie. -/
theorem fates_congr (same : elements.map Element.nestedTag = elements'.map Element.nestedTag) :
    fates limit elements = fates limit elements' := by
  have byTags (elements : List Element) : fates limit elements =
      (elements.map Element.nestedTag).foldl (fun before b =>
        before ++ [.of limit before ⟨⟨b.tag, .ofLength 0 0, []⟩, b.around, b.depth⟩]) [] := by
    rw [List.foldl_map]
    rfl
  rw [byTags, byTags, same]

/-- Where the entry of an element stands. -/
theorem Element.hollow_entry (fs : List Fate) (texts : List (Nat × String)) (k : Nat) (e : Element) :
    (e.entry fs texts k).hollow = ⟨⟨rank fs k⟩, .ofTag e.nestedTag.tag, e.nestedTag.tag,
      e.nestedTag.depth, e.nestedTag.around.map fun j => ⟨rank fs j⟩, [], fun _ => ""⟩ := by
  unfold entry
  dsimp only
  generalize hx : (⟨⟨rank fs k⟩, .ofTag e.start.tag, e.start.tag, e.depth,
    e.around.map fun j => ⟨rank fs j⟩, [], fun _ => ""⟩ : Entry) = bare
  obtain ⟨id, kind, tag, level, parent⟩ := bare.assignAll_fixed e.start.pairs
  obtain ⟨id', kind', tag', level', parent'⟩ := addTexts_fixed
    ((Kind.ofTag e.start.tag).keeps (textsIn texts k)) (bare.assignAll e.start.pairs)
  subst hx
  simp only [Entry.hollow, id', id, kind', kind, tag', tag, level', level, parent', parent, nestedTag]

variable {g g' : Gathered} {t t' : Tree}

theorem Holds.mem_standings (h : Holds limit g t) (h' : Holds limit g' t')
    (same : g.elements.map Element.nestedTag = g'.elements.map Element.nestedTag) {e : Entry}
    (he : e ∈ t.standings) : e ∈ t'.standings := by
  rw [Tree.standings_eq] at he ⊢
  obtain ⟨x, hx, rfl⟩ := List.mem_map.mp he
  obtain ⟨k, own, here, placed, rfl⟩ := (h.entries x).mp hx
  have alike : (g'.elements.map Element.nestedTag)[k]? = some own.nestedTag := by
    rw [← same, List.getElem?_map, here]
    rfl
  obtain ⟨other, there, alike⟩ := Option.map_eq_some_iff.mp (List.getElem?_map ▸ alike)
  have settled : fates limit g.elements = fates limit g'.elements := fates_congr same
  refine List.mem_map.mpr ⟨_, (h'.entries _).mpr ⟨k, other, there, settled ▸ placed, rfl⟩, ?_⟩
  rw [Element.hollow_entry, Element.hollow_entry, alike, settled]

/-- Trees of elements that lie in one way are the same, but for attributes. -/
theorem Holds.standings_congr (h : Holds limit g t) (h' : Holds limit g' t')
    (same : g.elements.map Element.nestedTag = g'.elements.map Element.nestedTag) :
    t.standings = t'.standings :=
  h.sound.standings_congr h'.sound fun _ => ⟨h.mem_standings h' same, h'.mem_standings h same.symm⟩

end

namespace Document

/-- Whatever attributes and texts there are, words with frames that amount to the same are read as
the same elements in the same places. -/
theorem standings_readTokens {source source' : String} {tokens tokens' : List Token}
    (same : FrameReader.read {} (frame (tokens.map (lexemeOf source))) =
      FrameReader.read {} (frame (tokens'.map (lexemeOf source')))) (t t' : Tree) (settings : Settings) :
    (readTokens t tokens source settings).1.standings =
      (readTokens t' tokens' source' settings).1.standings := by
  have readers : (Gathered.ofTokens source tokens).frameReader =
      (Gathered.ofTokens source' tokens').frameReader := by
    rw [Gathered.frameReader_ofTokens, Gathered.frameReader_ofTokens, same]
  exact (holds_readTokens t tokens source settings).1.standings_congr
    (holds_readTokens t' tokens' source' settings).1 (congrArg FrameReader.nestedTags readers)

end Document

end QueryMarkup
