import QueryMarkup.Proofs.Document.Standing
import QueryMarkup.Proofs.Document.Staging
import QueryMarkup.Proofs.Text.Boundary

/-!
# What written tags hand over

The words of written chunks stand one behind the other. Reading them hands over one staged
element for each start tag, and where its names stand follows from the lengths of what is
written in front of them.
-/
namespace QueryMarkup

open Markup Text

namespace Markup

/-- The attributes that written pairs stage, from a place on. -/
def stagedPairs (start : Nat) : List (String × String) → List StagedAttribute
  | [] => []
  | p :: pairs =>
    ⟨p.1, .ofLength (start + 1) p.1.utf8ByteSize, some p.2⟩ ::
      stagedPairs (start + byteLength (Tag.pairChars p)) pairs

/-- The element that a written start tag stages. -/
def Tag.staged (start : Nat) : Tag → List StagedElement
  | opening tag pairs _ =>
    [⟨tag, .ofLength (start + 1) tag.utf8ByteSize, stagedPairs (start + 1 + tag.utf8ByteSize) pairs⟩]
  | closing _ => []

/-- The elements that written chunks stage, from a place on. -/
def stagedChunks (start : Nat) : List Chunk → List StagedElement
  | [] => []
  | chunk :: rest =>
    chunk.tag.staged (start + byteLength chunk.indent) ++
      stagedChunks (start + byteLength chunk.chars) rest

theorem stagedChunks_append (start : Nat) (xs ys : List Chunk) : stagedChunks start (xs ++ ys) =
    stagedChunks start xs ++ stagedChunks (start + byteLength (xs.flatMap Chunk.chars)) ys := by
  induction xs generalizing start with
  | nil => rfl
  | cons chunk xs ih =>
    rw [List.cons_append, stagedChunks, ih, stagedChunks, List.flatMap_cons, byteLength_append,
      List.append_assoc, Nat.add_assoc]

/-! ## Places of words -/

/-- The characters of words. -/
def wordChars (words : List Lexeme) : List Char := words.flatMap (·.chars)

theorem wordChars_append (xs ys : List Lexeme) : wordChars (xs ++ ys) = wordChars xs ++ wordChars ys :=
  List.flatMap_append

theorem wordChars_runWords (run : List Char) : wordChars (runWords run) = run := by
  unfold runWords
  split
  · rename_i empty
    rw [empty]
    rfl
  · simp [wordChars]

theorem wordChars_pairWords (p : String × String) : wordChars (Tag.pairWords p) = Tag.pairChars p := by
  simp [wordChars, Tag.pairWords, Tag.pairChars]

theorem wordChars_words (tag : Tag) : wordChars tag.words = tag.chars := by
  cases tag with
  | opening tag pairs selfClosing =>
    have attributes : wordChars (pairs.flatMap Tag.pairWords) = pairs.flatMap Tag.pairChars := by
      rw [wordChars, List.flatMap_assoc]
      exact List.flatMap_congr fun p _ => wordChars_pairWords p
    have last : wordChars (Tag.endWords selfClosing) = Tag.endChars selfClosing := by
      cases selfClosing <;> rfl
    have split : wordChars (Tag.opening tag pairs selfClosing).words =
        '<' :: (tag.toList ++ wordChars (pairs.flatMap Tag.pairWords ++ Tag.endWords selfClosing)) := rfl
    rw [split, wordChars_append, attributes, last]
    rfl
  | closing tag => rfl

theorem place_append (start : Nat) (xs ys : List Lexeme) :
    place start (xs ++ ys) = place start xs ++ place (start + byteLength (wordChars xs)) ys := by
  induction xs generalizing start with
  | nil => rfl
  | cons w xs ih =>
    have next : (Range.ofLength start (byteLength w.chars)).stop = start + byteLength w.chars := rfl
    have chars : wordChars (w :: xs) = w.chars ++ wordChars xs := rfl
    rw [List.cons_append, place, next, ih, place, next, chars, byteLength_append, Nat.add_assoc,
      List.cons_append]

theorem length_place (start : Nat) (words : List Lexeme) : (place start words).length = words.length := by
  induction words generalizing start with
  | nil => rfl
  | cons w words ih => rw [place, List.length_cons, ih, List.length_cons]

/-- In the text the words stand where they are placed. -/
def StandIn (source : String) (start : Nat) (words : List Lexeme) : Prop :=
  (place start words).map (lexemeOf source) = words

theorem standIn_append {source : String} {start : Nat} {xs ys : List Lexeme} :
    StandIn source start (xs ++ ys) ↔
      StandIn source start xs ∧ StandIn source (start + byteLength (wordChars xs)) ys := by
  unfold StandIn
  rw [place_append, List.map_append]
  constructor
  · intro h
    exact List.append_inj h (by rw [List.length_map, length_place])
  · rintro ⟨h, h'⟩
    rw [h, h']

end Markup

namespace Builder

variable {source : String} {b : Builder} {t : Tree} {start : Nat}

/-! ## What is left of the builder -/

theorem staged_reports (b : Builder) (span : Range) (issues : List StructuralIssue) :
    (issues.foldl (fun (b : Builder) i => b.report i.kind span i.detail) b).staged = b.staged :=
  List.foldlRecOn (motive := fun b' : Builder => b'.staged = b.staged) _ _ rfl fun _ ih _ _ => ih

theorem staged_readAttributes (id : NodeId) (s : Builder × Tree × List String)
    (attributes : List StagedAttribute) :
    (attributes.foldl (readAttribute id) s).1.staged = s.1.staged := by
  induction attributes generalizing s with
  | nil => rfl
  | cons a attributes ih =>
    refine (ih _).trans ?_
    obtain ⟨b, t, seen⟩ := s
    have first : (b.named seen a).staged = b.staged := by
      unfold named
      split <;> rfl
    cases readAttribute_outcome id b t seen a with
    | missing _ read => exact read ▸ first
    | lost _ _ read => exact read ▸ first
    | stored _ _ read => exact read ▸ (staged_reports _ _ _).trans first

theorem staged_push (b : Builder) (o : OpenElement) (selfClosing : Bool) :
    (b.push o selfClosing).staged = b.staged := by
  unfold push
  split <;> rfl

theorem staged_finalize (b : Builder) (t : Tree) (e : StagedElement) (selfClosing : Bool) :
    (b.finalize t e selfClosing).1.staged = b.staged := by
  have placed : (b.placing t e).staged = b.staged := staged_reports b _ _
  cases b.finalize_outcome t e selfClosing with
  | skipped _ made => exact made ▸ staged_push _ _ _
  | refused _ made => exact made ▸ staged_push _ _ _
  | lost _ _ made => exact made ▸ (staged_push _ _ _).trans placed
  | added _ _ made =>
    exact made ▸ ((staged_push _ _ _).trans (staged_readAttributes _ _ _)).trans placed

/-- A text leaves the builder between tags. -/
theorem AtRest.readText (h : b.AtRest) (t : Tree) (span : Range) (chars : List Char) :
    (b.readText t span chars).1.AtRest := by
  cases b.readText_outcome t span chars with
  | ignored read => exact read ▸ h
  | unexpected read => exact read ▸ ⟨h.tagOpen, h.staged, h.phase⟩
  | stored _ _ _ read => exact read ▸ h

/-! ## Words -/

/-- Words that stand in the text from a place on hand over these elements, and leave the builder
between tags. -/
def Hands (source : String) (start : Nat) (words : List Lexeme) (s : Builder × Tree)
    (elements : List StagedElement) : Prop :=
  StandIn source start words → endedAll source s (place start words) = elements ∧
    (readAll source s (place start words)).1.AtRest

theorem Hands.append {xs ys : List Lexeme} {s : Builder × Tree} {es es' : List StagedElement}
    (h : Hands source start xs s es) (next : ∀ s' : Builder × Tree, s'.1.AtRest →
      Hands source (start + byteLength (wordChars xs)) ys s' es') :
    Hands source start (xs ++ ys) s (es ++ es') := by
  intro stands
  obtain ⟨here, later⟩ := standIn_append.mp stands
  obtain ⟨first, rest⟩ := h here
  obtain ⟨others, last⟩ := next _ rest later
  rw [place_append, endedAll_append, readAll_append, first, others]
  exact ⟨rfl, last⟩

/-- What stands between tags hands nothing over. -/
theorem hands_run (rest : b.AtRest) (run : List Char) : Hands source start (runWords run) (b, t) [] := by
  unfold runWords
  split
  · exact fun _ => ⟨rfl, rest⟩
  · split
    · intro _
      refine ⟨rfl, ?_⟩
      rw [place, place, readAll_cons, feed_quiet (.inr (.inl rfl))]
      exact rest
    · intro _
      refine ⟨rfl, ?_⟩
      rw [place, place, readAll_cons, feed_text rfl]
      exact rest.readText t _ _

/-- A written pair is staged as the last attribute. -/
theorem readAll_pair {e : StagedElement} (staged : b.staged = some e) {p : String × String}
    (stands : StandIn source start (Tag.pairWords p)) :
    readAll source (b, t) (place start (Tag.pairWords p)) =
      ({ b with staged := some { e with attributes := e.attributes ++
        [⟨p.1, .ofLength (start + 1) p.1.utf8ByteSize, some p.2⟩] } }, t) := by
  simp only [StandIn, Tag.pairWords, place, List.map_cons, List.map_nil, List.cons.injEq] at stands ⊢
  obtain ⟨-, name, -, value, -⟩ := stands
  have blank : (Range.ofLength start (byteLength [' '])).stop = start + 1 := rfl
  rw [blank] at name value ⊢
  rw [readAll_cons, feed_quiet (.inr (.inl rfl)), readAll_cons, feed_attributeName rfl staged,
    slice_of_lexemeOf name, String.ofList_toList, readAll_cons, feed_quiet (.inl rfl), readAll_cons,
    feed_attributeValue rfl, slice_of_lexemeOf value, readValue_written e.attributes p.1 p.2 _ _ rfl rfl,
    utf8ByteSize_eq]
  rfl

theorem readAll_pairs {e : StagedElement} (staged : b.staged = some e) (pairs : List (String × String))
    (stands : StandIn source start (pairs.flatMap Tag.pairWords)) :
    readAll source (b, t) (place start (pairs.flatMap Tag.pairWords)) =
        ({ b with staged := some { e with attributes := e.attributes ++ stagedPairs start pairs } }, t) ∧
      endedAll source (b, t) (place start (pairs.flatMap Tag.pairWords)) = [] := by
  induction pairs generalizing b e start with
  | nil =>
    obtain ⟨tag, span, attributes⟩ := e
    refine ⟨Prod.ext ?_ rfl, rfl⟩
    rw [stagedPairs, List.append_nil, ← staged]
    rfl
  | cons p pairs ih =>
    rw [List.flatMap_cons] at stands ⊢
    obtain ⟨here, later⟩ := standIn_append.mp stands
    rw [wordChars_pairWords] at later
    obtain ⟨read, handed⟩ := @ih { b with staged := some { e with attributes := e.attributes ++
      [⟨p.1, .ofLength (start + 1) p.1.utf8ByteSize, some p.2⟩] } } _ _ rfl later
    rw [place_append, readAll_append, endedAll_append, readAll_pair staged here, wordChars_pairWords,
      read, handed, stagedPairs, List.append_nil]
    refine ⟨?_, rfl⟩
    rw [List.append_assoc]
    rfl

/-- The end of a start tag hands its element over. -/
theorem hands_end {e : StagedElement} (phase : b.phase = .opening) (staged : b.staged = some e)
    (selfClosing : Bool) : Hands source start (Tag.endWords selfClosing) (b, t) [e] := by
  have last {token : Token} (ends : (lexemeOf source token).endsTag = true) :
      (b.feed t ⟨.textToTree⟩ source token).1.AtRest := by
    obtain ⟨phase', hphase, ended⟩ := endTag_named (t := t) (b := b) (by rw [phase]; simp) staged
      token.span (token.kind == .selfCloseEndTag)
    rw [feed_ends ends, ended]
    exact ⟨rfl, staged_finalize _ t e _, hphase⟩
  have handed (kind : TokenKind) (span : Range) (ends : kind = .endTag ∨ kind = .selfCloseEndTag) :
      b.ended ⟨kind, span⟩ = [e] := by
    rcases ends with rfl | rfl <;> simp [ended, phase, staged]
  cases selfClosing with
  | false =>
    intro _
    refine ⟨congrArg (· ++ []) (handed .endTag (Range.ofLength start 1) (.inl rfl)), ?_⟩
    exact @last ⟨.endTag, Range.ofLength start 1⟩ rfl
  | true =>
    intro _
    have quiet (span : Range) : b.feed t ⟨.textToTree⟩ source ⟨.whitespace, span⟩ = (b, t) :=
      feed_quiet (.inr (.inl rfl))
    simp only [Tag.endWords, if_true, place, endedAll, readAll_cons, readAll_nil, quiet]
    refine ⟨?_, last rfl⟩
    rw [handed .selfCloseEndTag _ (.inr rfl)]
    rfl

/-- The builder inside of a start tag. -/
def staging (b : Builder) (start : Nat) (e : StagedElement) : Builder :=
  { b with tagOpen := some (.ofLength start 1), phase := .opening, staged := some e }

/-- The words up to the name of a start tag. -/
def nameWords (tag : String) : List Lexeme := [⟨.startTag, ['<']⟩, ⟨.tagName, tag.toList⟩]

/-- The name of a start tag stages an element. -/
theorem readAll_name (rest : b.AtRest) (tag : String) (stands : StandIn source start (nameWords tag)) :
    readAll source (b, t) (place start (nameWords tag)) =
        (b.staging start ⟨tag, .ofLength (start + 1) tag.utf8ByteSize, []⟩, t) ∧
      endedAll source (b, t) (place start (nameWords tag)) = [] := by
  constructor
  · have name : lexemeOf source ⟨.tagName, Range.ofLength (start + 1) (byteLength tag.toList)⟩ =
        ⟨.tagName, tag.toList⟩ := (List.cons.inj (List.cons.inj stands).2).1
    have fed : b.feed t ⟨.textToTree⟩ source ⟨.startTag, Range.ofLength start 1⟩ = _ := feed_start rfl
    rw [rest.abandon] at fed
    simp only [nameWords, place]
    rw [readAll_cons]
    change readAll source (b.feed t ⟨.textToTree⟩ source ⟨.startTag, Range.ofLength start 1⟩) _ = _
    rw [fed, readAll_cons, readAll_nil, feed_tagName rfl (by simp) rfl]
    refine Prod.ext ?_ rfl
    change b.staging start ⟨Text.slice source (Range.ofLength (start + 1) (byteLength tag.toList)), _, _⟩ = _
    rw [slice_of_lexemeOf name, String.ofList_toList, utf8ByteSize_eq]
    rfl
  · have nothing : b.ended ⟨.startTag, Range.ofLength start (byteLength ['<'])⟩ = [] := by
      simp [ended, rest.staged]
    rw [nameWords, place, endedAll, nothing]
    rfl

/-- The words of a start tag hand over its element. -/
theorem hands_opening (rest : b.AtRest) (tag : String) (pairs : List (String × String))
    (selfClosing : Bool) : Hands source start (Tag.opening tag pairs selfClosing).words (b, t)
      ((Tag.opening tag pairs selfClosing).staged start) := by
  have split : (Tag.opening tag pairs selfClosing).words =
      (nameWords tag ++ pairs.flatMap Tag.pairWords) ++ Tag.endWords selfClosing := by
    simp [Tag.words, nameWords]
  have width : start + byteLength (wordChars (nameWords tag)) = start + 1 + tag.utf8ByteSize := by
    have chars : wordChars (nameWords tag) = ['<'] ++ tag.toList := by simp [wordChars, nameWords]
    rw [chars, byteLength_append, utf8ByteSize_eq, Nat.add_assoc]
    rfl
  intro stands
  rw [split] at stands ⊢
  obtain ⟨front, last⟩ := standIn_append.mp stands
  obtain ⟨first, attributes⟩ := standIn_append.mp front
  rw [width] at attributes
  obtain ⟨named, none⟩ := readAll_name (t := t) rest tag first
  obtain ⟨read, handed⟩ := readAll_pairs
    (b := b.staging start ⟨tag, .ofLength (start + 1) tag.utf8ByteSize, []⟩) (t := t) rfl pairs attributes
  have readFront : readAll source (b, t) (place start (nameWords tag ++ pairs.flatMap Tag.pairWords)) =
      (b.staging start ⟨tag, .ofLength (start + 1) tag.utf8ByteSize,
        stagedPairs (start + 1 + tag.utf8ByteSize) pairs⟩, t) := by
    rw [place_append, readAll_append, named, width, read]
    rfl
  have handedFront : endedAll source (b, t)
      (place start (nameWords tag ++ pairs.flatMap Tag.pairWords)) = [] := by
    rw [place_append, endedAll_append, named, none, width, handed]
    rfl
  rw [place_append, endedAll_append, readAll_append, readFront, handedFront]
  exact hands_end rfl rfl selfClosing last

/-- An end tag hands nothing over. -/
theorem hands_closing (rest : b.AtRest) (tag : String) :
    Hands source start (Tag.closing tag).words (b, t) ((Tag.closing tag).staged start) := by
  intro _
  have fed : b.feed t ⟨.textToTree⟩ source ⟨.startCloseTag, Range.ofLength start 2⟩ = _ :=
    feed_startClose rfl
  rw [rest.abandon] at fed
  have nothing : b.ended ⟨.startCloseTag, Range.ofLength start 2⟩ = [] := by
    simp [ended, rest.staged]
  have named {span : Range} : feed { b with
      tagOpen := some (Range.ofLength start 2), phase := .closing } t ⟨.textToTree⟩ source
        ⟨.tagName, span⟩ = ({ b with tagOpen := some (Range.ofLength start 2), phase := .closing }, t) :=
    feed_tagName_closing rfl rfl
  have split : place start (Tag.closing tag).words = [⟨.startCloseTag, Range.ofLength start 2⟩,
    ⟨.tagName, Range.ofLength (start + 2) (byteLength tag.toList)⟩,
    ⟨.endTag, Range.ofLength (start + 2 + byteLength tag.toList) 1⟩] := rfl
  rw [split, endedAll, nothing, fed, endedAll, named, readAll_cons, fed, readAll_cons, named]
  refine ⟨rfl, ?_⟩
  obtain ⟨phase, hphase, ended⟩ := endTag_closing (t := t)
    (b := { b with tagOpen := some (Range.ofLength start 2), phase := .closing }) rfl
      (Range.ofLength (start + 2 + byteLength tag.toList) 1) false
  rw [readAll_cons, readAll_nil, feed_ends rfl]
  change (endTag _ t _ false).1.AtRest
  rw [ended]
  exact ⟨rfl, (staged_close _ _).trans rest.staged, hphase⟩

/-- The words of a written tag hand over the element that it stages. -/
theorem hands_words (rest : b.AtRest) (tag : Tag) :
    Hands source start tag.words (b, t) (tag.staged start) := by
  cases tag with
  | opening tag pairs selfClosing => exact hands_opening rest tag pairs selfClosing
  | closing tag => exact hands_closing rest tag

/-- The words of chunks behind a text hand over what the chunks stage. -/
theorem hands_chunks (rest : b.AtRest) (run : List Char) (chunks : List Chunk) :
    Hands source start (wordsAfter run chunks) (b, t) (stagedChunks (start + byteLength run) chunks) := by
  induction chunks generalizing b t start run with
  | nil => exact hands_run rest run
  | cons chunk chunks ih =>
    have tail {s : Builder × Tree} {at' : Nat} (rest : s.1.AtRest)
        (width : at' + byteLength chunk.tag.chars + byteLength chunk.content =
          start + byteLength run + byteLength chunk.chars) :
        Hands source at' (chunk.tag.words ++ wordsAfter chunk.content chunks) s
          (chunk.tag.staged at' ++
            stagedChunks (start + byteLength run + byteLength chunk.chars) chunks) := by
      refine (hands_words rest chunk.tag).append fun s' rest' => ?_
      rw [← width, wordChars_words]
      exact ih rest' chunk.content
    have before := @hands_run source b t start rest (run ++ chunk.indent)
    have all := before.append fun s' rest' => tail rest' (by
      rw [wordChars_runWords, Chunk.chars]
      simp only [byteLength_append]
      omega)
    rw [wordChars_runWords, byteLength_append, ← Nat.add_assoc] at all
    exact all

end Builder

end QueryMarkup
