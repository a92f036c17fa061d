import QueryMarkup.Proofs.Document.Faithful
import QueryMarkup.Proofs.Document.Recomputed
import QueryMarkup.Proofs.Document.Rereading

/-!
# Reading what was written

A tree is writable when its elements are as markup can say them. Its markup is read as the same
elements on the same levels, whose texts have lost the blanks at their ends, and there is
nothing else to be said about it than what is wrong with those elements.
-/
namespace QueryMarkup

open Markup

/-- The markup of the tree can be read again. -/
structure Tree.Writable (t : Tree) : Prop where
  sound : t.Sound
  current : t.Current
  legible : ∀ x ∈ t.sketches, x.Legible
  nonempty : t.nodes ≠ []

namespace Document

section
variable {t t' : Tree}

/-- What the text of a tree is made of. -/
theorem toList_render_of_writable (h : t.Writable) (width : Nat) :
    (render t width).text.toList = (chunks width t.sketches).flatMap Chunk.chars := by
  refine toList_render ⟨fun n hn => ?_, fun before n after split => ?_⟩ h.sound.treelike.root width
  · exact writes_of_legible (h.current.fitted n hn) (h.current.fresh n hn)
      (h.legible n.sketch (List.mem_map_of_mem hn))
  · exact h.sound.expandable_eq split

/-- Trees of the same elements have the same markup. -/
theorem render_eq (h : t.Writable) (h' : t'.Writable) (same : t.sketches = t'.sketches)
    (width : Nat) : (render t width).text = (render t' width).text := by
  apply String.toList_injective
  rw [toList_render_of_writable h, toList_render_of_writable h', same]

/-- Reading the chunks of legible sketches draws them again, but for blanks around texts. -/
theorem readAll_chunks {xs : List Sketch} (tree : Sketch.Treelike xs) (legible : ∀ x ∈ xs, x.Legible)
    {width limit : Nat} (fits : ∀ x ∈ xs, x.level < limit) {source : String}
    (written : source.toList = (chunks width xs).flatMap Chunk.chars) (into : Tree) :
    Idle limit (xs.map Sketch.trimmed) []
      (Builder.readAll source ({ limit }, into.clear) (lex source)) := by
  have words : (lex source).map (lexemeOf source) = wordsAfter [] (chunks width xs) := by
    rw [← lexemes_chunks (lexes_chunks width legible), ← written]
    exact words_eq _
  have start : Idle limit [] [] ({ limit }, into.clear) :=
    ⟨⟨rfl, rfl, by simp⟩, drawn_start limit into.nodes_clear (Tree.issued_setSelection _ _)⟩
  exact start.chunks width tree legible fits _ words

/-- Reading what was written draws the tree again, but for blanks around texts. -/
theorem readAll_render (h : t.Writable) (width limit : Nat) (fits : ∀ x ∈ t.sketches, x.level < limit)
    (into : Tree) : Idle limit (t.sketches.map Sketch.trimmed) []
      (Builder.readAll (render t width).text ({ limit }, into.clear) (lex (render t width).text)) :=
  readAll_chunks h.sound.treelike h.legible fits (toList_render_of_writable h width) into

theorem readTokens_eq (t : Tree) (source : String) (settings : Settings) :
    readTokens t (lex source) source settings =
      let s := Builder.readAll source ({ limit := settings.nestingLimit }, t.clear) (lex source)
      ((s.1.finish s.2 ⟨.textToTree⟩).2.2, (s.1.finish s.2 ⟨.textToTree⟩).1) := rfl

/-- The chunks of legible sketches are read as these, but for blanks around texts. All that is
reported is about the tag, the place or a name of one of them. -/
theorem readTokens_chunks {xs : List Sketch} (tree : Sketch.Treelike xs) (legible : ∀ x ∈ xs, x.Legible)
    {width : Nat} {settings : Settings} (fits : ∀ x ∈ xs, x.level < settings.nestingLimit)
    {source : String} (written : source.toList = (chunks width xs).flatMap Chunk.chars) (into : Tree) :
    let read := readTokens into (lex source) source settings
    read.1.sketches = xs.map Sketch.trimmed ∧
      ∀ d ∈ read.2, Sketch.Faulty (xs.map Sketch.bare) d.kind := by
  intro read
  obtain ⟨rest, drawn⟩ := readAll_chunks tree legible fits written into
  have parsed : read = _ := readTokens_eq into source settings
  generalize Builder.readAll source ({ limit := settings.nestingLimit }, into.clear)
    (lex source) = s at rest drawn parsed
  obtain ⟨b, t'⟩ := s
  have closed : b.stack = [] := List.map_eq_nil_iff.mp drawn.opened
  have finished : read = (t', b.diagnostics) := by
    rw [parsed]
    dsimp only at rest ⊢
    rw [Builder.finish_tree, Builder.finish_fst, rest.abandon, closed]
    rfl
  have faults := drawn.faults
  rw [Sketch.map_bare_trimmed] at faults
  rw [finished]
  exact ⟨drawn.sketches, faults⟩

/-- What was written of a tree is read as the same elements, but for blanks around texts. All that
is reported is about the tag, the place or a name of one of them. -/
theorem readTokens_render (h : t.Writable) (width : Nat) (settings : Settings)
    (fits : ∀ x ∈ t.sketches, x.level < settings.nestingLimit) (into : Tree) :
    let read := readTokens into (lex (render t width).text) (render t width).text settings
    read.1.sketches = t.sketches.map Sketch.trimmed ∧
      ∀ d ∈ read.2, Sketch.Faulty (t.sketches.map Sketch.bare) d.kind :=
  readTokens_chunks h.sound.treelike h.legible fits (toList_render_of_writable h width) into

/-- Since there are elements, they are the whole document. -/
theorem parse_again (h : t.Writable) (width : Nat) (settings : Settings)
    (fits : ∀ x ∈ t.sketches, x.level < settings.nestingLimit) (into : Tree) :
    let read := parse into (render t width).text settings
    read.1.Writable ∧ read.1.sketches = t.sketches.map Sketch.trimmed ∧
      ∀ d ∈ read.2, Sketch.Faulty (t.sketches.map Sketch.bare) d.kind := by
  intro read
  obtain ⟨sketches, faults⟩ := readTokens_render h width settings fits into
  have again := Tree.current_invariant.readTokens (lex (render t width).text) (render t width).text
    settings (t := into) ⟨Tree.clear_sound into, Tree.clear_current into⟩
  have nonempty : (readTokens into (lex (render t width).text) (render t width).text
      settings).1.nodes ≠ [] := by
    intro none
    rw [Tree.sketches, none, Tree.sketches, eq_comm, List.map_nil, List.map_eq_nil_iff,
      List.map_eq_nil_iff] at sketches
    exact h.nonempty sketches
  have parsed : read = _ := parse_of_nodes nonempty
  rw [parsed]
  refine ⟨⟨again.1, again.2, ?_, nonempty⟩, sketches, faults⟩
  rw [sketches]
  intro y hy
  obtain ⟨x, hx, rfl⟩ := List.mem_map.mp hy
  exact (h.legible x hx).trimmed

end

end Document

end QueryMarkup
