import QueryMarkup.Proofs.Document.Formatting
import QueryMarkup.Proofs.Sync.Pending

/-!
# What lasts in the tree of a session

A session edits its tree, reads texts into it, takes down where names stand and empties its
journal. What all of these keep holds of the tree after every run.
-/
namespace QueryMarkup

/-- Records where everything that was written stands keeps what does not look at places. -/
theorem Session.anchor_keeps {β : Type} {view : Node → β}
    (spans : ∀ n span, view { n with span } = view n)
    (attributes : ∀ n (f : Attribute → Attribute), (∀ a, (f a).unplaced = a.unplaced) →
      view { n with attributes := n.attributes.map f } = view n) (t : Tree)
    (rendered : Document.Rendered) : Tree.Keeps view t (anchor t rendered) := by
  have placed := @Tree.keeps_foldl _ view _
    (fun t (e : NodeId × Text.Range) => t.setSpan e.1 (some e.2))
    (fun t e => Tree.keeps_alter t e.1 _ fun n => spans n _) t rendered.spans
  have cleared (t : Tree) : Tree.Keeps view t t.clearAttributeSpans := by
    refine ⟨?_, rfl, rfl⟩
    rw [Tree.clearAttributeSpans, List.map_map]
    exact List.map_congr_left fun n _ => attributes n _ fun a => rfl
  have one (name : String) (span : Text.Range) (n : Node) :
      view (n.alterAttribute name fun a => { a with span := some span }) = view n := by
    refine attributes n _ fun a => ?_
    by_cases named : a.name = name
    · rw [if_pos named]
      rfl
    · rw [if_neg named]
  have anchored := fun t => @Tree.keeps_foldl _ view _
    (fun t (e : NodeId × String × Text.Range) => t.setAttributeSpan e.1 e.2.1 (some e.2.2))
    (fun t e => Tree.keeps_alter t e.1 _ fun n => one e.2.1 e.2.2 n) t rendered.attributeSpans
  exact (placed.trans (cleared _)).trans (anchored _)

namespace Tree

/-- A property that everything a session does to its tree keeps. -/
structure Lasting (P : Tree → Prop) : Prop extends Invariant P where
  anchor : ∀ (t : Tree) rendered, P t → P (Session.anchor t rendered)
  observe : ∀ {t t' : Tree} {id}, t.observe id = .ok t' → P t → P t'
  quiet : ∀ t : Tree, P t → P t.quiet

namespace Lasting

variable {P : Tree → Prop} (lasting : Lasting P) {s : Session}

include lasting

theorem readText (h : P s.tree) : P (s.readText ⟨.textToTree⟩).tree := by
  have cleared := lasting.edit _ .clear h
  have read := lasting.quiet _
    (lasting.readTokens (Markup.lex s.editor.text) s.editor.text s.settings cleared)
  have parsed : P s.parsed.tree := read
  rw [Session.tree_readText, Document.orDefault]
  apply lasting.quiet
  split
  · exact lasting.edit _ .reset parsed
  · exact parsed

theorem reparse (h : P s.tree) : P s.reparse.tree := by
  cases idle : s.coordinator.isIdle with
  | false =>
    rw [s.reparse_busy idle]
    exact h
  | true =>
    rw [s.reparse_idle idle]
    exact lasting.readText (s := { s with changedAt := none }) h

theorem afterWrite (rendered : Document.Rendered) (h : P s.tree) : P (s.afterWrite rendered).tree :=
  lasting.quiet _ (lasting.anchor _ rendered h)

theorem renderNow (h : P s.tree) : P s.renderNow.1.tree := by
  rcases Session.renderNow_cases s with ⟨shown, tree, -, -, -, -, made⟩ | ⟨-, made⟩
  · rw [made]
    exact lasting.afterWrite _ (tree ▸ h)
  · rw [made]
    exact h

theorem act (a : Act) (h : P s.tree) : P (s.act a).tree := by
  cases s.act_outcome a with
  | edit _ _ made => exact made ▸ lasting.quiet _ (lasting.edit s.tree _ h)
  | observe _ _ observed made => exact made ▸ lasting.observe observed h
  | read _ _ made => exact made ▸ lasting.reparse h
  | write _ _ made => exact made ▸ lasting.renderNow h
  | same _ made | type _ _ _ made | direct _ _ _ made | advance _ _ _ made | publish _ _ made =>
    rw [made]
    exact h

/-- What everything in a session keeps holds after every run. -/
theorem run (acts : List Act) (h : P s.tree) : P (s.run acts).tree := by
  induction acts generalizing s with
  | nil => exact h
  | cons a acts ih => exact ih (lasting.act a h)

end Lasting

/-- Trees stay sound, and their results current. -/
theorem current_lasting : Lasting fun t => t.Sound ∧ t.Current where
  toInvariant := current_invariant
  anchor t rendered h := by
    refine ⟨h.1.of_keeps ?_, h.2.of_keeps ?_⟩
    · exact Session.anchor_keeps (fun _ _ => rfl) (fun _ _ _ => rfl) t rendered
    · refine Session.anchor_keeps (fun _ _ => rfl) (fun n f same => ?_) t rendered
      simp only [Node.core, List.map_map, Node.mk.injEq, true_and, and_true]
      exact List.map_congr_left fun a _ => same a
  observe e h := by
    exact ⟨h.1.of_keeps (observe_keeps (fun _ _ => rfl) e), h.2.of_keeps (observe_keeps (fun _ _ => rfl) e)⟩
  quiet t h := ⟨⟨h.1.arranged, h.1.shown, h.1.selection⟩, h.2.quiet⟩

end Tree

end QueryMarkup
