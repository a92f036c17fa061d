import QueryMarkup.Proofs.Document.Recovery
import QueryMarkup.Proofs.Tree.Anchored

/-!
# Reading records the right places

A token lies in the text, and so does all that a reader takes from tokens: the tags and names
that it stages, the elements that it leaves open, and what it reports. So the tree that is read
records of every tag and every name a place where the text says just that.
-/
namespace QueryMarkup

open Markup

/-- Tag and names stand in the text where their tokens are. -/
structure StagedElement.Anchored (source : String) (e : StagedElement) : Prop where
  tag : e.span.Names source e.tag
  attributes : ∀ a ∈ e.attributes, a.span.Names source a.name

namespace StagedElement.Anchored

variable {source : String} {e : StagedElement} {a : StagedAttribute}

/-- One more attribute, whose name stands where it is said to. -/
theorem extend (h : e.Anchored source) (names : a.span.Names source a.name) :
    StagedElement.Anchored source { e with attributes := e.attributes ++ [a] } :=
  ⟨h.tag, List.forall_mem_append.mpr ⟨h.attributes, List.forall_mem_singleton.mpr names⟩⟩

/-- A value for the last attribute. -/
theorem takeValue (h : e.Anchored source) (last : e.attributes.getLast? = some a) (value : Option String) :
    StagedElement.Anchored source
      { e with attributes := e.attributes.dropLast ++ [{ a with value }] } := by
  refine ⟨h.tag, List.forall_mem_append.mpr ⟨?_, List.forall_mem_singleton.mpr ?_⟩⟩
  · exact fun b hb => h.attributes b (List.dropLast_subset _ hb)
  · exact h.attributes a (List.mem_of_getLast? last)

end StagedElement.Anchored

namespace Tree

variable {source : String} {t t' : Tree}

/-- The tag of a new node is the one that was asked for. -/
theorem tag_addParsed {kind : Kind} {tag : String} {parent : Option NodeId} {id : NodeId}
    (sound : t.Sound) (e : t.addParsed kind tag parent = .ok (t', id)) :
    ∀ n ∈ t'.nodes, n.id = id → n.tag = tag := by
  intro n hn named
  obtain ⟨-, -, rfl⟩ | ⟨-, above, -, inserted⟩ := addParsed_eq_ok e
  · have planted : Keeps (fun n => n.tag) { t with nodes := [t.fresh kind tag none], issued := t.issued + 1 }
        (t.plantRoot kind tag) := wire_keeps_of (fun _ => rfl) (fun _ _ _ => rfl) _ _
    have listed := List.mem_map_of_mem (f := fun n : Node => n.tag) hn
    rw [touch, planted.nodes] at listed
    exact List.mem_singleton.mp listed
  · obtain ⟨-, -, -, -, issued, -⟩ := insert_eq_ok inserted
    obtain ⟨above, -, all⟩ := @mem_map_insert t _ (fun n => (n.id, n.tag)) _ _ _ _ _
      (fun _ => rfl) (fun _ _ _ => rfl) (fun _ _ _ _ _ => rfl) inserted
    rcases (all (n.id, n.tag)).mp (List.mem_map_of_mem hn) with new | old
    · exact congrArg Prod.snd new
    · obtain ⟨m, hm, same⟩ := List.mem_map.mp old
      have taken : m.id = ⟨t.issued⟩ := (congrArg Prod.fst same).trans (named.trans issued)
      exact absurd (taken ▸ List.mem_map_of_mem hm) sound.issued_not_mem

theorem Anchored.addParsed {kind : Kind} {tag : String} {parent : Option NodeId} {id : NodeId}
    (h : t.Anchored source) (e : t.addParsed kind tag parent = .ok (t', id)) : t'.Anchored source :=
  (addParsed_changes e).keep Change.anchored h

theorem Anchored.insertParsed {id : NodeId} {name value : String} {issues : List StructuralIssue}
    (h : t.Anchored source) (e : t.insertParsed id name value = .ok (t', issues)) :
    t'.Anchored source :=
  (insertParsed_changes e).keep Change.anchored h

theorem Anchored.setSpan (h : t.Anchored source) {id : NodeId} {span : Text.Range}
    (names : ∀ n ∈ t.nodes, n.id = id → span.Names source n.tag) :
    (t.setSpan id (some span)).Anchored source := by
  intro m hm
  obtain ⟨n, hn, ⟨named, rfl⟩ | ⟨-, rfl⟩⟩ := mem_alter hm
  · constructor
    · rintro _ ⟨⟩
      exact names n hn named
    · exact (h n hn).attributes
  · exact h m hn

theorem Anchored.setAttributeSpan (h : t.Anchored source) {name : String} {span : Text.Range}
    (names : span.Names source name) (id : NodeId) :
    (t.setAttributeSpan id name (some span)).Anchored source := by
  refine h.alter id fun n hn => ⟨hn.tag, fun b hb => ?_⟩
  obtain ⟨a, ha, rfl⟩ := List.mem_map.mp hb
  by_cases named : a.name = name
  · rw [if_pos named]
    rintro _ ⟨⟩
    exact named ▸ names
  · rw [if_neg named]
    exact hn.attributes a ha

end Tree

namespace Builder

/-- All that is read so far stands in the text where it is said to stand. -/
structure Anchoring (source : String) (s : Builder × Tree) : Prop where
  sound : s.2.Sound
  tree : s.2.Anchored source
  tagOpen : ∀ r ∈ s.1.tagOpen, r.Within source
  staged : ∀ e ∈ s.1.staged, e.Anchored source
  stack : ∀ o ∈ s.1.stack, o.span.Within source
  diagnostics : ∀ d ∈ s.1.diagnostics, d.range.Within source

namespace Anchoring

variable {source : String} {b : Builder} {t t' : Tree}

theorem report (h : Anchoring source (b, t)) (kind : DiagnosticKind) {span : Text.Range}
    (within : span.Within source) (detail : Option String) :
    Anchoring source (b.report kind span detail, t) := by
  refine ⟨h.sound, h.tree, h.tagOpen, h.staged, h.stack, ?_⟩
  exact List.forall_mem_append.mpr ⟨h.diagnostics, List.forall_mem_singleton.mpr within⟩

theorem reports {α : Type} {step : Builder → α → Builder} {xs : List α}
    (each : ∀ b, ∀ x ∈ xs, Anchoring source (b, t) → Anchoring source (step b x, t))
    (h : Anchoring source (b, t)) : Anchoring source (xs.foldl step b, t) :=
  List.foldlRecOn (motive := fun b => Anchoring source (b, t)) xs step h
    fun b kept x mem => each b x mem kept

theorem push (h : Anchoring source (b, t)) {o : OpenElement} (within : o.span.Within source)
    (selfClosing : Bool) : Anchoring source (b.push o selfClosing, t) := by
  cases selfClosing with
  | true => exact h
  | false =>
    refine ⟨h.sound, h.tree, h.tagOpen, h.staged, ?_, h.diagnostics⟩
    exact List.forall_mem_cons.mpr ⟨within, h.stack⟩

/-- The tree alone is replaced. -/
theorem adopt (h : Anchoring source (b, t)) (sound : t'.Sound) (tree : t'.Anchored source) :
    Anchoring source (b, t') :=
  ⟨sound, tree, h.tagOpen, h.staged, h.stack, h.diagnostics⟩

/-! ## Start tags -/

theorem readAttribute {s : Builder × Tree × List String} (h : Anchoring source (s.1, s.2.1))
    (id : NodeId) {a : StagedAttribute} (names : a.span.Names source a.name) :
    Anchoring source ((Builder.readAttribute id s a).1, (Builder.readAttribute id s a).2.1) := by
  obtain ⟨b, t, seen⟩ := s
  have first : Anchoring source (b.named seen a, t) := by
    unfold Builder.named
    split
    · exact h.report _ names.within _
    · exact h
  cases readAttribute_outcome id b t seen a with
  | missing _ read => exact read ▸ first.report _ names.within _
  | lost _ _ read => exact read ▸ first
  | stored _ inserted read =>
    have sound := Tree.sound_invariant.insertParsed first.sound inserted
    have stored := first.adopt (Tree.sound_invariant.setAttributeSpan _ id a.name _ sound)
      ((first.tree.insertParsed inserted).setAttributeSpan names id)
    exact read ▸ stored.reports fun b i _ hb => hb.report _ names.within _

theorem readAttributes {s : Builder × Tree × List String} (h : Anchoring source (s.1, s.2.1))
    (id : NodeId) {attributes : List StagedAttribute}
    (names : ∀ a ∈ attributes, a.span.Names source a.name) :
    Anchoring source ((attributes.foldl (Builder.readAttribute id) s).1,
      (attributes.foldl (Builder.readAttribute id) s).2.1) := by
  induction attributes generalizing s with
  | nil => exact h
  | cons a attributes ih =>
    obtain ⟨here, later⟩ := List.forall_mem_cons.mp names
    exact ih (h.readAttribute id here) later

/-- A new node stands where the tag of its start tag does. -/
theorem finalize (h : Anchoring source (b, t)) {e : StagedElement} (anchored : e.Anchored source)
    (selfClosing : Bool) : Anchoring source (b.finalize t e selfClosing) := by
  have within := anchored.tag.within
  have placed : Anchoring source (b.placing t e, t) := h.reports fun b i _ hb => hb.report _ within _
  cases b.finalize_outcome t e selfClosing with
  | skipped _ made => exact made ▸ h.push within selfClosing
  | refused _ made => exact made ▸ (h.report _ within _).push within selfClosing
  | lost _ _ made => exact made ▸ placed.push within selfClosing
  | @added t1 id _ added made =>
    have sound := Tree.sound_invariant.setSpan _ id (some e.span)
      (Tree.sound_invariant.addParsed h.sound added)
    have tree := (h.tree.addParsed added).setSpan fun n hn named => by
      rw [Tree.tag_addParsed h.sound added n hn named]
      exact anchored.tag
    have told := placed.adopt sound tree
    have rooted : Anchoring source ({ b.placing t e with sawRoot := true }, t1.setSpan id (some e.span)) :=
      ⟨told.sound, told.tree, told.tagOpen, told.staged, told.stack, told.diagnostics⟩
    have filled := @readAttributes source ({ b.placing t e with sawRoot := true },
      t1.setSpan id (some e.span), []) rooted id e.attributes anchored.attributes
    exact made ▸ filled.push within selfClosing

theorem abandon (h : Anchoring source (b, t)) : Anchoring source (b.abandon t) := by
  have closed : Anchoring source ({ b with tagOpen := none, staged := none }, t) :=
    ⟨h.sound, h.tree, by simp, by simp, h.stack, h.diagnostics⟩
  cases b.abandon_outcome t with
  | element staged broken =>
    have anchored := h.staged _ staged
    exact broken ▸ (closed.report _ anchored.tag.within _).finalize anchored true
  | nothing _ _ broken => exact broken ▸ closed
  | nameless _ opened _ broken => exact broken ▸ closed.report _ (h.tagOpen _ opened) _

/-! ## The other tokens -/

/-- A close tag without an element is reported from its `</` to its `>`. -/
theorem close (h : Anchoring source (b, t)) {stop : Text.Range} (within : stop.Within source) :
    Anchoring source (b.close stop, t) := by
  cases stack : b.stack with
  | nil =>
    refine close_nil stack stop ▸ h.report _ ?_ _
    cases opened : b.tagOpen with
    | none => exact within
    | some opening => exact (h.tagOpen opening opened).cover within
  | cons o outer =>
    have places := h.stack
    rw [stack] at places
    exact close_cons stack stop ▸ ⟨h.sound, h.tree, h.tagOpen, h.staged,
      (List.forall_mem_cons.mp places).2, h.diagnostics⟩

theorem past {s : Builder × Tree} (h : Anchoring source s) (selfClosing : Bool) :
    Anchoring source (s.1.past selfClosing, s.2) :=
  ⟨h.sound, h.tree, by simp [Builder.past], h.staged, h.stack, h.diagnostics⟩

theorem endTag (h : Anchoring source (b, t)) {span : Text.Range} (within : span.Within source)
    (selfClosing : Bool) : Anchoring source (b.endTag t span selfClosing) := by
  cases b.endTag_outcome t span selfClosing with
  | close _ ended => exact ended ▸ (h.close within).past selfClosing
  | element _ staged ended =>
    have unstaged : Anchoring source ({ b with staged := none }, t) :=
      ⟨h.sound, h.tree, h.tagOpen, by simp, h.stack, h.diagnostics⟩
    exact ended ▸ (unstaged.finalize (h.staged _ staged) selfClosing).past selfClosing
  | nameless _ _ opened ended =>
    exact ended ▸ (h.report _ ((h.tagOpen _ opened).cover within) _).past selfClosing
  | nothing _ _ _ ended => exact ended ▸ h.past selfClosing

/-- Only the start tag that is read changes. -/
theorem stage (h : Anchoring source (b, t)) {e : StagedElement} (anchored : e.Anchored source) :
    Anchoring source ({ b with staged := some e }, t) := by
  refine ⟨h.sound, h.tree, h.tagOpen, ?_, h.stack, h.diagnostics⟩
  rintro _ ⟨⟩
  exact anchored

theorem readValue (h : Anchoring source (b, t)) {span : Text.Range} (within : span.Within source)
    (raw : String) : Anchoring source (b.readValue span raw, t) := by
  cases b.readValue_outcome span raw with
  | unstaged _ read => exact read.symm ▸ h
  | taken staged last read => exact read ▸ h.stage ((h.staged _ staged).takeValue last _)
  | stray _ read => exact read ▸ h.report _ within _

/-- A text that may not stand where it does is reported without the blanks around it. -/
theorem readText (h : Anchoring source (b, t)) {span : Text.Range} (within : span.Within source) :
    Anchoring source (b.readText t span (Text.slice source span).toList) := by
  cases b.readText_outcome t span (Text.slice source span).toList with
  | ignored read => exact read ▸ h
  | unexpected read => exact read ▸ h.report _ within.trimmed _
  | stored _ _ inserted read =>
    exact read ▸ h.adopt (Tree.sound_invariant.insertParsed h.sound inserted) (h.tree.insertParsed inserted)

theorem feed (h : Anchoring source (b, t)) {token : Token} (within : token.span.Within source) :
    Anchoring source (b.feed t ⟨.textToTree⟩ source token) := by
  have named := within.names
  cases b.feed_outcome t source token with
  | starts _ fed =>
    have broken := h.abandon
    refine fed ▸ ⟨broken.sound, broken.tree, ?_, broken.staged, broken.stack, broken.diagnostics⟩
    rintro _ ⟨⟩
    exact within
  | tagName _ _ _ fed => exact fed ▸ h.stage ⟨named, by simp⟩
  | attributeName _ staged fed => exact fed ▸ h.stage ((h.staged _ staged).extend named)
  | attributeValue fed => exact fed ▸ h.readValue within _
  | ends _ fed => exact fed ▸ h.endTag within _
  | text fed => exact fed ▸ h.readText within
  | error _ fed => exact fed ▸ h.report _ within _
  | passed fed => exact fed ▸ h

theorem readAll {s : Builder × Tree} (h : Anchoring source s) {tokens : List Token}
    (within : ∀ token ∈ tokens, token.span.Within source) :
    Anchoring source (Builder.readAll source s tokens) :=
  List.foldlRecOn tokens _ h fun _ kept token mem => kept.feed (within token mem)

/-- The elements that were never closed are reported where they were opened. -/
theorem finish (h : Anchoring source (b, t)) :
    (b.finish t ⟨.textToTree⟩).2.2.Anchored source ∧
      ∀ d ∈ (b.finish t ⟨.textToTree⟩).1, d.range.Within source := by
  have abandoned := h.abandon
  have emptied : Anchoring source ({ (b.abandon t).1 with stack := [] }, (b.abandon t).2) :=
    ⟨abandoned.sound, abandoned.tree, abandoned.tagOpen, abandoned.staged, by simp,
      abandoned.diagnostics⟩
  have reported := @reports source _ _ _ (fun b (o : OpenElement) => b.report .unclosedTag o.span o.tag)
    (b.abandon t).1.stack.reverse (fun b o ho hb =>
      hb.report .unclosedTag (abandoned.stack o (List.mem_reverse.mp ho)) o.tag) emptied
  rw [finish_tree, finish_fst]
  exact ⟨reported.tree, reported.diagnostics⟩

end Anchoring

end Builder

namespace Document

/-- What is read from a text records right places of it, and reports about it point into it. -/
theorem anchored_readTokens (t : Tree) (source : String) (settings : Settings) :
    (readTokens t (lex source) source settings).1.Anchored source ∧
      ∀ d ∈ (readTokens t (lex source) source settings).2, d.range.Within source := by
  have start : Builder.Anchoring source ({ limit := settings.nestingLimit }, t.clear) := by
    refine ⟨Tree.clear_sound t, ?_, by simp, by simp, by simp, by simp⟩
    intro n hn
    rw [Tree.nodes_clear] at hn
    cases hn
  exact (start.readAll fun token => within_of_mem_lex).finish

end Document

end QueryMarkup
