import QueryMarkup.Proofs.Diagnostic.Suppression
import QueryMarkup.Proofs.Document.Anchoring
import QueryMarkup.Proofs.Document.Marks
import QueryMarkup.Proofs.Document.Revision
import QueryMarkup.Proofs.Sync.Lasting

/-!
# Recorded places point at names

Reading and writing record where tags and names stand. Nothing else moves a place, so as long as
nobody types, every place that is recorded names in the editor's text what it is recorded for,
and every finding that is shown points into that text.
-/
namespace QueryMarkup

/-- The user types into the editor. -/
def Act.typesText : Act → Bool
  | .setText _ | .splice _ _ => true
  | _ => false

/-- The tag has a place, and of the attributes those have one that the start tag shows. -/
structure Node.Placed (n : Node) : Prop where
  tag : n.span.isSome = true
  attributes : ∀ a ∈ n.attributes, a.span.isSome = true ↔ a.content = false ∧ n.value a.name ≠ ""

namespace Session

/-! ## Recording what was written -/

/-- The last range among some that are meant for something, or else the one before. -/
def lastPlace {α : Type} (hits : α → Bool) (range : α → Text.Range) (before : Option Text.Range)
    (places : List α) : Option Text.Range :=
  places.foldl (fun found e => if hits e then some (range e) else found) before

theorem lastPlace_cases {α : Type} (hits : α → Bool) (range : α → Text.Range)
    (before : Option Text.Range) (places : List α) :
    (lastPlace hits range before places = before ∧ ∀ e ∈ places, hits e = false) ∨
      ∃ e ∈ places, hits e = true ∧ lastPlace hits range before places = some (range e) := by
  induction places using List.reverseRecOn with
  | nil => exact .inl ⟨rfl, by simp⟩
  | append_singleton places e ih =>
    have last : lastPlace hits range before (places ++ [e]) =
        if hits e then some (range e) else lastPlace hits range before places := by
      rw [lastPlace, List.foldl_append]
      rfl
    rw [last]
    by_cases hit : hits e = true
    · rw [if_pos hit]
      exact .inr ⟨e, by simp, hit, rfl⟩
    · rw [if_neg hit]
      rcases ih with ⟨same, none⟩ | ⟨f, hf, found, same⟩
      · refine .inl ⟨same, List.forall_mem_append.mpr ⟨none, List.forall_mem_singleton.mpr ?_⟩⟩
        simpa using hit
      · exact .inr ⟨f, List.mem_append_left _ hf, found, same⟩

/-- An attribute of a node with the place that a rendering gives. -/
def pinnedAttribute (rendered : Document.Rendered) (id : NodeId) (a : Attribute) : Attribute :=
  { a with
    span := lastPlace (fun e => e.1 == id && e.2.1 == a.name) (·.2.2) none rendered.attributeSpans }

/-- A node with the places that a rendering gives. -/
def pinned (rendered : Document.Rendered) (n : Node) : Node :=
  { n with
    span := lastPlace (fun e => e.1 == n.id) (·.2) n.span rendered.spans
    attributes := n.attributes.map (pinnedAttribute rendered n.id) }

theorem nodes_anchor (t : Tree) (rendered : Document.Rendered) :
    (anchor t rendered).nodes = t.nodes.map (pinned rendered) := by
  have spans (t : Tree) : (rendered.spans.foldl (fun t e => t.setSpan e.1 (some e.2)) t).nodes =
      t.nodes.map fun n => { n with
        span := lastPlace (fun e => e.1 == n.id) (·.2) n.span rendered.spans } := by
    induction rendered.spans generalizing t with
    | nil => exact (List.map_id _).symm
    | cons e rest ih =>
      rw [List.foldl_cons, ih, Tree.setSpan, Tree.nodes_alter, List.map_map]
      refine List.map_congr_left fun n _ => ?_
      by_cases named : n.id = e.1
      · simp [lastPlace, named]
      · simp [lastPlace, named, Ne.symm named]
  have attributeSpans (t : Tree) : (rendered.attributeSpans.foldl
      (fun t e => t.setAttributeSpan e.1 e.2.1 (some e.2.2)) t).nodes =
      t.nodes.map fun n => { n with attributes := n.attributes.map fun a => { a with
        span := lastPlace (fun e => e.1 == n.id && e.2.1 == a.name) (·.2.2) a.span
          rendered.attributeSpans } } := by
    induction rendered.attributeSpans generalizing t with
    | nil => simp [lastPlace]
    | cons e rest ih =>
      rw [List.foldl_cons, ih, Tree.setAttributeSpan, Tree.nodes_alter, List.map_map]
      refine List.map_congr_left fun n _ => ?_
      by_cases named : n.id = e.1
      · simp only [Function.comp_apply, if_pos named, Node.alterAttribute, List.map_map]
        refine congrArg (fun as => { n with attributes := as }) (List.map_congr_left fun a _ => ?_)
        by_cases same : a.name = e.2.1
        · simp [lastPlace, named, same]
        · simp [lastPlace, same, Ne.symm same]
      · simp [lastPlace, named, Ne.symm named]
  rw [anchor, attributeSpans, Tree.clearAttributeSpans, spans, List.map_map, List.map_map]
  refine List.map_congr_left fun n _ => ?_
  simp [pinned, pinnedAttribute]

section
variable {t : Tree} {width : Nat} {n : Node}

theorem span_pinned (displays : Document.Displays t) (ids : t.ids.Nodup) (hn : n ∈ t.nodes) :
    ∃ r, (pinned (Document.render t width) n).span = some r ∧
      r.Names (Document.render t width).text n.tag := by
  obtain ⟨r, placed⟩ := @Document.exists_mem_spans t width n hn
  rcases lastPlace_cases (fun e => e.1 == n.id) (·.2) n.span (Document.render t width).spans with
    ⟨-, none⟩ | ⟨e, he, hit, found⟩
  · have absent := none _ placed
    simp at absent
  · obtain ⟨m, hm, id, named⟩ := Document.names_of_mem_spans displays he
    obtain rfl := List.inj_on_of_nodup_map ids hm hn (id.trans (by simpa using hit))
    exact ⟨e.2, found, named⟩

theorem span_pinnedAttribute (displays : Document.Displays t) (distinct : t.Distinct) (hn : n ∈ t.nodes)
    {a : Attribute} (ha : a ∈ n.attributes) :
    (¬ a.IsWritten ∧ (pinnedAttribute (Document.render t width) n.id a).span = none) ∨
      a.IsWritten ∧ ∃ r, (pinnedAttribute (Document.render t width) n.id a).span = some r ∧
        r.Names (Document.render t width).text a.name := by
  rcases lastPlace_cases (fun e => e.1 == n.id && e.2.1 == a.name) (·.2.2) none
    (Document.render t width).attributeSpans with ⟨nowhere, none⟩ | ⟨e, he, hit, found⟩
  · refine .inl ⟨fun shown => ?_, nowhere⟩
    obtain ⟨r, placed⟩ := @Document.exists_mem_attributeSpans t width n hn a ha shown
    have absent := none _ placed
    simp at absent
  · simp only [Bool.and_eq_true, beq_iff_eq] at hit
    obtain ⟨named, m, hm, id, b, hb, name, shown⟩ := Document.names_of_mem_attributeSpans displays he
    obtain rfl := List.inj_on_of_nodup_map distinct.ids hm hn (id.trans hit.1)
    obtain rfl := List.inj_on_of_nodup_map (distinct.names m hm) hb ha (name.trans hit.2)
    rw [hit.2] at named
    exact .inr ⟨shown, e.2.2, found, named⟩

/-- A rendering gives a place to all that it shows and to nothing else. -/
theorem placed_pinned (displays : Document.Displays t) (distinct : t.Distinct) (hn : n ∈ t.nodes) :
    (pinned (Document.render t width) n).Placed := by
  constructor
  · obtain ⟨r, found, -⟩ := @span_pinned t width n displays distinct.ids hn
    rw [found]
    rfl
  · intro b hb
    obtain ⟨a, ha, rfl⟩ := List.mem_map.mp hb
    have shown : a.IsWritten ↔ a.content = false ∧ n.value a.name ≠ "" := by
      rw [Attribute.IsWritten, displays n hn a ha, Attribute.isEmpty_written]
      simp
    change _ ↔ a.content = false ∧ n.value a.name ≠ ""
    rw [← shown]
    rcases @span_pinnedAttribute t width n displays distinct hn a ha with
      ⟨hidden, nowhere⟩ | ⟨written, r, found, -⟩
    · rw [nowhere]
      exact iff_of_false (by simp) hidden
    · rw [found]
      exact iff_of_true rfl written

/-- The places that a rendering gives are those of the names in its text. -/
theorem anchored_anchor (displays : Document.Displays t) (distinct : t.Distinct) (width : Nat) :
    (anchor t (Document.render t width)).Anchored (Document.render t width).text := by
  intro m hm
  rw [nodes_anchor] at hm
  obtain ⟨n, hn, rfl⟩ := List.mem_map.mp hm
  constructor
  · obtain ⟨r, found, named⟩ := @span_pinned t width n displays distinct.ids hn
    rw [found]
    rintro _ ⟨⟩
    exact named
  · intro b hb
    obtain ⟨a, ha, rfl⟩ := List.mem_map.mp hb
    rcases @span_pinnedAttribute t width n displays distinct hn a ha with
      ⟨-, nowhere⟩ | ⟨-, r, found, named⟩
    · rw [nowhere]
      rintro _ ⟨⟩
    · rw [found]
      rintro _ ⟨⟩
      exact named

end

/-! ## Every act keeps places right -/

/-- What is recorded names what it is recorded for, and all reports point into the text. -/
structure Anchored (s : Session) : Prop where
  tree : s.tree.Anchored s.editor.text
  diagnostics : ∀ d ∈ s.parseDiagnostics, d.range.Within s.editor.text

variable {s : Session}

/-- Only the tree, the text and the reports matter. -/
theorem Anchored.congr {s' : Session} (h : s.Anchored) (nodes : s'.tree.nodes = s.tree.nodes)
    (text : s'.editor.text = s.editor.text) (diagnostics : s'.parseDiagnostics = s.parseDiagnostics) :
    s'.Anchored := by
  constructor
  · intro n hn
    rw [text]
    exact h.tree n (nodes ▸ hn)
  · intro d hd
    rw [text]
    exact h.diagnostics d (diagnostics ▸ hd)

theorem anchored_of_tree (none : s.parseDiagnostics = []) (tree : s.tree.Anchored s.editor.text) :
    s.Anchored := by
  refine ⟨tree, fun d hd => ?_⟩
  rw [none] at hd
  cases hd

/-- All findings that are shown point into the text. -/
theorem Anchored.within (h : s.Anchored) : ∀ d ∈ s.diagnostics, d.range.Within s.editor.text := by
  intro d hd
  rcases List.mem_append.mp (Diagnostics.deduplicated_subset _ _ hd) with reported | found
  · exact h.diagnostics d reported
  · obtain ⟨n, hn, hd⟩ := List.mem_flatMap.mp found
    have anchored := h.tree n hn
    unfold nodeDiagnostics at hd
    cases place : n.span with
    | none =>
      rw [place] at hd
      cases hd
    | some span =>
      rw [place] at hd
      have tag := (anchored.tag span place).within
      rcases List.mem_append.mp hd with own | hd
      · obtain ⟨i, -, rfl⟩ := List.mem_map.mp own
        exact tag
      · obtain ⟨a, ha, hd⟩ := List.mem_flatMap.mp hd
        obtain ⟨i, -, rfl⟩ := List.mem_map.mp hd
        change (a.span.getD span).Within _
        cases named : a.span with
        | none => exact tag
        | some r => exact (anchored.attributes a ha r named).within

/-- Reading leaves nothing of the places before. -/
theorem anchored_read (idle : s.coordinator.isIdle = true) : s.reparse.Anchored := by
  obtain ⟨read, reports⟩ := Document.anchored_readTokens s.tree s.editor.text s.settings
  rw [reparse_idle s idle, publish]
  constructor
  · dsimp only
    rw [(readText_editor _).1, tree_readText]
    have parsed : Tree.Anchored s.editor.text ({ s with changedAt := none } : Session).parsed.tree := read
    change Tree.Anchored s.editor.text (Document.orDefault _)
    unfold Document.orDefault
    split
    · exact parsed.edit .reset
    · exact parsed
  · dsimp only
    rw [(readText_editor _).1, parseDiagnostics_readText]
    exact reports

theorem Anchored.reparse (h : s.Anchored) : s.reparse.Anchored := by
  cases idle : s.coordinator.isIdle with
  | true => exact anchored_read idle
  | false =>
    rw [reparse_busy s idle]
    exact anchored_of_tree rfl h.tree

theorem displays_of_current {t : Tree} (current : t.Current) : Document.Displays t :=
  fun n hn a ha => (current.fresh n hn).display a ha (by simp)

section
variable (sound : s.tree.Sound) (current : s.tree.Current)

include sound current

theorem distinct_of_current : s.tree.Distinct :=
  ⟨sound.nodup, fun n hn => (current.fitted n hn).names⟩

theorem Anchored.renderNow (h : s.Anchored ∨ s.writing ≠ [.refused]) : s.renderNow.1.Anchored := by
  rcases renderNow_cases s with ⟨shown, tree, -, -, -, text, made⟩ | ⟨refused, made⟩
  · rw [made]
    apply anchored_of_tree
    · rfl
    · have anchored := anchored_anchor (displays_of_current current) (distinct_of_current sound current)
        s.settings.indentWidth
      rw [← text, ← tree] at anchored
      exact tree ▸ anchored
  · rw [made]
    rcases h with anchored | written
    · exact anchored.congr rfl rfl rfl
    · exact absurd refused written

/-- A pass that is not refused gives places to all that is written and to nothing else. -/
theorem placed_renderNow (written : s.writing ≠ [.refused]) : ∀ n ∈ s.renderNow.1.tree.nodes, n.Placed := by
  rcases renderNow_cases s with ⟨shown, tree, -, -, -, -, made⟩ | ⟨refused, -⟩
  · intro m hm
    rw [made] at hm
    have recorded : m ∈ (anchor s.tree (Document.render s.tree s.settings.indentWidth)).nodes := tree ▸ hm
    rw [nodes_anchor] at recorded
    obtain ⟨n, hn, rfl⟩ := List.mem_map.mp recorded
    exact placed_pinned (displays_of_current current) (distinct_of_current sound current) hn
  · exact absurd refused written

/-- An act other than typing keeps places right, and one that reads or writes makes them so. -/
theorem Anchored.act {a : Act} (h : s.Anchored ∧ a.typesText = false ∨
    ∃ x ∈ s.happenings a, x = .parsed ∨ x = .written) : (s.act a).Anchored := by
  have kept (still : s.happenings a = []) : s.Anchored ∧ a.typesText = false := by
    apply h.resolve_right
    simp [still]
  have written {b : Bool} (h : s.Anchored ∧ b = false ∨ ∃ x ∈ s.writing, x = .parsed ∨ x = .written) :
      s.Anchored ∨ s.writing ≠ [.refused] := by
    rcases h with ⟨anchored, -⟩ | ⟨x, hx, settles⟩
    · exact .inl anchored
    · right
      intro refused
      rw [refused, List.mem_singleton] at hx
      simp [hx] at settles
  cases s.act_outcome a with
  | same still made =>
    rw [made]
    exact (kept still).1
  | @edit change _ happens made =>
    have anchored : s.Anchored := by
      rcases h with ⟨anchored, -⟩ | ⟨x, hx, settles⟩
      · exact anchored
      · have changed : x = .changed := by
          rw [happens, becoming] at hx
          split at hx
          · exact List.mem_singleton.mp hx
          · cases hx
        simp [changed] at settles
    rw [made]
    exact ⟨anchored.tree.edit change, anchored.diagnostics⟩
  | observe _ still observed made =>
    obtain ⟨anchored, -⟩ := kept still
    rw [made]
    exact ⟨anchored.tree.of_keeps (Tree.observe_keeps (fun _ _ => rfl) observed), anchored.diagnostics⟩
  | type _ asked still _ =>
    have silent := (kept still).2
    obtain ⟨_, rfl⟩ | ⟨_, _, rfl⟩ := asked <;> cases silent
  | direct _ _ still made | advance _ _ still made | publish _ still made =>
    exact made ▸ (kept still).1.congr rfl rfl rfl
  | read _ happens made =>
    rw [made]
    cases idle : s.coordinator.isIdle with
    | true => exact anchored_read idle
    | false =>
      rcases h with ⟨anchored, -⟩ | ⟨x, hx, settles⟩
      · exact anchored.reparse
      · simp [happens, reading, idle] at hx
        simp [hx] at settles
  | write _ happens made =>
    rw [made]
    exact Anchored.renderNow sound current (written (happens ▸ h))

end

/-! ## Runs -/

/-- Whatever was typed, the text was read or written since. -/
def Untyped (s : Session) (acts : List Act) : Prop :=
  ∀ before typed after, acts = before ++ typed :: after → typed.typesText = true →
    ∃ x ∈ (s.run (before ++ [typed])).history after, x = .parsed ∨ x = .written

/-- What is left out at the end of a run may have read or written the text. -/
theorem Untyped.init {acts : List Act} {a : Act} (h : s.Untyped (acts ++ [a]))
    (still : ¬ ∃ x ∈ (s.run acts).happenings a, x = .parsed ∨ x = .written) : s.Untyped acts := by
  rintro before typed after rfl types
  obtain ⟨x, hx, settles⟩ := h before typed (after ++ [a]) (by simp) types
  have whole : s.run (before ++ typed :: after) = (s.run (before ++ [typed])).run after := by
    rw [← run_append]
    simp
  rw [history_append, ← whole] at hx
  rcases List.mem_append.mp hx with earlier | last
  · exact ⟨x, earlier, settles⟩
  · rw [history, history, List.append_nil] at last
    exact absurd ⟨x, last, settles⟩ still

theorem Anchored.run (h : s.Anchored) (base : ∀ acts, (s.run acts).tree.Sound ∧ (s.run acts).tree.Current)
    {acts : List Act} (untyped : s.Untyped acts) : (s.run acts).Anchored := by
  induction acts using List.reverseRecOn with
  | nil => exact h
  | append_singleton acts a ih =>
    rw [run_append]
    obtain ⟨sound, current⟩ := base acts
    apply Anchored.act sound current
    by_cases settles : ∃ x ∈ (s.run acts).happenings a, x = .parsed ∨ x = .written
    · exact .inr settles
    · left
      constructor
      · exact ih (untyped.init settles)
      · by_contra types
        obtain ⟨x, hx, -⟩ := untyped acts a [] rfl (by simpa using types)
        cases hx

/-- While nobody has typed since the text was last read or written, every place that is recorded
with a node or an attribute names its tag or its name in the text, and every finding that is
shown has its place in the text, cutting no character. Right after a write that is not refused
every node has a place, and so have exactly those attributes that are not content and not empty. -/
theorem recorded_places (editor : Editor) (settings : Settings) (desk : Option Desk) (acts : List Act) :
    let s := ({ editor, settings, tree := .new desk } : Session)
    let later := s.run acts
    (s.Untyped acts → later.tree.Anchored later.editor.text ∧
      ∀ d ∈ later.diagnostics, d.range.Within later.editor.text) ∧
    (.refused ∉ later.happenings .renderNow → ∀ n ∈ later.renderNow.1.tree.nodes, n.Placed) := by
  intro s later
  have base (acts : List Act) : (s.run acts).tree.Sound ∧ (s.run acts).tree.Current :=
    Tree.current_lasting.run acts ⟨Tree.sound_new desk, Tree.current_of_empty rfl⟩
  constructor
  · intro untyped
    have start : s.Anchored := ⟨by rintro n ⟨⟩, by rintro d ⟨⟩⟩
    have anchored : later.Anchored := start.run base untyped
    exact ⟨anchored.tree, anchored.within⟩
  · intro written
    obtain ⟨sound, current⟩ := base acts
    apply placed_renderNow sound current
    intro refused
    rw [happenings, refused] at written
    exact written List.mem_cons_self

/-- A text is typed and read, an attribute is set, and the tree is written. -/
theorem recorded_places_run :
    let s : Session := { editor := { text := "" }, settings := {}, tree := .new none }
    let acts : List Act := [.setText "<fetch><entity name='ä<' /></fetch>", .documentChanged,
      .edit (.setAttribute ⟨1⟩ "alias" "é")]
    let later := s.run acts
    (later.tree.Anchored later.editor.text ∧ ∀ d ∈ later.diagnostics, d.range.Within later.editor.text) ∧
      later.renderNow.1.editor.text = "<fetch>\n  <entity name=\"ä&lt;\" alias=\"é\" />\n</fetch>" ∧
      ∀ n ∈ later.renderNow.1.tree.nodes, n.Placed := by
  intro s acts later
  obtain ⟨anchored, placed⟩ := recorded_places { text := "" } {} none acts
  have untyped : s.Untyped acts := by
    intro before typed after split types
    cases before with
    | nil =>
      obtain ⟨rfl, rfl⟩ := List.cons.inj split
      decide +kernel
    | cons first before =>
      have others : ∀ a ∈ acts.tail, a.typesText = false := by decide
      have inside : typed ∈ acts.tail := by
        rw [split]
        simp
      rw [others typed inside] at types
      cases types
  exact ⟨anchored untyped, by decide +kernel, placed (by decide +kernel)⟩

end Session

end QueryMarkup
