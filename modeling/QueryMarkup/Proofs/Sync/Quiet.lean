import QueryMarkup.Proofs.Document.Headed
import QueryMarkup.Proofs.Document.Revision
import QueryMarkup.Proofs.Sync.Lasting

/-!
# Left alone, a session comes to rest

While a host only polls, lets time go by and tells that the text has changed, a session writes
at most once, unless what it writes is blank: then the default document takes its place and is
written as well. A text that is not blank is never written over once it was read.
-/
namespace QueryMarkup

/-- The host asks for no edit but those that a session offers. -/
def Act.isOffered : Act → Bool
  | .edit change => change.isOffered
  | _ => true

/-- Nothing is edited, neither the tree nor the text. -/
def Act.isQuiet : Act → Bool
  | .poll | .advance _ | .documentChanged => true
  | _ => false

theorem Act.isQuiet_cases {a : Act} (quiet : a.isQuiet = true) :
    a = .poll ∨ (∃ ms, a = .advance ms) ∨ a = .documentChanged := by
  cases a with
  | poll => exact .inl rfl
  | advance ms => exact .inr (.inl ⟨ms, rfl⟩)
  | documentChanged => exact .inr (.inr rfl)
  | _ => cases quiet

namespace Session

/-- The text holds something beside blanks and comments. -/
def Speaks (s : Session) : Prop :=
  Document.isBlankText (Markup.lex s.editor.text) s.editor.text = false

/-- What waits to be written, if anything does, holds something beside blanks and comments. -/
def SpeaksNext (s : Session) : Prop :=
  s.isRenderPending = true →
    let markup := (Document.render s.tree s.settings.indentWidth).text
    Document.isBlankText (Markup.lex markup) markup = false

/-- The tree has a root with a name, or nothing at all and then nothing to write. -/
structure Grounded (s : Session) : Prop where
  sound : s.tree.Sound
  headed : s.tree.nodes ≠ [] → s.tree.Headed
  pending : s.isRenderPending = true → s.tree.nodes ≠ []

variable {s : Session} {t : Tree}

/-! ## Every act leaves a session grounded -/

/-- Only the tree and the pending write matter. -/
theorem Grounded.congr {s' : Session} (h : s.Grounded) (tree : s'.tree = s.tree)
    (changedAt : s'.changedAt = s.changedAt) : s'.Grounded := by
  constructor
  · exact tree ▸ h.sound
  · exact tree ▸ h.headed
  · rw [isRenderPending, changedAt, tree]
    exact h.pending

/-- Where nothing is to be written, the tree alone matters. -/
theorem grounded_of_tree (quiet : s.changedAt = none) (sound : s.tree.Sound)
    (headed : s.tree.nodes ≠ [] → s.tree.Headed) : s.Grounded := by
  refine ⟨sound, headed, fun pending => ?_⟩
  rw [isRenderPending, quiet] at pending
  cases pending

theorem Grounded.give_up (h : s.Grounded) : ({ s with changedAt := none } : Session).Grounded :=
  grounded_of_tree rfl h.sound h.headed

/-- A tree that has a root may be taken over. -/
theorem grounded_adopt (s : Session) (sound : t.Sound) (headed : t.Headed) : (s.adopt t).Grounded := by
  constructor
  · exact ⟨sound.arranged, sound.shown, sound.selection⟩
  · exact fun _ => headed.of_nodes rfl
  · exact fun _ => headed.nonempty

theorem sound_edit (sound : t.Sound) (edit : Edit) : (t.edit edit).Sound :=
  Tree.sound_invariant.edit t edit sound

theorem Grounded.edit (h : s.Grounded) {edit : Edit} (offered : edit.isOffered = true) :
    (s.adopt (s.tree.edit edit)).Grounded := by
  have sound := sound_edit h.sound edit
  by_cases empty : s.tree.nodes = []
  · rcases Tree.edit_of_empty empty offered with rfl | ⟨nodes, revision⟩
    · exact grounded_adopt s sound (Tree.headed_reset s.tree)
    · have idle : s.changedAt = none := by
        cases at? : s.changedAt with
        | none => rfl
        | some at' =>
          apply absurd empty
          apply h.pending
          rw [isRenderPending, at?]
          rfl
      apply grounded_of_tree
      · exact (if_neg fun changed => changed.1 revision).trans idle
      · exact ⟨sound.arranged, sound.shown, sound.selection⟩
      · exact fun live => absurd nodes live
  · exact grounded_adopt s sound ((h.headed empty).edit h.sound offered)

theorem Grounded.observe (h : s.Grounded) {id : NodeId} (e : s.tree.observe id = .ok t) :
    ({ s with tree := t } : Session).Grounded := by
  have shapes : Tree.Keeps Node.shape s.tree t := Tree.observe_keeps (fun _ _ => rfl) e
  have titles : Tree.Keeps Tree.title s.tree t := Tree.observe_keeps (fun _ _ => rfl) e
  have empty : t.nodes = [] ↔ s.tree.nodes = [] := by
    rw [← List.map_eq_nil_iff, shapes.nodes, List.map_eq_nil_iff]
  constructor
  · exact h.sound.of_keeps shapes
  · exact fun live => (h.headed (empty.not.mp live)).of_keeps titles
  · exact fun pending => empty.not.mpr (h.pending pending)

/-- What is read has a named root or no node. -/
theorem parsed_headed (s : Session) :
    s.parsed.tree.Sound ∧ (s.parsed.tree.nodes ≠ [] → s.parsed.tree.Headed) := by
  obtain ⟨recovered, -⟩ := Document.recovered_readTokens s.tree s.editor.text s.settings
  exact ⟨recovered.quiet.sound, recovered.quiet.headed⟩

/-- Reading leaves a tree with a root. A write is pending only where the text is blank. -/
theorem readText_headed (s : Session) : (s.readText ⟨.textToTree⟩).tree.Sound ∧
    (s.readText ⟨.textToTree⟩).tree.Headed := by
  obtain ⟨sound, headed⟩ := parsed_headed s
  rw [tree_readText, Document.orDefault]
  split
  · have reset := sound_edit sound .reset
    exact ⟨⟨reset.arranged, reset.shown, reset.selection⟩, (Tree.headed_reset _).of_nodes rfl⟩
  · rename_i live
    refine ⟨⟨sound.arranged, sound.shown, sound.selection⟩, Tree.Headed.of_nodes (headed ?_) rfl⟩
    intro none
    simp [Tree.isEmpty, none] at live

theorem Grounded.reparse (h : s.Grounded) : s.reparse.Grounded := by
  cases idle : s.coordinator.isIdle with
  | false =>
    rw [reparse_busy s idle]
    exact h.give_up.congr rfl rfl
  | true =>
    rw [reparse_idle s idle]
    obtain ⟨sound, headed⟩ := readText_headed { s with changedAt := none }
    exact ⟨sound, fun _ => headed, fun _ => headed.nonempty⟩

theorem Grounded.afterWrite (h : s.Grounded) (quiet : s.changedAt = none)
    (rendered : Document.Rendered) : (s.afterWrite rendered).Grounded := by
  have shapes : Tree.Keeps Node.shape s.tree (anchor s.tree rendered) :=
    anchor_keeps (fun _ _ => rfl) (fun _ _ _ => rfl) s.tree rendered
  have titles : Tree.Keeps Tree.title s.tree (anchor s.tree rendered) :=
    anchor_keeps (fun _ _ => rfl) (fun _ _ _ => rfl) s.tree rendered
  have sound := h.sound.of_keeps shapes
  apply grounded_of_tree
  · exact (if_neg fun changed => changed.1 (revision_anchor s.tree rendered)).trans quiet
  · exact ⟨sound.arranged, sound.shown, sound.selection⟩
  · intro live
    have before : s.tree.nodes ≠ [] := by
      intro none
      apply live
      have nodes := shapes.nodes
      rw [none] at nodes
      exact List.map_eq_nil_iff.mp nodes
    exact ((h.headed before).of_keeps titles).of_nodes rfl

theorem Grounded.renderNow (h : s.Grounded) : s.renderNow.1.Grounded := by
  rcases renderNow_cases s with ⟨shown, tree, -, -, waiting, -, made⟩ | ⟨-, made⟩
  · rw [made]
    exact (h.give_up.congr tree waiting).afterWrite waiting _
  · rw [made]
    exact h.give_up

theorem Grounded.act (h : s.Grounded) {a : Act} (offered : a.isOffered = true) : (s.act a).Grounded := by
  cases s.act_outcome a with
  | same _ made =>
    rw [made]
    exact h
  | edit asked _ made =>
    subst asked
    exact made ▸ h.edit offered
  | observe _ _ observed made => exact made ▸ h.observe observed
  | read _ _ made => exact made ▸ h.reparse
  | write _ _ made => exact made ▸ h.renderNow
  | type _ _ _ made | direct _ _ _ made | advance _ _ _ made | publish _ _ made =>
    exact made ▸ h.congr rfl rfl

theorem Grounded.run (h : s.Grounded) {acts : List Act} (offered : ∀ a ∈ acts, a.isOffered = true) :
    (s.run acts).Grounded := by
  induction acts generalizing s with
  | nil => exact h
  | cons a acts ih =>
    obtain ⟨first, rest⟩ := List.forall_mem_cons.mp offered
    exact ih (h.act first) rest

theorem Grounded.speaksNext (h : s.Grounded) : s.SpeaksNext := fun pending =>
  Document.not_isBlankText_render h.sound (h.headed (h.pending pending)) _

/-- A session may start with any tree whose root, if there is one, has a name. -/
theorem grounded_start (editor : Editor) (settings : Settings) {desk : Option Desk}
    (reached : t.Reached desk) (named : ∀ r ∈ t.root?, Markup.isName r.tag.toList = true) :
    ({ editor, settings, tree := t } : Session).Grounded := by
  apply grounded_of_tree
  · rfl
  · exact reached.sound
  · intro live
    refine ⟨live, fun n hn top => ?_⟩
    obtain ⟨before, after, split⟩ := List.append_of_mem (List.mem_map_of_mem (f := Node.shape) hn)
    by_cases first : before = []
    · cases hr : t.nodes with
      | nil => exact absurd hr live
      | cons root rest =>
        rw [first, hr] at split
        have tag : root.tag = n.tag := congrArg Shape.tag (List.cons.inj split).1
        rw [← tag]
        apply named
        rw [Tree.root?, hr]
        rfl
    · have arranged := reached.sound.arranged
      rw [Tree.shapes, split] at arranged
      obtain ⟨m, -, level, -⟩ := arranged.parent first
      have deep : n.level = m.level + 1 := level
      omega

/-! ## Reading -/

theorem documentChanged_eq (idle : s.coordinator.isIdle = true) :
    s.documentChanged.1 = (({ s with changedAt := none } : Session).readText ⟨.textToTree⟩).publish := by
  unfold documentChanged
  rw [if_pos idle, reparse_idle s idle]

/-- Nothing was written in between. -/
structure Untouched (s s' : Session) : Prop where
  text : s'.editor.text = s.editor.text
  writes : s'.editor.writes = s.editor.writes

/-- Reading writes nothing, and ends its pass. -/
theorem documentChanged_untouched (idle : s.coordinator.isIdle = true) :
    s.Untouched s.documentChanged.1 ∧ s.documentChanged.1.coordinator.isIdle = true := by
  obtain ⟨editor, coordinator⟩ := readText_editor { s with changedAt := none }
  rw [documentChanged_eq idle]
  generalize ({ s with changedAt := none } : Session).readText ⟨.textToTree⟩ = read at editor coordinator
  have text := congrArg Editor.text editor
  have writes := congrArg Editor.writes editor
  have rests := congrArg Coordinator.isIdle coordinator
  exact ⟨⟨text, writes⟩, rests⟩

/-- Only the default document in the place of a blank text is to be written. -/
theorem isRenderPending_documentChanged (idle : s.coordinator.isIdle = true) :
    s.documentChanged.1.isRenderPending =
      (s.parsed.tree.isEmpty && Document.isBlankText (Markup.lex s.editor.text) s.editor.text) := by
  have told := isRenderPending_act s .documentChanged
  rw [happenings, if_pos idle, reading, if_pos idle] at told
  refine told.trans ?_
  cases s.parsed.tree.isEmpty && Document.isBlankText (Markup.lex s.editor.text) s.editor.text with
  | false => rfl
  | true =>
    have changed : s.parsed.becoming s.parsed.tree.reset = [.changed] :=
      if_pos ⟨(Tree.revision_lt_reset _).ne', rfl⟩
    rw [if_pos rfl, changed]
    rfl

/-- What takes the place of a text has a root with a name. -/
theorem speaksNext_documentChanged (idle : s.coordinator.isIdle = true) :
    s.documentChanged.1.SpeaksNext := by
  intro _
  rw [documentChanged_eq idle]
  obtain ⟨sound, headed⟩ := readText_headed { s with changedAt := none }
  exact Document.not_isBlankText_render sound headed _

/-! ## Polling -/

theorem poll_of_not_due (early : s.isDue = false) : s.poll.1 = s := by
  rw [poll_eq, early]
  rfl

theorem isRenderPending_of_due (due : s.isDue = true) : s.isRenderPending = true :=
  Option.isSome_of_any due

/-! ## Rest -/

/-- No pass is running, nothing is to be written, and the text would not be written over. -/
structure AtRest (s : Session) : Prop where
  idle : s.coordinator.isIdle = true
  settled : s.isRenderPending = false
  speaks : s.Speaks

/-- A text that is not blank stays as it is when it is read, also where it has no element. -/
theorem AtRest.documentChanged (idle : s.coordinator.isIdle = true) (speaks : s.Speaks) :
    s.documentChanged.1.AtRest := by
  obtain ⟨untouched, idle'⟩ := documentChanged_untouched idle
  constructor
  · exact idle'
  · rw [isRenderPending_documentChanged idle, show Document.isBlankText _ _ = false from speaks,
      Bool.and_false]
  · rw [Speaks, untouched.text]
    exact speaks

/-- At rest nothing is written, whatever is asked quietly. -/
theorem AtRest.act (h : s.AtRest) {a : Act} (quiet : a.isQuiet = true) :
    (s.act a).AtRest ∧ s.Untouched (s.act a) := by
  rcases Act.isQuiet_cases quiet with rfl | ⟨ms, rfl⟩ | rfl
  · have notDue : s.isDue = false := by
      rw [Bool.eq_false_iff]
      intro due
      have pending := isRenderPending_of_due due
      rw [h.settled] at pending
      cases pending
    rw [Session.act, poll_of_not_due notDue]
    exact ⟨h, rfl, rfl⟩
  · exact ⟨⟨h.idle, h.settled, h.speaks⟩, rfl, rfl⟩
  · exact ⟨AtRest.documentChanged h.idle h.speaks, (documentChanged_untouched h.idle).1⟩

theorem AtRest.run (h : s.AtRest) {acts : List Act} (quiet : ∀ a ∈ acts, a.isQuiet = true) :
    (s.run acts).AtRest ∧ s.Untouched (s.run acts) := by
  induction acts generalizing s with
  | nil => exact ⟨h, rfl, rfl⟩
  | cons a acts ih =>
    obtain ⟨first, rest⟩ := List.forall_mem_cons.mp quiet
    obtain ⟨here, kept⟩ := h.act first
    obtain ⟨there, kept'⟩ := ih here rest
    exact ⟨there, kept'.text.trans kept.text, kept'.writes.trans kept.writes⟩

/-! ## One write, or two -/

/-- The editor shows the markup, whether it had to be written or not. -/
theorem renderNow_idle (idle : s.coordinator.isIdle = true) :
    let rendered := Document.render s.tree s.settings.indentWidth
    s.renderNow.1.editor.text = rendered.text ∧
      s.renderNow.1.editor.writes =
        s.editor.writes ++ (if s.editor.text = rendered.text then [] else [.treeToText]) ∧
      s.renderNow.1.coordinator.isIdle = true := by
  unfold renderNow Coordinator.enter
  dsimp only
  rw [if_pos idle]
  split
  · rename_i shown
    exact ⟨shown, (List.append_nil _).symm, idle⟩
  · exact ⟨rfl, rfl, rfl⟩

/-- What a quiet act of a session without a running pass comes to. -/
inductive QuietOutcome (s s' : Session) : Prop where
  /-- Nothing is written. -/
  | still (writes : s'.editor.writes = s.editor.writes) (speaksNext : s.SpeaksNext → s'.SpeaksNext)
  /-- What was waiting is written, if the editor does not show it already. -/
  | written (once : s'.editor.writes.length ≤ s.editor.writes.length + 1)
      (settled : s'.isRenderPending = false) (speaks : s.SpeaksNext → s'.Speaks)

theorem poll_quiet (idle : s.coordinator.isIdle = true) :
    s.poll.1.coordinator.isIdle = true ∧ s.QuietOutcome s.poll.1 := by
  cases due : s.isDue with
  | false =>
    rw [poll_of_not_due due]
    exact ⟨idle, .still rfl id⟩
  | true =>
    obtain ⟨text, writes, idle'⟩ := renderNow_idle idle
    rw [poll_eq, if_pos due]
    refine ⟨idle', .written ?_ ?_ fun speaksNext => ?_⟩
    · rw [writes, List.length_append]
      split
      · exact Nat.le_succ _
      · exact Nat.le_refl _
    · rw [isRenderPending, changedAt_renderNow]
      rfl
    · rw [Speaks, text]
      exact speaksNext (isRenderPending_of_due due)

theorem act_quiet (idle : s.coordinator.isIdle = true) {a : Act} (quiet : a.isQuiet = true) :
    (s.act a).coordinator.isIdle = true ∧ s.QuietOutcome (s.act a) := by
  rcases Act.isQuiet_cases quiet with rfl | ⟨ms, rfl⟩ | rfl
  · exact poll_quiet idle
  · exact ⟨idle, .still rfl id⟩
  · obtain ⟨untouched, idle'⟩ := documentChanged_untouched idle
    exact ⟨idle', .still untouched.writes fun _ => speaksNext_documentChanged idle⟩

theorem run_quiet_idle (idle : s.coordinator.isIdle = true) {acts : List Act}
    (quiet : ∀ a ∈ acts, a.isQuiet = true) : (s.run acts).coordinator.isIdle = true := by
  induction acts generalizing s with
  | nil => exact idle
  | cons a acts ih =>
    obtain ⟨first, rest⟩ := List.forall_mem_cons.mp quiet
    exact ih (act_quiet idle first).1 rest

/-- Where what waits is not blank, one write brings the session to rest. -/
theorem SpeaksNext.run_quiet (h : s.SpeaksNext) (idle : s.coordinator.isIdle = true) {acts : List Act}
    (quiet : ∀ a ∈ acts, a.isQuiet = true) :
    (s.run acts).editor.writes.length ≤ s.editor.writes.length + 1 := by
  induction acts generalizing s with
  | nil => exact Nat.le_succ _
  | cons a acts ih =>
    obtain ⟨first, rest⟩ := List.forall_mem_cons.mp quiet
    obtain ⟨idle', outcome⟩ := act_quiet idle first
    change ((s.act a).run acts).editor.writes.length ≤ _
    cases outcome with
    | still writes speaksNext =>
      have once := ih (speaksNext h) idle' rest
      rw [writes] at once
      exact once
    | written once settled speaks =>
      have atRest : (s.act a).AtRest := ⟨idle', settled, speaks h⟩
      obtain ⟨-, untouched⟩ := atRest.run rest
      rw [untouched.writes]
      exact once

/-- A second write is left only where the first one was blank, and then it is the last. -/
theorem run_quiet (idle : s.coordinator.isIdle = true) {acts : List Act}
    (quiet : ∀ a ∈ acts, a.isQuiet = true) :
    (s.run acts).editor.writes.length ≤ s.editor.writes.length + 2 := by
  induction acts generalizing s with
  | nil => exact Nat.le_add_right _ 2
  | cons a acts ih =>
    obtain ⟨first, rest⟩ := List.forall_mem_cons.mp quiet
    obtain ⟨idle', outcome⟩ := act_quiet idle first
    change ((s.act a).run acts).editor.writes.length ≤ _
    cases outcome with
    | still writes =>
      have twice := ih idle' rest
      rw [writes] at twice
      exact twice
    | written once settled =>
      have nothing : (s.act a).SpeaksNext := fun pending => by
        rw [settled] at pending
        cases pending
      have again := nothing.run_quiet idle' rest
      omega

/-- From any state without a running pass, a session that only polls, lets time go by and is told
of changed text writes at most once, unless it has something blank to write, and never more than
twice. It has nothing blank to write where it was given a tree without a root, or with a root whose
tag is a name, and edits it by what it offers. Told of a change while the text is not blank, it never
writes and has nothing to write, also where the default document took the place of a text without an
element; the default document in the place of a blank text is to be written. -/
theorem writes_at_most_once (editor : Editor) (settings : Settings) {desk : Option Desk} {tree : Tree}
    (reached : tree.Reached desk) (past : List Act) {acts : List Act}
    (quiet : ∀ a ∈ acts, a.isQuiet = true) :
    let s := ({ editor, settings, tree } : Session).run past
    s.coordinator.isIdle = true →
      (s.SpeaksNext → (s.run acts).editor.writes.length ≤ s.editor.writes.length + 1) ∧
      (s.run acts).editor.writes.length ≤ s.editor.writes.length + 2 ∧
      ((∀ r ∈ tree.root?, Markup.isName r.tag.toList = true) → (∀ a ∈ past, a.isOffered = true) →
        s.SpeaksNext) ∧
      ∀ before after, acts = before ++ .documentChanged :: after →
        let told := s.run before
        let blank := Document.isBlankText (Markup.lex told.editor.text) told.editor.text
        (blank = false →
          (s.run acts).editor.writes = told.editor.writes ∧
          (s.run acts).editor.text = told.editor.text ∧
          (s.run acts).isRenderPending = false) ∧
        (told.parsed.tree.isEmpty = true →
          told.documentChanged.1.tree = told.parsed.tree.reset.quiet ∧
          told.documentChanged.1.isRenderPending = blank) := by
  intro s idle
  refine ⟨fun speaksNext => speaksNext.run_quiet idle quiet, run_quiet idle quiet, ?_, ?_⟩
  · intro named offered
    exact ((grounded_start editor settings reached named).run offered).speaksNext
  · rintro before after rfl told blank
    obtain ⟨quietBefore, quietAfter⟩ := List.forall_mem_append.mp quiet
    obtain ⟨-, quietAfter⟩ := List.forall_mem_cons.mp quietAfter
    have idle' : told.coordinator.isIdle = true := run_quiet_idle idle quietBefore
    constructor
    · intro speaks
      obtain ⟨untouched, -⟩ := documentChanged_untouched idle'
      obtain ⟨atRest, kept⟩ := (AtRest.documentChanged idle' speaks).run quietAfter
      have split : s.run (before ++ .documentChanged :: after) = told.documentChanged.1.run after :=
        run_append s before _
      rw [split]
      exact ⟨kept.writes.trans untouched.writes, kept.text.trans untouched.text, atRest.settled⟩
    · intro empty
      have same : ({ told with changedAt := none } : Session).parsed.tree = told.parsed.tree := rfl
      refine ⟨?_, ?_⟩
      · rw [documentChanged_eq idle', publish]
        dsimp only
        rw [tree_readText, same, Document.orDefault, if_pos empty]
      · rw [isRenderPending_documentChanged idle', empty, Bool.true_and]

/-- An edit of the default document is written once. What was written is read and left alone. -/
theorem writes_at_most_once_edit :
    let tree := (Tree.new none).edit .reset
    let past : List Act := [.edit (.setAttribute ⟨1⟩ "name" "a")]
    let acts : List Act := [.advance 30, .poll, .documentChanged, .advance 30, .poll]
    let s := ({ editor := { text := "" }, settings := {}, tree } : Session).run past
    s.isRenderPending = true ∧ (s.run acts).editor.writes = [.treeToText] ∧
      (s.run acts).editor.writes.length ≤ s.editor.writes.length + 1 ∧
      (s.run acts).editor.text = (s.run [.advance 30, .poll]).editor.text ∧
      (s.run acts).isRenderPending = false := by
  intro tree past acts s
  have reached : Tree.Reached none tree := Tree.Reached.new.edit .reset
  have quiet : ∀ a ∈ acts, a.isQuiet = true := by decide
  have named : ∀ r ∈ tree.root?, Markup.isName r.tag.toList = true := by decide +kernel
  have offered : ∀ a ∈ past, a.isOffered = true := by decide
  have idle : s.coordinator.isIdle = true := by decide +kernel
  have pending : s.isRenderPending = true := by decide +kernel
  have written : (s.run [.advance 30, .poll]).editor.writes = [.treeToText] := by decide +kernel
  have speaks : Document.isBlankText (Markup.lex (s.run [.advance 30, .poll]).editor.text)
      (s.run [.advance 30, .poll]).editor.text = false := by decide +kernel
  have rest := writes_at_most_once { text := "" } {} reached past quiet
  -- As a value the session would be run again on every comparison below.
  clear_value (hs : s = _)
  rw [← hs] at rest
  obtain ⟨once, -, speaksNext, told⟩ := rest idle
  obtain ⟨left, -⟩ := told [.advance 30, .poll] [.advance 30, .poll] rfl
  obtain ⟨writes, text, settled⟩ := left speaks
  exact ⟨pending, writes.trans written, once (speaksNext named offered), text, settled⟩

/-- A root read as `!--` makes one comment of the markup. It is written, then read as a blank text,
and the default document that takes its place is written too. -/
theorem writes_twice :
    let tree := (Tree.new none).edit (.addParsed .unknown "!--" none)
    let past : List Act := [.edit (.add .entity (some ⟨0⟩))]
    let acts : List Act := [.advance 30, .poll, .documentChanged, .advance 30, .poll]
    let s := ({ editor := { text := "" }, settings := {}, tree } : Session).run past
    tree.Reached none ∧ s.coordinator.isIdle = true ∧ (∀ a ∈ acts, a.isQuiet = true) ∧
      (s.run [.advance 30, .poll]).editor.text = "<!-->\n  <entity />\n</!-->" ∧
      (s.run [.advance 30, .poll, .documentChanged]).isRenderPending = true ∧
      (s.run acts).editor.writes.length = s.editor.writes.length + 2 := by
  intro tree past acts s
  refine ⟨Tree.Reached.new.edit _, ?_, ?_, ?_, ?_, ?_⟩ <;> decide +kernel

end Session

end QueryMarkup
