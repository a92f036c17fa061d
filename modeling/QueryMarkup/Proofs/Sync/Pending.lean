import Mathlib.Data.List.Induction
import QueryMarkup.Proofs.Sync.Reading

/-!
# Changes that wait to be written

A host edits the tree, types into the editor, lets time go by, keeps passes of its own open
and asks the session to read or to write. A write is pending exactly when the tree has
changed since the last pass that was asked for, whether that pass was made or refused.
-/
namespace QueryMarkup

/-- What a host does with a session and with its editor, its clock and its coordinator. -/
inductive Act where
  /-- Any change of the tree, also a write straight into an attribute. -/
  | edit (edit : Edit)
  | observe (id : NodeId)
  | setText (text : String)
  | splice (range : Text.Range) (insert : String)
  /-- Opens a pass of the host's own, unless one is open. -/
  | enter (direction : Direction)
  /-- Ends the pass that is open. -/
  | leave
  | advance (ms : Nat)
  | documentChanged
  | reparse
  | poll
  | renderNow
  | publish

/-- What bears on whether there is something to write. -/
inductive Happening where
  /-- The revision of the tree changed while no text was being read into it. -/
  | changed
  /-- The text was read into the tree. -/
  | parsed
  /-- The markup of the tree was written into the editor, or stood there already. -/
  | written
  /-- A pass was asked for during another one, and not made. -/
  | refused
  deriving DecidableEq

namespace Session

def act (s : Session) : Act → Session
  | .edit edit => (s.edit edit).1
  | .observe id => (s.observe id).toOption.getD s
  | .setText text => { s with editor := s.editor.setText text }
  | .splice range insert => { s with editor := s.editor.splice range insert }
  | .enter direction =>
    { s with coordinator := (s.coordinator.enter direction).toOption.getD s.coordinator }
  | .leave => { s with coordinator := s.coordinator.release }
  | .advance ms => s.advance ms
  | .documentChanged => s.documentChanged.1
  | .reparse => s.reparse
  | .poll => s.poll.1
  | .renderNow => s.renderNow.1
  | .publish => s.publish

def run (s : Session) (acts : List Act) : Session := acts.foldl act s

/-! ## What happens -/

/-- The tree becomes another one. -/
def becoming (s : Session) (tree : Tree) : List Happening :=
  if tree.revision ≠ s.tree.revision ∧ s.coordinator.acceptsTreeChanges then [.changed] else []

/-- The text is to be read. Where it is blank the default document takes its place afterwards. -/
def reading (s : Session) : List Happening :=
  if s.coordinator.isIdle then
    .parsed ::
      if s.parsed.tree.isEmpty && Document.isBlankText (Markup.lex s.editor.text) s.editor.text then
        s.parsed.becoming s.parsed.tree.reset
      else []
  else [.refused]

/-- The tree is to be written. -/
def writing (s : Session) : List Happening :=
  if s.editor.text = (Document.render s.tree s.settings.indentWidth).text ∨ s.coordinator.isIdle then
    [.written]
  else [.refused]

/-- The tree changed long enough ago. -/
def isDue (s : Session) : Bool :=
  s.changedAt.any fun changedAt => decide (s.settings.debounceMs ≤ s.now - changedAt)

def happenings (s : Session) : Act → List Happening
  | .edit edit => s.becoming (s.tree.edit edit)
  | .documentChanged => if s.coordinator.isIdle then s.reading else []
  | .reparse => s.reading
  | .poll => if s.isDue then s.writing else []
  | .renderNow => s.writing
  | .observe _ | .setText _ | .splice _ _ | .enter _ | .leave | .advance _ | .publish => []

/-- All that happens in a run, the earliest first. -/
def history (s : Session) : List Act → List Happening
  | [] => []
  | a :: acts => s.happenings a ++ (s.act a).history acts

end Session

/-- A change stands in the history, and nothing that settles it happened since. -/
def Unsettled (settles history : List Happening) : Prop :=
  ∃ before after, history = before ++ .changed :: after ∧ ∀ h ∈ after, h ∉ settles

/-! ## One act -/

/-- Whether a write is pending after some happenings. -/
def pendingAfter (pending : Bool) (history : List Happening) : Bool :=
  history.foldl (fun _ h => decide (h = .changed)) pending

/-- The time of the change that waits to be written, after some happenings at one time. -/
def waitingAfter (now : Nat) (waiting : Option Nat) (history : List Happening) : Option Nat :=
  history.foldl (fun _ h => if h = .changed then some now else none) waiting

theorem isSome_waitingAfter (now : Nat) (waiting : Option Nat) (history : List Happening) :
    (waitingAfter now waiting history).isSome = pendingAfter waiting.isSome history := by
  induction history generalizing waiting with
  | nil => rfl
  | cons h history ih =>
    have here : (if h = .changed then some now else none).isSome = decide (h = .changed) := by
      by_cases changed : h = .changed <;> simp [changed]
    exact (ih _).trans (congrArg (pendingAfter · history) here)

namespace Session

variable {s : Session}

theorem run_append (s : Session) (before after : List Act) :
    s.run (before ++ after) = (s.run before).run after := List.foldl_append

theorem history_append (s : Session) (before after : List Act) :
    s.history (before ++ after) = s.history before ++ (s.run before).history after := by
  induction before generalizing s with
  | nil => rfl
  | cons a before ih =>
    rw [List.cons_append, history, ih, history, List.append_assoc]
    rfl

/-! ## Passes that write -/

theorem snd_renderNow (s : Session) :
    s.renderNow.2 = Document.render s.tree s.settings.indentWidth := by
  unfold renderNow
  dsimp only
  split
  · rfl
  · split <;> rfl

/-- A pass that writes ends with what follows once the editor shows the text. One that is refused
does no more than give up the pending write. -/
theorem renderNow_cases (s : Session) :
    (∃ shown : Session, shown.tree = s.tree ∧ shown.settings = s.settings ∧ shown.now = s.now ∧
      shown.changedAt = none ∧ shown.editor.text = (Document.render s.tree s.settings.indentWidth).text ∧
      s.renderNow.1 = shown.afterWrite (Document.render s.tree s.settings.indentWidth)) ∨
    s.writing = [.refused] ∧ s.renderNow.1 = { s with changedAt := none } := by
  unfold renderNow writing Coordinator.enter
  dsimp only
  by_cases same : s.editor.text = (Document.render s.tree s.settings.indentWidth).text
  · rw [if_pos same]
    exact .inl ⟨{ s with changedAt := none }, rfl, rfl, rfl, rfl, same, rfl⟩
  · rw [if_neg same]
    by_cases idle : s.coordinator.isIdle = true
    · rw [if_pos idle]
      exact .inl ⟨{ s with
        changedAt := none
        editor := s.editor.replace .treeToText (Document.render s.tree s.settings.indentWidth).text
        coordinator := ⟨.idle⟩ }, rfl, rfl, rfl, rfl, rfl, rfl⟩
    · rw [if_neg idle, if_neg (by simp [same, idle])]
      exact .inr ⟨rfl, rfl⟩

theorem settings_renderNow (s : Session) : s.renderNow.1.settings = s.settings := by
  rcases renderNow_cases s with ⟨shown, -, settings, -, -, -, made⟩ | ⟨-, made⟩
  · rw [made]
    exact settings
  · rw [made]

/-- A poll writes when it is due. -/
theorem poll_eq (s : Session) : s.poll = if s.isDue then
    (s.renderNow.1, some (Document.render s.tree s.settings.indentWidth)) else (s, none) := by
  unfold poll isDue
  cases s.changedAt with
  | none => rfl
  | some changedAt =>
    dsimp only [Option.any_some]
    by_cases early : s.now - changedAt < s.settings.debounceMs
    · rw [if_pos early, if_neg (by simpa using early)]
    · rw [if_neg early, if_pos (by simpa using early), ← snd_renderNow]

/-! ## What an act comes to -/

/-- What an act comes to. Nothing but the passes that read and write, and edits, bears on whether
there is something to write. -/
inductive ActOutcome (s : Session) (a : Act) : Prop where
  /-- It is refused, or it is not the time for it. -/
  | same (still : s.happenings a = []) (made : s.act a = s)
  | edit {change : Edit} (asked : a = .edit change)
      (happens : s.happenings a = s.becoming (s.tree.edit change))
      (made : s.act a = s.adopt (s.tree.edit change))
  | observe {id : NodeId} {t : Tree} (asked : a = .observe id) (still : s.happenings a = [])
      (observed : s.tree.observe id = .ok t) (made : s.act a = { s with tree := t })
  | type (editor : Editor) (asked : (∃ text, a = .setText text) ∨ ∃ range insert, a = .splice range insert)
      (still : s.happenings a = []) (made : s.act a = { s with editor })
  | direct (coordinator : Coordinator) (asked : (∃ direction, a = .enter direction) ∨ a = .leave)
      (still : s.happenings a = []) (made : s.act a = { s with coordinator })
  | advance (ms : Nat) (asked : a = .advance ms) (still : s.happenings a = [])
      (made : s.act a = s.advance ms)
  | publish (asked : a = .publish) (still : s.happenings a = []) (made : s.act a = s.publish)
  | read (asked : a = .documentChanged ∧ s.coordinator.isIdle = true ∨ a = .reparse)
      (happens : s.happenings a = s.reading) (made : s.act a = s.reparse)
  | write (asked : a = .poll ∧ s.isDue = true ∨ a = .renderNow)
      (happens : s.happenings a = s.writing) (made : s.act a = s.renderNow.1)

theorem act_outcome (s : Session) (a : Act) : s.ActOutcome a := by
  cases a with
  | edit change =>
    cases performed : s.tree.perform change with
    | ok answer =>
      refine .edit rfl rfl ?_
      rw [act, Session.edit, Tree.edit, performed]
    | error refused =>
      refine .same ?_ ?_
      · rw [happenings, Tree.edit, performed]
        exact if_neg fun changed => changed.1 rfl
      · rw [act, Session.edit, performed]
  | observe id =>
    cases observed : s.tree.observe id with
    | ok t =>
      refine .observe rfl rfl observed ?_
      rw [act, Session.observe, observed]
      rfl
    | error missing =>
      refine .same rfl ?_
      rw [act, Session.observe, observed]
      rfl
  | setText text => exact .type _ (.inl ⟨text, rfl⟩) rfl rfl
  | splice range insert => exact .type _ (.inr ⟨range, insert, rfl⟩) rfl rfl
  | enter direction => exact .direct _ (.inl ⟨direction, rfl⟩) rfl rfl
  | leave => exact .direct _ (.inr rfl) rfl rfl
  | advance ms => exact .advance ms rfl rfl rfl
  | publish => exact .publish rfl rfl rfl
  | documentChanged =>
    cases idle : s.coordinator.isIdle with
    | true => exact .read (.inl ⟨rfl, idle⟩) (if_pos idle) (congrArg Prod.fst (if_pos idle))
    | false => exact .same (if_neg (by simp [idle])) (congrArg Prod.fst (if_neg (by simp [idle])))
  | reparse => exact .read (.inr rfl) rfl rfl
  | poll =>
    cases due : s.isDue with
    | true => exact .write (.inl ⟨rfl, due⟩) (if_pos due) (by rw [act, poll_eq, if_pos due])
    | false => exact .same (if_neg (by simp [due])) (by rw [act, poll_eq, if_neg (by simp [due])])
  | renderNow => exact .write (.inr rfl) rfl rfl

/-! ## What waits after an act -/

theorem waiting_adopt (s : Session) (tree : Tree) :
    (s.adopt tree).changedAt = waitingAfter s.now s.changedAt (s.becoming tree) := by
  unfold adopt becoming
  dsimp only
  split
  · rfl
  · rfl

/-- Recording where the written names stand is not a change of the tree. -/
theorem revision_anchor (tree : Tree) (rendered : Document.Rendered) :
    (anchor tree rendered).revision = tree.revision := by
  have spans (t : Tree) : (rendered.spans.foldl (fun t e => t.setSpan e.1 (some e.2))
      t).revision = t.revision :=
    List.foldlRecOn (motive := fun u : Tree => u.revision = t.revision) _ _ rfl fun _ ih _ _ => ih
  have attributeSpans (t : Tree) : (rendered.attributeSpans.foldl
      (fun t e => t.setAttributeSpan e.1 e.2.1 (some e.2.2)) t).revision = t.revision :=
    List.foldlRecOn (motive := fun u : Tree => u.revision = t.revision) _ _ rfl fun _ ih _ _ => ih
  exact (attributeSpans _).trans (spans tree)

theorem changedAt_afterWrite (s : Session) (rendered : Document.Rendered) :
    (s.afterWrite rendered).changedAt = s.changedAt :=
  if_neg fun changed => changed.1 (revision_anchor s.tree rendered)

/-- Asking for the tree to be written gives up the pending write in any case. -/
theorem changedAt_renderNow (s : Session) : s.renderNow.1.changedAt = none := by
  rcases renderNow_cases s with ⟨shown, -, -, -, waiting, -, made⟩ | ⟨-, made⟩
  · rw [made, changedAt_afterWrite, waiting]
  · rw [made]

theorem waiting_renderNow (s : Session) :
    s.renderNow.1.changedAt = waitingAfter s.now s.changedAt s.writing := by
  rw [changedAt_renderNow, writing]
  split <;> rfl

/-- A change while the text is read asks for nothing to be written. -/
theorem changedAt_adopt (reading : s.coordinator = ⟨.textToTree⟩) (tree : Tree) :
    (s.adopt tree).changedAt = s.changedAt := by
  refine if_neg fun h => ?_
  rw [reading] at h
  cases h.2

/-- Asking for the text to be read gives up the pending write in any case. Only the default
document in the place of a blank text asks for the next one. -/
theorem waiting_reparse (s : Session) :
    s.reparse.changedAt = waitingAfter s.now s.changedAt s.reading := by
  unfold reading
  cases idle : s.coordinator.isIdle with
  | false =>
    rw [reparse_busy s idle]
    rfl
  | true =>
    generalize hread : ({ s with changedAt := none } : Session).parsed = read
    have quiet : read.changedAt = none := by
      rw [← hread, parsed, changedAt_adopt rfl]
    have now : read.now = s.now := by rw [← hread]; rfl
    have tree : read.tree = s.parsed.tree := by rw [← hread]; rfl
    have becoming : s.parsed.becoming s.parsed.tree.reset = read.becoming read.tree.reset := by
      rw [← hread]
      rfl
    rw [reparse_idle s idle, publish, readText_eq, hread, if_pos rfl, becoming, ← tree]
    dsimp only
    cases empty : read.tree.isEmpty with
    | false =>
      rw [if_pos rfl, Bool.false_and]
      exact quiet
    | true =>
      rw [if_neg (by simp), Bool.true_and]
      split
      · have adopted := waiting_adopt read read.tree.reset
        rw [quiet, now] at adopted
        exact adopted
      · dsimp only
        rw [changedAt_adopt rfl]
        exact quiet

/-- One act leaves a change waiting as what happens in it says. -/
theorem waiting_act (s : Session) (a : Act) :
    (s.act a).changedAt = waitingAfter s.now s.changedAt (s.happenings a) := by
  cases s.act_outcome a with
  | edit _ happens made =>
    rw [made, happens]
    exact waiting_adopt s _
  | read _ happens made =>
    rw [made, happens]
    exact waiting_reparse s
  | write _ happens made =>
    rw [made, happens]
    exact waiting_renderNow s
  | same still made | observe _ still _ made | type _ _ still made | direct _ _ still made
  | advance _ _ still made | publish _ still made =>
    rw [made, still]
    rfl

theorem isRenderPending_act (s : Session) (a : Act) :
    (s.act a).isRenderPending = pendingAfter s.isRenderPending (s.happenings a) := by
  rw [isRenderPending, waiting_act, isSome_waitingAfter]
  rfl

/-! ## Runs -/

theorem isRenderPending_run (s : Session) (acts : List Act) :
    (s.run acts).isRenderPending = pendingAfter s.isRenderPending (s.history acts) := by
  induction acts generalizing s with
  | nil => rfl
  | cons a acts ih =>
    rw [history, pendingAfter, List.foldl_append]
    refine (ih (s.act a)).trans ?_
    rw [isRenderPending_act]
    rfl

end Session

theorem pendingAfter_iff (history : List Happening) :
    pendingAfter false history = true ↔ Unsettled [.parsed, .written, .refused] history := by
  have settling (h : Happening) : h ∉ [Happening.parsed, .written, .refused] ↔ h = .changed := by
    cases h <;> simp
  simp only [Unsettled, settling]
  induction history using List.reverseRecOn with
  | nil => simp [pendingAfter]
  | append_singleton history h ih =>
    rw [pendingAfter, List.foldl_append, List.foldl_cons, List.foldl_nil, decide_eq_true_eq]
    constructor
    · rintro rfl
      exact ⟨history, [], rfl, by simp⟩
    · rintro ⟨before, after, split, all⟩
      rcases List.eq_nil_or_concat after with rfl | ⟨after, last, rfl⟩
      · exact (List.cons.inj (List.append_inj_right' split rfl)).1
      · have last' : history ++ [h] = (before ++ .changed :: after) ++ [last] := by
          rw [split]
          simp
        rw [(List.cons.inj (List.append_inj_right' last' rfl)).1]
        exact all last (by simp)

namespace Session

/-- After every run of a session a write is pending exactly when the tree has changed, other than
by reading, since the text was last read, the markup was last written, or a pass that should
have done so was refused. -/
theorem isRenderPending_iff (editor : Editor) (settings : Settings) (tree : Tree) (acts : List Act) :
    let s : Session := { editor, settings, tree }
    (s.run acts).isRenderPending = true ↔
      Unsettled [.parsed, .written, .refused] (s.history acts) := by
  intro s
  rw [isRenderPending_run]
  exact pendingAfter_iff _

/-- A pass that is refused takes the change for written that it did not write. -/
theorem isRenderPending_lost :
    let s : Session := { editor := { text := "" }, settings := {}, tree := .empty }
    let acts : List Act := [.edit .reset, .enter .treeToText, .renderNow]
    Unsettled [.parsed, .written] (s.history acts) ∧ (s.run acts).isRenderPending = false := by
  intro s acts
  have history : s.history acts = [.changed, .refused] := by decide +kernel
  refine ⟨?_, by decide +kernel⟩
  rw [history]
  exact ⟨[], [.refused], rfl, by decide⟩

end Session

end QueryMarkup
