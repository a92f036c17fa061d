import Mathlib.Data.List.Chain
import QueryMarkup.Proofs.Document.Revision
import QueryMarkup.Proofs.Sync.Quiet

/-!
# Changes are written once they have come to rest

A poll writes exactly when a change of the tree is the last thing that happened and the tree has
been quiet for long enough since. A burst of changes, each soon after the one before, is
written once, and what is written shows the tree as the burst leaves it.
-/
namespace QueryMarkup

/-- The tree is edited or watched, time goes by, or the host polls. -/
def Act.isBurst : Act → Bool
  | .edit _ | .observe _ | .advance _ | .poll => true
  | _ => false

namespace Session

/-! ## When things happen -/

/-- All that happens in a run with its time, the earliest first. -/
def timeline (s : Session) : List Act → List (Nat × Happening)
  | [] => []
  | a :: acts => (s.happenings a).map (fun h => (s.now, h)) ++ (s.act a).timeline acts

/-- The times at which the tree changes in a run. -/
def changeTimes (s : Session) (acts : List Act) : List Nat :=
  (s.timeline acts).filterMap fun e => if e.2 = .changed then some e.1 else none

/-- What a host is given that polls. -/
def polled (s : Session) : Act → List Document.Rendered
  | .poll => s.poll.2.toList
  | _ => []

/-- What the polls of a run give, the earliest first. -/
def renders (s : Session) : List Act → List Document.Rendered
  | [] => []
  | a :: acts => s.polled a ++ (s.act a).renders acts

variable (s : Session)

/-- The change that waits, given what happened. -/
def latest (waiting : Option Nat) (timeline : List (Nat × Happening)) : Option Nat :=
  timeline.foldl (fun _ e => if e.2 = .changed then some e.1 else none) waiting

theorem latest_append (waiting : Option Nat) (before after : List (Nat × Happening)) :
    latest waiting (before ++ after) = latest (latest waiting before) after := List.foldl_append

theorem waiting_run (acts : List Act) :
    (s.run acts).changedAt = latest s.changedAt (s.timeline acts) := by
  induction acts generalizing s with
  | nil => rfl
  | cons a acts ih =>
    have here (waiting : Option Nat) (happenings : List Happening) :
        latest waiting (happenings.map fun h => (s.now, h)) = waitingAfter s.now waiting happenings := by
      rw [latest, List.foldl_map]
      rfl
    rw [timeline, latest_append, here, ← waiting_act]
    exact ih (s.act a)

theorem latest_eq_some {timeline : List (Nat × Happening)} {time : Nat} :
    latest none timeline = some time ↔ timeline.getLast? = some (time, .changed) := by
  induction timeline using List.reverseRecOn with
  | nil => simp [latest]
  | append_singleton timeline e ih =>
    rw [latest, List.foldl_append, List.foldl_cons, List.foldl_nil, List.getLast?_concat,
      Option.some.injEq]
    constructor
    · intro h
      split at h
      · rename_i changed
        exact Prod.ext (Option.some.inj h) changed
      · cases h
    · rintro rfl
      rfl

theorem timeline_append (before after : List Act) :
    s.timeline (before ++ after) = s.timeline before ++ (s.run before).timeline after := by
  induction before generalizing s with
  | nil => rfl
  | cons a before ih =>
    rw [List.cons_append, timeline, ih, timeline, List.append_assoc]
    rfl

theorem map_snd_timeline (acts : List Act) : (s.timeline acts).map (·.2) = s.history acts := by
  induction acts generalizing s with
  | nil => rfl
  | cons a acts ih =>
    rw [timeline, List.map_append, ih, List.map_map, history]
    exact congrArg (· ++ _) (List.map_id _)

theorem changeTimes_append (before after : List Act) :
    s.changeTimes (before ++ after) = s.changeTimes before ++ (s.run before).changeTimes after := by
  rw [changeTimes, timeline_append, List.filterMap_append]
  rfl

theorem renders_append (before after : List Act) :
    s.renders (before ++ after) = s.renders before ++ (s.run before).renders after := by
  induction before generalizing s with
  | nil => rfl
  | cons a before ih =>
    rw [List.cons_append, renders, ih, renders, List.append_assoc]
    rfl

theorem run_nil : s.run [] = s := rfl

/-! ## One poll -/

variable {s}

theorem settings_act (s : Session) (a : Act) : (s.act a).settings = s.settings := by
  cases s.act_outcome a with
  | read _ _ made => exact made ▸ settings_reparse s
  | write _ _ made => exact made ▸ settings_renderNow s
  | same _ made => exact congrArg settings made
  | edit _ _ made | observe _ _ _ made | type _ _ _ made | direct _ _ _ made | advance _ _ _ made
  | publish _ _ made => exact made ▸ rfl

theorem settings_run (s : Session) (acts : List Act) : (s.run acts).settings = s.settings := by
  induction acts generalizing s with
  | nil => rfl
  | cons a acts ih => exact (ih (s.act a)).trans (settings_act s a)

theorem isDue_iff : s.isDue = true ↔
    ∃ time, s.changedAt = some time ∧ s.settings.debounceMs ≤ s.now - time := by
  unfold isDue
  cases s.changedAt with
  | none => simp
  | some changedAt => simp

/-- Writing a tree leaves it the markup that it had. -/
theorem render_renderNow (s : Session) (width : Nat) :
    Document.render s.renderNow.1.tree width = Document.render s.tree width := by
  have anchored (rendered : Document.Rendered) :
      (anchor s.tree rendered).nodes.map Node.markupParts = s.tree.nodes.map Node.markupParts := by
    refine (anchor_keeps (fun _ _ => rfl) (fun n f same => ?_) s.tree rendered).nodes
    have each : (Attribute.markupParts ∘ f) = Attribute.markupParts := by
      funext a
      have kept : (f a).unplaced.markupParts = a.unplaced.markupParts :=
        congrArg Attribute.markupParts (same a)
      exact kept
    rw [Node.markupParts, List.map_map, each]
    rfl
  rcases renderNow_cases s with ⟨shown, tree, -, -, -, -, made⟩ | ⟨-, made⟩
  · rw [made]
    exact Document.render_congr (tree ▸ anchored _) width
  · rw [made]

/-! ## One act of a burst -/

/-- What an act does that neither touches the text nor opens a pass: it changes the tree, or
leaves markup and text as they are, or writes what has come to rest. -/
inductive Beat (s : Session) (a : Act) : Prop where
  | changed :
    s.happenings a = [.changed] → s.polled a = [] → (s.act a).editor = s.editor → Beat s a
  | silent :
    s.happenings a = [] → s.polled a = [] → (s.act a).editor = s.editor →
      (∀ width, Document.render (s.act a).tree width = Document.render s.tree width) → Beat s a
  | written {time : Nat} :
    s.changedAt = some time → s.settings.debounceMs ≤ s.now - time → s.happenings a = [.written] →
      s.polled a = [Document.render s.tree s.settings.indentWidth] →
      (s.act a).editor.text = (Document.render s.tree s.settings.indentWidth).text →
      (s.act a).editor.writes = s.editor.writes ++
        (if s.editor.text = (Document.render s.tree s.settings.indentWidth).text then []
          else [.treeToText]) →
      (∀ width, Document.render (s.act a).tree width = Document.render s.tree width) → Beat s a

theorem beat_edit (idle : s.coordinator.isIdle = true) (distinct : s.tree.Distinct) (edit : Edit) :
    s.Beat (.edit edit) := by
  have accepts : s.coordinator.acceptsTreeChanges = true := by
    have idle : s.coordinator.direction = .idle := by simpa [Coordinator.isIdle] using idle
    simp [Coordinator.acceptsTreeChanges, idle]
  have editor : (s.act (.edit edit)).editor = s.editor := by
    simp only [act, Session.edit]
    cases s.tree.perform edit <;> rfl
  have nodes : (s.act (.edit edit)).tree.nodes = (s.tree.edit edit).nodes := by
    simp only [act, Session.edit, Tree.edit]
    cases s.tree.perform edit <;> rfl
  rcases Tree.edit_counts distinct edit with more | ⟨revision, same⟩
  · refine .changed ?_ rfl editor
    exact if_pos ⟨by omega, accepts⟩
  · refine .silent (if_neg fun changed => changed.1 revision) rfl editor fun width => ?_
    apply Document.render_congr
    rw [nodes]
    exact same

theorem beat_observe (s : Session) (id : NodeId) : s.Beat (.observe id) := by
  refine .silent rfl rfl ?_ fun width => ?_
  · simp only [act, observe]
    cases s.tree.observe id <;> rfl
  · apply Document.render_congr
    simp only [act, observe]
    cases observed : s.tree.observe id with
    | error err => rfl
    | ok t => exact (Tree.observe_keeps (fun _ _ => rfl) observed).nodes

theorem beat_poll (idle : s.coordinator.isIdle = true) : s.Beat .poll := by
  by_cases due : s.isDue = true
  · obtain ⟨time, waits, rests⟩ := isDue_iff.mp due
    obtain ⟨text, writes, -⟩ := renderNow_idle idle
    have polled := s.poll_eq
    rw [if_pos due] at polled
    have after : s.act .poll = s.renderNow.1 := congrArg Prod.fst polled
    refine .written waits rests ?_ ?_ (after ▸ text) (after ▸ writes) fun width => ?_
    · rw [happenings, if_pos due, writing, if_pos (.inr idle)]
    · rw [Session.polled, polled]
      rfl
    · rw [after]
      exact render_renderNow s width
  · have polled := s.poll_eq
    rw [if_neg due] at polled
    have after : s.act .poll = s := congrArg Prod.fst polled
    refine .silent ?_ ?_ (by rw [after]) fun width => by rw [after]
    · rw [happenings, if_neg due]
    · rw [Session.polled, polled]
      rfl

theorem beat_act (idle : s.coordinator.isIdle = true) (distinct : s.tree.Distinct) {a : Act}
    (burst : a.isBurst = true) : s.Beat a := by
  cases a with
  | edit edit => exact beat_edit idle distinct edit
  | observe id => exact beat_observe s id
  | advance ms => exact .silent rfl rfl rfl fun _ => rfl
  | poll => exact beat_poll idle
  | _ => cases burst

theorem idle_act (idle : s.coordinator.isIdle = true) {a : Act} (burst : a.isBurst = true) :
    (s.act a).coordinator.isIdle = true := by
  cases s.act_outcome a with
  | write _ _ made => exact made ▸ (renderNow_idle idle).2.2
  | direct _ asked _ _ => obtain ⟨_, rfl⟩ | rfl := asked <;> cases burst
  | read asked _ _ => obtain ⟨rfl, -⟩ | rfl := asked <;> cases burst
  | same _ made | edit _ _ made | observe _ _ _ made | type _ _ _ made | advance _ _ _ made
  | publish _ _ made =>
    rw [made]
    exact idle

/-! ## Time -/

theorem now_le_act (s : Session) (a : Act) : s.now ≤ (s.act a).now := by
  have wrote (s : Session) : s.renderNow.1.now = s.now := by
    rcases renderNow_cases s with ⟨shown, -, -, now, -, -, made⟩ | ⟨-, made⟩
    · rw [made]
      exact now
    · rw [made]
  have reread (s : Session) : s.reparse.now = s.now := by
    cases idle : s.coordinator.isIdle with
    | false =>
      rw [reparse_busy s idle]
      rfl
    | true =>
      rw [reparse_idle s idle, publish, readText_eq]
      dsimp only
      split
      · rfl
      · split <;> rfl
  cases s.act_outcome a with
  | advance ms _ _ made => exact made ▸ Nat.le_add_right _ _
  | read _ _ made => exact made ▸ (reread s).ge
  | write _ _ made => exact made ▸ (wrote s).ge
  | same _ made => exact (congrArg now made).ge
  | edit _ _ made | observe _ _ _ made | type _ _ _ made | direct _ _ _ made | publish _ _ made =>
    exact made ▸ Nat.le_refl _

theorem now_le_of_mem_timeline {acts : List Act} {e : Nat × Happening} (h : e ∈ s.timeline acts) :
    s.now ≤ e.1 := by
  induction acts generalizing s with
  | nil => cases h
  | cons a acts ih =>
    rcases List.mem_append.mp h with here | later
    · obtain ⟨happening, -, rfl⟩ := List.mem_map.mp here
      exact Nat.le_refl _
    · exact (now_le_act s a).trans (ih later)

theorem now_le_changeTimes {acts : List Act} {time : Nat} (h : time ∈ s.changeTimes acts) :
    s.now ≤ time := by
  obtain ⟨e, he, same⟩ := List.mem_filterMap.mp h
  split at same
  · cases same
    exact now_le_of_mem_timeline he
  · cases same

/-! ## Bursts -/

theorem changeTimes_cons (a : Act) (acts : List Act) : s.changeTimes (a :: acts) =
    ((s.happenings a).filterMap fun h => if h = .changed then some s.now else none) ++
      (s.act a).changeTimes acts := by
  rw [changeTimes, timeline, List.filterMap_append, List.filterMap_map]
  rfl

/-- What lasts through a burst. -/
structure Steady (s : Session) : Prop where
  idle : s.coordinator.isIdle = true
  tree : s.tree.Sound ∧ s.tree.Current

theorem Steady.distinct (h : s.Steady) : s.tree.Distinct :=
  ⟨h.tree.1.nodup, fun n hn => (h.tree.2.fitted n hn).names⟩

theorem Steady.act (h : s.Steady) {a : Act} (burst : a.isBurst = true) : (s.act a).Steady :=
  ⟨idle_act h.idle burst, Tree.current_lasting.act a h.tree⟩

/-- Once nothing is waiting and nothing changes any more, nothing is written. -/
theorem Steady.run_settled (h : s.Steady) (settled : s.changedAt = none) {acts : List Act}
    (burst : ∀ a ∈ acts, a.isBurst = true) (unchanged : s.changeTimes acts = []) :
    s.renders acts = [] ∧ (s.run acts).editor = s.editor ∧ (s.run acts).changedAt = none ∧
      ∀ width, Document.render (s.run acts).tree width = Document.render s.tree width := by
  induction acts generalizing s with
  | nil => exact ⟨rfl, rfl, settled, fun _ => rfl⟩
  | cons a acts ih =>
    obtain ⟨first, rest⟩ := List.forall_mem_cons.mp burst
    rw [changeTimes_cons] at unchanged
    have waits := waiting_act s a
    cases beat_act h.idle h.distinct first with
    | changed happens =>
      rw [happens] at unchanged
      cases unchanged
    | silent happens polled editor same =>
      rw [happens, settled] at waits
      rw [happens] at unchanged
      obtain ⟨none, editor', settled', same'⟩ := ih (h.act first) waits rest unchanged
      refine ⟨?_, editor'.trans editor, settled', fun width => (same' width).trans (same width)⟩
      rw [renders, polled, none]
      rfl
    | written waiting =>
      rw [settled] at waiting
      cases waiting

/-- A burst so far has been written once, or its last change is still waiting. -/
theorem Steady.run_burst (h : s.Steady) {acts : List Act} (burst : ∀ a ∈ acts, a.isBurst = true)
    (gaps : (s.changedAt.toList ++ s.changeTimes acts).IsChain fun t t' =>
      t' - t < s.settings.debounceMs) :
    let final := Document.render (s.run acts).tree s.settings.indentWidth
    (s.renders acts = [] ∧ (s.run acts).editor = s.editor ∧
        (s.run acts).changedAt = (s.changedAt.toList ++ s.changeTimes acts).getLast?) ∨
      s.renders acts = [final] ∧ (s.run acts).editor.text = final.text ∧
        (s.run acts).editor.writes =
          s.editor.writes ++ if s.editor.text = final.text then [] else [.treeToText] := by
  induction acts generalizing s with
  | nil =>
    left
    refine ⟨rfl, rfl, ?_⟩
    rw [changeTimes, timeline, List.filterMap_nil, List.append_nil]
    cases at? : s.changedAt with
    | none => exact at?
    | some time => exact at?
  | cons a acts ih =>
    obtain ⟨first, rest⟩ := List.forall_mem_cons.mp burst
    have settings := settings_act s a
    have waits := waiting_act s a
    rw [changeTimes_cons] at gaps ⊢
    have later := ih (h.act first) rest
    rw [settings] at later
    cases beat_act h.idle h.distinct first with
    | changed happens polled editor =>
      rw [happens] at waits gaps ⊢
      have waits : (s.act a).changedAt = some s.now := waits
      rw [waits, editor] at later
      have none : s.renders (a :: acts) = (s.act a).renders acts := by rw [renders, polled]; rfl
      have last : (s.changedAt.toList ++ ((some s.now).toList ++ (s.act a).changeTimes acts)).getLast? =
          ((some s.now).toList ++ (s.act a).changeTimes acts).getLast? :=
        List.getLast?_append_of_ne_nil _ (List.cons_ne_nil _ _)
      rw [none]
      have soon := later gaps.right_of_append
      rw [← last] at soon
      exact soon
    | silent happens polled editor same =>
      rw [happens] at waits gaps ⊢
      have waits : (s.act a).changedAt = s.changedAt := waits
      rw [waits, editor] at later
      have none : s.renders (a :: acts) = (s.act a).renders acts := by rw [renders, polled]; rfl
      rw [none]
      exact later gaps
    | @written time waiting due happens polled text writes same =>
      right
      rw [happens] at waits gaps
      have waits : (s.act a).changedAt = none := waits
      have last : (s.act a).changeTimes acts = [] := by
        cases times : (s.act a).changeTimes acts with
        | nil => rfl
        | cons next more =>
          -- The next change would come later than the gap allows.
          rw [waiting, times] at gaps
          have soon := (List.isChain_cons_cons.mp gaps).1
          have late : s.now ≤ next := by
            have here : next ∈ (s.act a).changeTimes acts := times ▸ List.mem_cons_self
            exact (now_le_act s a).trans (now_le_changeTimes here)
          omega
      obtain ⟨none, editor', -, same'⟩ := (h.act first).run_settled waits rest last
      have final : Document.render (s.run (a :: acts)).tree s.settings.indentWidth =
          Document.render s.tree s.settings.indentWidth := (same' _).trans (same _)
      rw [final]
      refine ⟨?_, ?_, ?_⟩
      · rw [renders, polled, none]
        rfl
      · exact (congrArg Editor.text editor').trans text
      · exact (congrArg Editor.writes editor').trans writes

/-- A burst that is polled late enough after its last change is written once, as it ends. -/
theorem Steady.burst_renders (h : s.Steady) (settled : s.isRenderPending = false)
    {before after : List Act} (burst : ∀ a ∈ before ++ .poll :: after, a.isBurst = true)
    (gaps : (s.changeTimes (before ++ .poll :: after)).IsChain fun t t' =>
      t' - t < s.settings.debounceMs)
    {last : Nat} (ends : (s.changeTimes before).getLast? = some last)
    (late : s.settings.debounceMs ≤ (s.run before).now - last) :
    let final := Document.render (s.run (before ++ .poll :: after)).tree s.settings.indentWidth
    s.renders (before ++ .poll :: after) = [final] ∧
      (s.run (before ++ .poll :: after)).editor.text = final.text ∧
      (s.run (before ++ .poll :: after)).editor.writes =
        s.editor.writes ++ if s.editor.text = final.text then [] else [.treeToText] := by
  have waiting : s.changedAt = none := by
    cases at? : s.changedAt with
    | none => rfl
    | some time =>
      rw [isRenderPending, at?] at settled
      cases settled
  have gaps' : (s.changedAt.toList ++ s.changeTimes (before ++ .poll :: after)).IsChain fun t t' =>
      t' - t < s.settings.debounceMs := by
    rw [waiting]
    exact gaps
  rcases h.run_burst burst gaps' with ⟨none, -⟩ | once
  · -- Nothing was written so far, so the poll finds the last change still waiting.
    exfalso
    obtain ⟨quiet, -⟩ := List.forall_mem_append.mp burst
    rw [renders_append, List.append_eq_nil_iff] at none
    rw [changeTimes_append] at gaps
    have gaps' : (s.changedAt.toList ++ s.changeTimes before).IsChain fun t t' =>
        t' - t < s.settings.debounceMs := by
      rw [waiting]
      exact (List.isChain_append.mp gaps).1
    rcases h.run_burst quiet gaps' with ⟨-, -, waits⟩ | ⟨some, -⟩
    · rw [waiting, Option.toList_none, List.nil_append, ends] at waits
      have due : (s.run before).isDue = true := by
        rw [isDue_iff, settings_run]
        exact ⟨last, waits, late⟩
      have written := none.2
      rw [renders, polled, poll_eq, if_pos due] at written
      cases written
    · rw [some] at none
      cases none.1
  · exact once

/-- Debounced writing, for every run. A poll writes exactly when the last of all that happened is a
change of the tree and it is `debounceMs` or more ago; a reading, a writing or a refused pass is
later than what it settles, and the default document in the place of a blank text comes after
the reading. What the poll writes is the markup of the tree, which the editor shows from then
on, and nothing more is written until the tree changes again. A burst of changes, each less than
`debounceMs` after the one before, is written once, and as it ends. -/
theorem poll_debounced (editor : Editor) (settings : Settings) {desk : Option Desk} {tree : Tree}
    (reached : tree.Reached desk) (acts : List Act) :
    let start : Session := { editor, settings, tree }
    let s := start.run acts
    (s.poll.2.isSome = true ↔ ∃ time, (start.timeline acts).getLast? = some (time, .changed) ∧
      settings.debounceMs ≤ s.now - time) ∧
    (s.coordinator.isIdle = true → ∀ rendered, s.poll.2 = some rendered →
      rendered = Document.render s.tree settings.indentWidth ∧
      s.poll.1.editor.text = rendered.text ∧
      Document.render s.poll.1.tree settings.indentWidth = rendered ∧
      s.poll.1.editor.writes =
        s.editor.writes ++ (if s.editor.text = rendered.text then [] else [.treeToText]) ∧
      ∀ later, .changed ∉ s.poll.1.history later → (s.poll.1.run later).poll.2 = none) ∧
    (s.coordinator.isIdle = true → s.isRenderPending = false →
      ∀ before after, (∀ a ∈ before ++ .poll :: after, a.isBurst = true) →
        (s.changeTimes (before ++ .poll :: after)).IsChain (fun t t' => t' - t < settings.debounceMs) →
        (∃ last, (s.changeTimes before).getLast? = some last ∧
          settings.debounceMs ≤ (s.run before).now - last) →
        let ended := s.run (before ++ .poll :: after)
        let final := Document.render ended.tree settings.indentWidth
        s.renders (before ++ .poll :: after) = [final] ∧ ended.editor.text = final.text ∧
          ended.editor.writes =
            s.editor.writes ++ if s.editor.text = final.text then [] else [.treeToText]) := by
  intro start s
  have same : s.settings = settings := settings_run start acts
  have tree : s.tree.Sound ∧ s.tree.Current :=
    Tree.current_lasting.run acts (s := start) ⟨reached.sound, reached.current⟩
  refine ⟨?_, ?_, ?_⟩
  · rw [poll_eq]
    have due : s.isDue = true ↔ ∃ time, (start.timeline acts).getLast? = some (time, .changed) ∧
        settings.debounceMs ≤ s.now - time := by
      rw [isDue_iff, same, waiting_run]
      simp only [← latest_eq_some]
      rfl
    rw [← due]
    split
    · rename_i isDue
      simp [isDue]
    · rename_i early
      simp [early]
  · intro idle rendered polled
    have due : s.isDue = true := by
      rw [poll_eq] at polled
      by_contra early
      rw [if_neg early] at polled
      cases polled
    have poll := s.poll_eq
    rw [if_pos due, same] at poll
    rw [poll] at polled ⊢
    cases polled
    obtain ⟨text, writes, -⟩ := renderNow_idle idle
    rw [same] at text writes
    refine ⟨rfl, text, render_renderNow s _, writes, fun later unchanged => ?_⟩
    have quiet : s.renderNow.1.changedAt = none := changedAt_renderNow s
    have early : (s.renderNow.1.run later).isDue ≠ true := by
      intro isDue
      obtain ⟨time, waits, -⟩ := isDue_iff.mp isDue
      rw [waiting_run, quiet, latest_eq_some] at waits
      apply unchanged
      rw [← map_snd_timeline]
      exact List.mem_map.mpr ⟨_, List.mem_of_getLast? waits, rfl⟩
    dsimp only
    rw [poll_eq, if_neg early]
  · rintro idle settled before after burst gaps ⟨last, ends, late⟩
    have steady : s.Steady := ⟨idle, tree⟩
    rw [← same] at gaps late ⊢
    exact steady.burst_renders settled burst gaps ends late

/-- Two changes ten milliseconds apart, and a toggle in between that is none. The first poll comes
too early, the second one writes, and the third finds nothing to write. -/
theorem poll_debounced_run :
    let s : Session := { editor := { text := "" }, settings := {}, tree := .empty }
    let before : List Act := [.edit .reset, .advance 10, .edit (.toggle ⟨0⟩), .poll,
      .edit (.setAttribute ⟨1⟩ "name" "account"), .advance 30]
    let rested := s.run before
    let ended := s.run (before ++ [.poll, .poll])
    rested.poll.2.isSome = true ∧
      (∀ rendered, rested.poll.2 = some rendered → rested.poll.1.poll.2 = none) ∧
      s.renders (before ++ [.poll, .poll]) = [Document.render ended.tree 2] ∧
      ended.editor.text = (Document.render ended.tree 2).text := by
  intro s before rested ended
  have reached : Tree.Reached none .empty := .new
  have debounced := poll_debounced { text := "" } {} reached before
  have due : rested.poll.2.isSome = true := by
    apply debounced.1.mpr
    refine ⟨10, ?_, ?_⟩
    · decide +kernel
    · decide +kernel
  have idle : rested.coordinator.isIdle = true := by decide +kernel
  have silent (rendered : Document.Rendered) (polled : rested.poll.2 = some rendered) :
      rested.poll.1.poll.2 = none := by
    have later := (debounced.2.1 idle rendered polled).2.2.2.2 [] (by simp [history])
    rw [run_nil] at later
    exact later
  have started := (poll_debounced { text := "" } {} reached []).2.2
  rw [run_nil] at started
  have burst : ∀ a ∈ before ++ Act.poll :: [.poll], a.isBurst = true := by decide
  have times : s.changeTimes (before ++ Act.poll :: [.poll]) = [0, 10] := by decide +kernel
  have gaps : ([0, 10] : List Nat).IsChain fun t t' => t' - t < 30 := by decide
  have ends : (s.changeTimes before).getLast? = some 10 := by decide +kernel
  have late : 30 ≤ (s.run before).now - 10 := by decide +kernel
  obtain ⟨once, shown, -⟩ := started rfl rfl before [.poll] burst (times.symm ▸ gaps) ⟨10, ends, late⟩
  refine ⟨due, silent, ?_, ?_⟩
  · rw [once]
  · rw [shown]

end Session

end QueryMarkup
