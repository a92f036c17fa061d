import Mathlib.Data.List.Infix
import QueryMarkup.Proofs.Sync.Pending

/-!
# Passes that exclude one another

A session, a builder that is fed token by token and the readers of whole documents all ask
one coordinator. A pass is open as long as its guard is alive. As long as no pass is opened
that has no direction, at most one guard is alive and the coordinator shows its direction.
-/
namespace QueryMarkup

/-- What shares one coordinator, which is the session's. Every handle to it is the same. -/
structure Shared where
  session : Session
  builder : Builder
  /-- What the builder and the readers of whole documents fill. -/
  tree : Tree
  /-- The passes whose guards are alive, the latest first. -/
  guards : List Direction := []

/-- What is done by any of those who share a coordinator. -/
inductive Turn where
  | enter (direction : Direction)
  /-- Drops one of the guards that are alive. -/
  | drop (index : Nat)
  | feed (source : String) (token : Token)
  /-- Reads a whole document into the tree, in a pass of its own. -/
  | parse (source : String) (tokens : List Token)
  /-- Changes the tree that is filled. -/
  | edit (edit : Edit)
  /-- Does something with the session. Its own passes are guarded like all others. -/
  | act (act : Act)

namespace Shared

def coordinator (w : Shared) : Coordinator := w.session.coordinator

def direction (w : Shared) : Direction := w.coordinator.direction

def enter (w : Shared) (direction : Direction) : Shared :=
  match w.coordinator.enter direction with
  | .ok coordinator =>
    { w with session := { w.session with coordinator }, guards := direction :: w.guards }
  | .error _ => w

def drop (w : Shared) (index : Nat) : Shared :=
  if index < w.guards.length then
    { w with
      session := { w.session with coordinator := w.coordinator.release }
      guards := w.guards.eraseIdx index }
  else w

/-- The pass of a reader is over when the document has been read. -/
def parse (w : Shared) (source : String) (tokens : List Token) : Shared :=
  match w.coordinator.enter .textToTree with
  | .error _ => w
  | .ok reading =>
    { w with
      session := { w.session with coordinator := reading.release }
      tree := Document.orDefault
        (Document.readTokens w.tree tokens source w.session.settings).1 }

def step (w : Shared) : Turn → Shared
  | .enter direction => w.enter direction
  | .drop index => w.drop index
  | .feed source token =>
    let (builder, tree) := w.builder.feed w.tree w.coordinator source token
    { w with builder, tree }
  | .parse source tokens => w.parse source tokens
  | .edit edit => { w with tree := w.tree.edit edit }
  | .act (.enter direction) => w.enter direction
  | .act .leave => w.drop 0
  | .act act => { w with session := w.session.act act }

def run (w : Shared) (turns : List Turn) : Shared := turns.foldl step w

end Shared

namespace Coordinator

variable {c : Coordinator}

theorem isIdle_iff : c.isIdle = true ↔ c = ⟨.idle⟩ := by
  cases c
  simp [isIdle]

theorem enter_eq_ok {direction : Direction} {entered : Coordinator} :
    c.enter direction = .ok entered ↔ c = ⟨.idle⟩ ∧ entered = ⟨direction⟩ := by
  unfold enter
  rw [← isIdle_iff]
  by_cases idle : c.isIdle = true
  · simp [idle, eq_comm]
  · simp [idle]

theorem enter_busy (busy : c.direction ≠ .idle) (direction : Direction) :
    c.enter direction = .error ⟨c.direction⟩ := by
  refine if_neg fun idle => busy ?_
  rw [isIdle_iff.1 idle]

end Coordinator

/-! ## What the session's own passes leave -/

namespace Session

/-- A pass of the session is over when the session is done with it. -/
theorem coordinator_reparse (s : Session) : s.reparse.coordinator = s.coordinator := by
  cases idle : s.coordinator.isIdle with
  | false =>
    rw [reparse_busy s idle]
    rfl
  | true =>
    rw [reparse_idle s idle, Coordinator.isIdle_iff.1 idle]
    exact (readText_editor _).2

theorem coordinator_renderNow (s : Session) : s.renderNow.1.coordinator = s.coordinator := by
  unfold renderNow
  dsimp only
  split
  · rfl
  · cases entered : s.coordinator.enter .treeToText with
    | error busy => rfl
    | ok writing => exact (Coordinator.enter_eq_ok.1 entered).1.symm

theorem coordinator_act (s : Session) (a : Act) (enters : ∀ direction, a ≠ .enter direction)
    (leaves : a ≠ .leave) : (s.act a).coordinator = s.coordinator := by
  cases s.act_outcome a with
  | direct _ asked _ _ =>
    obtain ⟨direction, asked⟩ | asked := asked
    · exact absurd asked (enters direction)
    · exact absurd asked leaves
  | read _ _ made => exact made ▸ coordinator_reparse s
  | write _ _ made => exact made ▸ coordinator_renderNow s
  | same _ made => exact congrArg coordinator made
  | edit _ _ made | observe _ _ _ made | type _ _ _ made | advance _ _ _ made | publish _ _ made =>
    exact made ▸ rfl

/-- Nothing that a session does during a pass that reads is a change to be written. -/
theorem changed_notMem_happenings {s : Session} (reading : s.coordinator = ⟨.textToTree⟩) (a : Act) :
    .changed ∉ s.happenings a := by
  have quiet (tree : Tree) : s.becoming tree = [] := by
    refine if_neg fun changed => ?_
    rw [reading] at changed
    cases changed.2
  have refused : s.reading = [.refused] := by
    refine if_neg fun idle => ?_
    rw [reading] at idle
    cases idle
  have written : .changed ∉ s.writing := by
    unfold writing
    split <;> simp
  cases s.act_outcome a with
  | edit _ happens _ => simp [happens, quiet]
  | read _ happens _ => simp [happens, refused]
  | write _ happens _ => exact happens ▸ written
  | same still _ | observe _ still _ _ | type _ _ still _ | direct _ _ still _ | advance _ _ still _
  | publish _ still _ => simp [still]

end Session

/-- Without a change nothing starts to wait. -/
theorem pendingAfter_le {pending : Bool} {history : List Happening} (calm : .changed ∉ history)
    (after : pendingAfter pending history = true) : pending = true := by
  induction history generalizing pending with
  | nil => exact after
  | cons h history ih =>
    rw [List.mem_cons, not_or] at calm
    have settled := ih calm.2 after
    exact absurd (of_decide_eq_true settled).symm calm.1

namespace Shared

variable {w : Shared}

/-! ## One turn -/

/-- One pass is open at most, and it has the direction that is shown. -/
inductive Exclusive (w : Shared) : Prop where
  | open (direction : Direction) (directed : direction ≠ .idle) (guards : w.guards = [direction])
      (coordinator : w.coordinator = ⟨direction⟩)
  | closed (guards : w.guards = []) (coordinator : w.coordinator = ⟨.idle⟩)

theorem Exclusive.congr {v : Shared} (h : w.Exclusive) (guards : v.guards = w.guards)
    (coordinator : v.coordinator = w.coordinator) : v.Exclusive := by
  cases h with
  | «open» direction directed alone shown =>
    exact .open direction directed (guards.trans alone) (coordinator.trans shown)
  | closed none shown => exact .closed (guards.trans none) (coordinator.trans shown)

theorem Exclusive.enter (h : w.Exclusive) {direction : Direction}
    (directed : .idle ∉ (w.enter direction).guards) : (w.enter direction).Exclusive := by
  unfold Shared.enter at directed ⊢
  cases entered : w.coordinator.enter direction with
  | error busy => exact h
  | ok coordinator =>
    obtain ⟨idle, rfl⟩ := Coordinator.enter_eq_ok.1 entered
    rw [entered] at directed
    have somewhere : direction ≠ .idle := fun nowhere => directed (by simp [nowhere])
    cases h with
    | «open» other directed _ shown =>
      rw [shown] at idle
      exact absurd (congrArg Coordinator.direction idle) directed
    | closed none _ => exact .open direction somewhere (congrArg (direction :: ·) none) rfl

theorem Exclusive.drop (h : w.Exclusive) (index : Nat) : (w.drop index).Exclusive := by
  unfold Shared.drop
  split
  · rename_i bound
    cases h with
    | «open» direction _ alone _ =>
      rw [alone, List.length_singleton] at bound
      obtain rfl : index = 0 := by omega
      refine .closed ?_ rfl
      dsimp only
      rw [alone]
      rfl
    | closed none _ =>
      rw [none] at bound
      exact absurd bound (Nat.not_lt_zero index)
  · exact h

/-- The pass of a reader is over when it is done. -/
theorem coordinator_parse (w : Shared) (source : String) (tokens : List Token) :
    (w.parse source tokens).coordinator = w.coordinator ∧
      (w.parse source tokens).guards = w.guards := by
  unfold parse
  cases entered : w.coordinator.enter .textToTree with
  | error busy => exact ⟨rfl, rfl⟩
  | ok reading => exact ⟨(Coordinator.enter_eq_ok.1 entered).1.symm, rfl⟩

theorem Exclusive.step (h : w.Exclusive) {turn : Turn} (directed : .idle ∉ (w.step turn).guards) :
    (w.step turn).Exclusive := by
  cases turn with
  | enter direction => exact h.enter directed
  | drop index => exact h.drop index
  | feed source token => exact h.congr rfl rfl
  | parse source tokens =>
    obtain ⟨coordinator, guards⟩ := coordinator_parse w source tokens
    exact h.congr guards coordinator
  | edit edit => exact h.congr rfl rfl
  | act act =>
    cases act with
    | enter direction => exact h.enter directed
    | leave => exact h.drop 0
    | _ => exact h.congr rfl (Session.coordinator_act _ _ (by simp) (by simp))

/-! ## What an open pass keeps out -/

/-- While a tree is written a fed token is only counted. -/
theorem feed_writing (writing : w.coordinator = ⟨.treeToText⟩) (source : String) (token : Token) :
    w.step (.feed source token) =
      { w with builder := { w.builder with ignored := w.builder.ignored + 1 } } := by
  simp only [step, writing]
  rfl

theorem parse_busy (busy : w.direction ≠ .idle) (source : String) (tokens : List Token) :
    w.step (.parse source tokens) = w := by
  simp only [step, parse, Coordinator.enter_busy busy]

theorem tree_reparse_busy {s : Session} (busy : s.coordinator.direction ≠ .idle) :
    s.reparse.tree = s.tree := by
  have idle : s.coordinator.isIdle = false := by simpa [Coordinator.isIdle] using busy
  rw [Session.reparse_busy s idle]
  rfl

/-- While a text is read nothing begins to wait to be written. -/
theorem pending_reading (reading : w.coordinator = ⟨.textToTree⟩) (turn : Turn)
    (pending : (w.step turn).session.isRenderPending = true) :
    w.session.isRenderPending = true := by
  have entering (direction : Direction) :
      (w.enter direction).session.isRenderPending = w.session.isRenderPending := by
    unfold enter
    split <;> rfl
  have dropping (index : Nat) :
      (w.drop index).session.isRenderPending = w.session.isRenderPending := by
    unfold drop
    split <;> rfl
  have acting (a : Act) (after : (w.session.act a).isRenderPending = true) :
      w.session.isRenderPending = true := by
    rw [Session.isRenderPending_act] at after
    exact pendingAfter_le (Session.changed_notMem_happenings reading a) after
  cases turn with
  | enter direction => exact (entering direction).symm.trans pending
  | drop index => exact (dropping index).symm.trans pending
  | feed source token => exact pending
  | parse source tokens =>
    rwa [parse_busy (by simp [direction, reading])] at pending
  | edit edit => exact pending
  | act act =>
    cases act with
    | enter direction => exact (entering direction).symm.trans pending
    | leave => exact (dropping 0).symm.trans pending
    | _ => exact acting _ pending

/-! ## Runs -/

theorem Exclusive.run {turns : List Turn} (h : w.Exclusive)
    (directed : ∀ earlier, earlier <+: turns → .idle ∉ (w.run earlier).guards) :
    (w.run turns).Exclusive := by
  induction turns generalizing w with
  | nil => exact h
  | cons turn turns ih =>
    have first : .idle ∉ (w.step turn).guards :=
      directed [turn] (List.cons_prefix_cons.2 ⟨rfl, List.nil_prefix⟩)
    refine ih (h.step first) fun earlier begins => ?_
    exact directed (turn :: earlier) (List.cons_prefix_cons.2 ⟨rfl, begins⟩)

/-- After every run in which no guard was ever alive for a pass without a direction: a guard that
is alive is the only one, the coordinator shows its direction, and no pass can be opened beside it.
While it is for writing the text, neither fed tokens nor whole documents are read. While it is for
reading the text, no turn makes a write pending. Without a guard no pass is running. -/
theorem passes_exclusive (session : Session) (builder : Builder) (tree : Tree) (turns : List Turn)
    (idle : session.coordinator = {})
    (directed : ∀ earlier, earlier <+: turns →
      .idle ∉ (run { session, builder, tree } earlier).guards) :
    let w := run { session, builder, tree } turns
    (∀ direction ∈ w.guards, w.guards = [direction] ∧ w.direction = direction ∧
      ∀ other, w.coordinator.enter other = .error ⟨direction⟩) ∧
    (.treeToText ∈ w.guards → ∀ source,
      (∀ token, w.step (.feed source token) =
        { w with builder := { w.builder with ignored := w.builder.ignored + 1 } }) ∧
      (∀ tokens, w.step (.parse source tokens) = w) ∧
      (w.step (.act .reparse)).session.tree = w.session.tree) ∧
    (.textToTree ∈ w.guards → ∀ turn, (w.step turn).session.isRenderPending = true →
      w.session.isRenderPending = true) ∧
    (w.guards = [] → w.direction = .idle) := by
  intro w
  have exclusive : w.Exclusive := by
    refine Exclusive.run ?_ directed
    exact .closed rfl idle
  have shown (direction : Direction) (alive : direction ∈ w.guards) :
      direction ≠ .idle ∧ w.guards = [direction] ∧ w.coordinator = ⟨direction⟩ := by
    cases exclusive with
    | «open» only directed alone shown =>
      rw [alone, List.mem_singleton] at alive
      subst alive
      exact ⟨directed, alone, shown⟩
    | closed none _ =>
      rw [none] at alive
      cases alive
  refine ⟨fun direction alive => ?_, fun alive source => ?_, fun alive => ?_, fun none => ?_⟩
  · obtain ⟨directed, alone, shows⟩ := shown direction alive
    refine ⟨alone, congrArg Coordinator.direction shows, fun other => ?_⟩
    rw [shows]
    exact Coordinator.enter_busy directed other
  · obtain ⟨directed, -, shows⟩ := shown .treeToText alive
    have busy : w.direction ≠ .idle := by
      rw [direction, shows]
      exact directed
    exact ⟨feed_writing shows source, parse_busy busy source, tree_reparse_busy busy⟩
  · exact pending_reading (shown .textToTree alive).2.2
  · cases exclusive with
    | «open» only _ alone _ =>
      rw [none] at alone
      cases alone
    | closed _ shows => exact congrArg Coordinator.direction shows

/-- A host writes, is refused a pass for reading, and reads when it is done. -/
theorem passes_exclusive_run :
    let start : Shared :=
      { session := { editor := { text := "" }, settings := {}, tree := .empty }
        builder := { limit := 8 }, tree := .empty }
    let w := start.run [.act (.edit .reset), .enter .treeToText, .enter .idle, .parse "" [], .drop 0,
      .enter .textToTree]
    w.direction = .textToTree ∧ w.tree.isEmpty = true := by
  intro start w
  have guards : w.guards = [.textToTree] := by decide +kernel
  have directed : ∀ earlier ∈ [Turn.act (.edit .reset), .enter .treeToText, .enter .idle,
      .parse "" [], .drop 0, .enter .textToTree].inits, .idle ∉ (start.run earlier).guards := by
    decide +kernel
  obtain ⟨alone, -, -, -⟩ := passes_exclusive start.session start.builder start.tree _ rfl
    fun earlier begins => directed earlier ((List.mem_inits _ _).2 begins)
  have alive : Direction.textToTree ∈ w.guards := by simp [guards]
  exact ⟨(alone .textToTree alive).2.1, by decide +kernel⟩

/-- A pass without a direction leaves room for another one. When it ends the other one is
taken for over though its guard is alive, and a document is read while the text is written. -/
theorem passes_overlap :
    let w : Shared := run
      { session := { editor := { text := "" }, settings := {}, tree := .empty }
        builder := { limit := 8 }, tree := .empty } [.enter .idle, .enter .treeToText]
    w.guards = [.treeToText, .idle] ∧ w.direction = .treeToText ∧
    (w.step (.drop 1)).guards = [.treeToText] ∧ (w.step (.drop 1)).direction = .idle ∧
    w.tree.isEmpty = true ∧ ((w.step (.drop 1)).step (.parse "" [])).tree.isEmpty = false := by
  decide +kernel

end Shared

end QueryMarkup
