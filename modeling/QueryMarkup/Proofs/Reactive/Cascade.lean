import Mathlib.Data.List.Nodup
import Mathlib.Logic.Relation
import QueryMarkup.Reactive.Network

/-!
# Cascades of writes

A write sets off other writes, inside each other. Whatever they do, they leave the wiring of the
network as it is but for two things: subscriptions may end, and plain ones may be made, which
write nothing. So what a cell may lead to is known before a write begins, and a cell that the
written one does not lead to keeps its value.
-/
namespace QueryMarkup.Network

open scoped List

/-! ## The wiring -/

/-- The subscriptions to a cell, in the order in which they were made. -/
def subscribers (net : Network) (place : Nat) : List Nat :=
  ((net.cells[place]?).map (·.subscribers)).getD []

/-- The subscriptions that a change of the cell is delivered to. -/
def active (net : Network) (place : Nat) : List Nat := (net.subscribers place).filter net.isAlive

/-- The cells that a subscription may write. -/
def writes (net : Network) (subscription : Nat) : List Nat :=
  match net.callbacks[subscription]? with
  | some (.derive target _) => [target]
  | some (.sum _ target) => [target]
  | some (.note _ source (.clamp _)) => [source]
  | some (.note _ _ (.set cell _ _)) => (net.place? cell).toList
  | _ => []

/-- A change of the one cell may have a subscriber write the other. -/
def Feeds (net : Network) (place target : Nat) : Prop :=
  ∃ i ∈ net.active place, target ∈ net.writes i

/-- A write of the one cell may, by what it sets off, write the other. -/
def Leads (net : Network) : Nat → Nat → Prop := Relation.ReflTransGen net.Feeds

/-- Names are names of cells, and every subscription was made, to one cell only. -/
structure Proper (net : Network) : Prop where
  named : ∀ q ∈ net.names, q.2 < net.cells.length
  known : ∀ p, ∀ i ∈ net.subscribers p, i < net.callbacks.length
  distinct : ∀ p, (net.subscribers p).Nodup
  home : ∀ p q i, i ∈ net.subscribers p → i ∈ net.subscribers q → p = q

/-- What a cascade leaves of the wiring: subscriptions may have ended, and those that were made
are behind the others and do not write. -/
structure Follows (net next : Network) : Prop where
  before : net.Proper
  after : next.Proper
  names : next.names = net.names
  length : next.cells.length = net.cells.length
  callbacks : ∃ more, next.callbacks = net.callbacks ++ more ∧
    ∀ c ∈ more, ∃ label source, c = .note label source .none
  alive : ∀ i < net.callbacks.length, next.isAlive i = true → net.isAlive i = true
  active : ∀ p, ∃ made, next.active p <+ net.active p ++ made ∧ ∀ i ∈ made, net.callbacks.length ≤ i
  kept : ∀ p, ∀ i ∈ net.subscribers p, next.isAlive i = true → i ∈ next.subscribers p

theorem filter_sublist_filter {α : Type} {p q : α → Bool} {l m : List α} (part : l <+ m)
    (fewer : ∀ x ∈ l, p x = true → q x = true) : l.filter p <+ m.filter q := by
  have all : (l.filter p).filter q = l.filter p := by
    rw [List.filter_eq_self]
    intro x hx
    exact fewer x (List.mem_of_mem_filter hx) (List.of_mem_filter hx)
  rw [← all]
  exact (List.filter_sublist.trans part).filter q

namespace Follows

variable {net next last : Network}

theorem refl (h : net.Proper) : Follows net net where
  before := h
  after := h
  names := rfl
  length := rfl
  callbacks := ⟨[], by simp⟩
  alive _ _ live := live
  active p := ⟨[], by simp⟩
  kept _ _ mem _ := mem

theorem callbacks_length (h : Follows net next) : net.callbacks.length ≤ next.callbacks.length := by
  obtain ⟨more, all, -⟩ := h.callbacks
  rw [all, List.length_append]
  omega

theorem trans (h : Follows net next) (g : Follows next last) : Follows net last where
  before := h.before
  after := g.after
  names := g.names.trans h.names
  length := g.length.trans h.length
  callbacks := by
    obtain ⟨more, all, plain⟩ := h.callbacks
    obtain ⟨others, rest, quiet⟩ := g.callbacks
    exact ⟨more ++ others, by rw [rest, all, List.append_assoc], List.forall_mem_append.mpr ⟨plain, quiet⟩⟩
  alive i known live := h.alive i known (g.alive i (Nat.lt_of_lt_of_le known h.callbacks_length) live)
  active p := by
    obtain ⟨made, first, new⟩ := h.active p
    obtain ⟨later, second, newer⟩ := g.active p
    refine ⟨made ++ later, ?_, ?_⟩
    · rw [← List.append_assoc]
      exact second.trans (first.append_right later)
    · exact List.forall_mem_append.mpr
        ⟨new, fun i hi => Nat.le_trans h.callbacks_length (newer i hi)⟩
  kept p i mem live := by
    have known := Nat.lt_of_lt_of_le (h.before.known p i mem) h.callbacks_length
    exact g.kept p i (h.kept p i mem (g.alive i known live)) live

/-- Nothing is made, and at most some subscriptions end. -/
theorem of_fewer (h : net.Proper) (callbacks : next.callbacks = net.callbacks)
    (names : next.names = net.names) (length : next.cells.length = net.cells.length)
    (fewer : ∀ p, next.subscribers p <+ net.subscribers p)
    (alive : ∀ i, next.isAlive i = true → net.isAlive i = true)
    (kept : ∀ p, ∀ i ∈ net.subscribers p, next.isAlive i = true → i ∈ next.subscribers p) :
    Follows net next where
  before := h
  after := {
    named := by
      rw [names, length]
      exact h.named
    known := fun p i mem => callbacks ▸ h.known p i ((fewer p).subset mem)
    distinct := fun p => (h.distinct p).sublist (fewer p)
    home := fun p q i hp hq => h.home p q i ((fewer p).subset hp) ((fewer q).subset hq) }
  names := names
  length := length
  callbacks := ⟨[], by simp [callbacks]⟩
  alive i _ live := alive i live
  active p := by
    refine ⟨[], ?_, by simp⟩
    rw [List.append_nil]
    exact filter_sublist_filter (fewer p) fun i _ live => alive i live
  kept := kept

/-! ### What may be written afterwards -/

theorem callback_eq (h : Follows net next) {i : Nat} (known : i < net.callbacks.length) :
    next.callbacks[i]? = net.callbacks[i]? := by
  obtain ⟨more, all, -⟩ := h.callbacks
  rw [all, List.getElem?_append_left known]

theorem writes_eq (h : Follows net next) {i : Nat} (known : i < net.callbacks.length) :
    next.writes i = net.writes i := by
  have places : next.place? = net.place? := by
    funext name
    rw [place?, h.names]
    rfl
  rw [writes, writes, h.callback_eq known, places]

/-- What was made writes nothing. -/
theorem writes_made (h : Follows net next) {i : Nat} (new : net.callbacks.length ≤ i) :
    next.writes i = [] := by
  obtain ⟨more, all, plain⟩ := h.callbacks
  rw [writes, all, List.getElem?_append_right new]
  cases found : more[i - net.callbacks.length]? with
  | none => rfl
  | some c =>
    obtain ⟨label, source, rfl⟩ := plain c (List.mem_of_getElem? found)
    rfl

theorem feeds (h : Follows net next) {p q : Nat} (feeds : next.Feeds p q) : net.Feeds p q := by
  obtain ⟨i, live, written⟩ := feeds
  have known : i < net.callbacks.length := by
    by_contra new
    rw [h.writes_made (Nat.le_of_not_lt new)] at written
    cases written
  rw [h.writes_eq known] at written
  obtain ⟨made, part, new⟩ := h.active p
  rcases List.mem_append.mp (part.subset live) with old | fresh
  · exact ⟨i, old, written⟩
  · exact absurd known (Nat.not_lt.mpr (new i fresh))

/-- A cascade opens no new way from one cell to another. -/
theorem leads (h : Follows net next) {p q : Nat} (leads : next.Leads p q) : net.Leads p q :=
  leads.lift id fun _ _ => h.feeds

end Follows

/-! ## The parts of a write -/

/-- The network with a new value in a cell. -/
def store (net : Network) (place : Nat) (value : Int64) : Network :=
  net.alterCell place fun s => { s with cell := s.cell.set value }

/-- The network right after a cell has its new value, before the first subscriber is told. -/
def opened (net : Network) (place : Nat) (value : Int64) : Network :=
  { (net.store place value).prune place with reached := net.active place ++ net.reached }

/-- Hands a value to subscribers, one after the other. -/
def deliverAll (write : Network → Nat → Int64 → Option Network) (value : Int64)
    (subscriptions : List Nat) (net : Network) : Option Network :=
  subscriptions.foldlM (fun net i => deliver write net value i) net

/-- The network when `n` subscriptions, those reached for last, are let go. -/
def letGo (n : Nat) (net : Network) : Network := { net with reached := net.reached.drop n }

theorem getElem?_alterCell (net : Network) (place p : Nat) (f : Source → Source) :
    (net.alterCell place f).cells[p]? =
      if place = p then (net.cells[p]?).map f else net.cells[p]? := by
  rw [alterCell, List.getElem?_modify]
  split <;> simp

theorem lt_of_mem_subscribers {net : Network} {p i : Nat} (h : i ∈ net.subscribers p) :
    p < net.cells.length := by
  by_contra beyond
  rw [subscribers, List.getElem?_eq_none (Nat.le_of_not_lt beyond)] at h
  cases h

theorem subscribers_store (net : Network) (place p : Nat) (value : Int64) :
    (net.store place value).subscribers p = net.subscribers p := by
  rw [subscribers, subscribers, store, getElem?_alterCell]
  cases net.cells[p]? <;> by_cases h : place = p <;> simp [h]

theorem subscribers_prune (net : Network) (place p : Nat) :
    (net.prune place).subscribers p = if place = p then net.active p else net.subscribers p := by
  rw [subscribers, prune, getElem?_alterCell]
  by_cases h : place = p
  · rw [if_pos h, if_pos h, active, subscribers]
    cases net.cells[p]? <;> rfl
  · rw [if_neg h, if_neg h]
    rfl

theorem value_prune (net : Network) (place p : Nat) : (net.prune place).value p = net.value p := by
  rw [value, value, prune, getElem?_alterCell]
  cases net.cells[p]? <;> by_cases h : place = p <;> simp [h]

theorem active_store (net : Network) (place p : Nat) (value : Int64) :
    (net.store place value).active p = net.active p := by
  rw [active, active, subscribers_store]
  rfl

theorem subscribers_opened (net : Network) (place p : Nat) (value : Int64) :
    (net.opened place value).subscribers p =
      if place = p then net.active p else net.subscribers p := by
  have pruned := subscribers_prune (net.store place value) place p
  rwa [active_store, subscribers_store] at pruned

theorem value_opened_of_ne {place p : Nat} (h : place ≠ p) (net : Network) (value : Int64) :
    (net.opened place value).value p = net.value p := by
  have pruned := value_prune (net.store place value) place p
  have stored : (net.store place value).value p = net.value p := by
    rw [Network.value, Network.value, store, getElem?_alterCell, if_neg h]
  exact pruned.trans stored

theorem value_opened {net : Network} {place : Nat} (h : place < net.cells.length) (value : Int64) :
    (net.opened place value).value place = value := by
  have pruned := value_prune (net.store place value) place place
  have stored : (net.store place value).value place = value := by
    rw [Network.value, store, getElem?_alterCell, if_pos rfl, List.getElem?_eq_getElem h]
    exact Cell.set_value _ _
  exact pruned.trans stored

/-- A write of another value tells those whom the change is for, and lets them go. -/
theorem write_succ (depth : Nat) (net : Network) (place : Nat) (value : Int64) :
    write (depth + 1) net place value =
      if net.value place = value then some net
      else (deliverAll (write depth) value (net.active place) (net.opened place value)).map
        (letGo (net.active place).length) := by
  have snapshot := subscribers_prune (net.store place value) place place
  rw [if_pos rfl, active_store] at snapshot
  rw [write]
  by_cases same : net.value place = value
  · rw [if_pos same, if_pos same]
  · rw [if_neg same, if_neg same]
    dsimp only [subscribers, store] at snapshot
    simp only [snapshot]
    rfl

/-! ## What a cascade leaves -/

theorem mem_active {net : Network} {p i : Nat} :
    i ∈ net.active p ↔ i ∈ net.subscribers p ∧ net.isAlive i = true := List.mem_filter

theorem isAlive_iff {net : Network} {i : Nat} :
    net.isAlive i = true ↔ i ∈ net.held.map Prod.snd ∨ i ∈ net.bag ∨ i ∈ net.reached := by
  simp [isAlive, or_assoc]

/-- Those who are told of a change are alive already. -/
theorem isAlive_opened {net : Network} {place i : Nat} {value : Int64} :
    (net.opened place value).isAlive i = true ↔ net.isAlive i = true := by
  have told : i ∈ net.active place → net.isAlive i = true := fun mem => (mem_active.mp mem).2
  have opened : (net.opened place value).isAlive i = true ↔
      i ∈ net.held.map Prod.snd ∨ i ∈ net.bag ∨ i ∈ net.active place ++ net.reached := isAlive_iff
  rw [opened, List.mem_append]
  constructor
  · rintro (held | bag | mem | reached)
    · exact isAlive_iff.mpr (.inl held)
    · exact isAlive_iff.mpr (.inr (.inl bag))
    · exact told mem
    · exact isAlive_iff.mpr (.inr (.inr reached))
  · intro live
    rcases isAlive_iff.mp live with held | bag | reached
    · exact .inl held
    · exact .inr (.inl bag)
    · exact .inr (.inr (.inr reached))

theorem follows_opened {net : Network} (h : net.Proper) (place : Nat) (value : Int64) :
    net.Follows (net.opened place value) := by
  apply Follows.of_fewer h
  · rfl
  · rfl
  · simp [opened, prune, store, alterCell]
  · intro p
    rw [subscribers_opened]
    split
    · exact List.filter_sublist
    · exact .refl _
  · exact fun i => isAlive_opened.mp
  · intro p i mem live
    rw [subscribers_opened]
    split
    · exact mem_active.mpr ⟨mem, isAlive_opened.mp live⟩
    · exact mem

theorem follows_letGo {net : Network} (h : net.Proper) (n : Nat) : net.Follows (net.letGo n) := by
  apply Follows.of_fewer h
  · rfl
  · rfl
  · rfl
  · exact fun p => .refl _
  · intro i live
    rcases isAlive_iff.mp live with held | bag | reached
    · exact isAlive_iff.mpr (.inl held)
    · exact isAlive_iff.mpr (.inr (.inl bag))
    · exact isAlive_iff.mpr (.inr (.inr (List.mem_of_mem_drop reached)))
  · exact fun p i mem _ => mem

/-- A cascade that is over has let go of everything that it reached for. -/
structure Returns (net next : Network) : Prop extends Follows net next where
  reached : next.reached = net.reached

/-- No value is another one. -/
structure Quiet (net next : Network) : Prop extends Returns net next where
  value : ∀ p, next.value p = net.value p

theorem Returns.trans {net next last : Network} (h : net.Returns next) (g : next.Returns last) :
    net.Returns last := ⟨h.toFollows.trans g.toFollows, g.reached.trans h.reached⟩

theorem quiet_note {net : Network} (h : net.Proper) (line : String) : net.Quiet (net.note line) where
  toFollows := Follows.of_fewer h rfl rfl rfl (fun _ => .refl _) (fun _ live => live)
    fun _ _ mem _ => mem
  reached := rfl
  value _ := rfl

theorem quiet_drop {net : Network} (h : net.Proper) (name : String) : net.Quiet (net.drop name) where
  toFollows := by
    apply Follows.of_fewer h
    · rfl
    · rfl
    · rfl
    · exact fun p => .refl _
    · intro i live
      rcases isAlive_iff.mp live with held | bag | reached
      · exact isAlive_iff.mpr (.inl ((List.filter_sublist.map _).subset held))
      · exact isAlive_iff.mpr (.inr (.inl bag))
      · exact isAlive_iff.mpr (.inr (.inr reached))
    · exact fun p i mem _ => mem
  reached := rfl
  value _ := rfl

/-! ### A subscription that is made -/

theorem subscribers_register (net : Network) (place p : Nat) (callback : Callback) :
    (net.register place callback).1.subscribers p =
      if place = p ∧ p < net.cells.length then net.subscribers p ++ [net.callbacks.length]
      else net.subscribers p := by
  rw [subscribers, register, getElem?_alterCell]
  by_cases here : place = p
  · by_cases known : p < net.cells.length
    · rw [if_pos here, if_pos ⟨here, known⟩, subscribers, List.getElem?_eq_getElem known]
      rfl
    · rw [if_pos here, if_neg fun both => known both.2, subscribers,
        List.getElem?_eq_none (Nat.le_of_not_lt known)]
      rfl
  · rw [if_neg here, if_neg fun both => here both.1]
    rfl

theorem value_register (net : Network) (place p : Nat) (callback : Callback) :
    (net.register place callback).1.value p = net.value p := by
  rw [value, register, getElem?_alterCell, value]
  cases net.cells[p]? <;> by_cases h : place = p <;> simp [h]

theorem mem_subscribers_register {net : Network} {place p i : Nat} {callback : Callback}
    (mem : i ∈ (net.register place callback).1.subscribers p) :
    i ∈ net.subscribers p ∨ place = p ∧ i = net.callbacks.length := by
  rw [subscribers_register] at mem
  split at mem
  · rename_i here
    rcases List.mem_append.mp mem with old | new
    · exact .inl old
    · exact .inr ⟨here.1, List.mem_singleton.mp new⟩
  · exact .inl mem

theorem Proper.register {net : Network} (h : net.Proper) (place : Nat) (callback : Callback) :
    (net.register place callback).1.Proper where
  named := by simpa [Network.register, alterCell] using h.named
  known p i mem := by
    have length : (net.register place callback).1.callbacks.length = net.callbacks.length + 1 := by
      simp [Network.register, alterCell]
    rw [length]
    rcases mem_subscribers_register mem with old | ⟨-, rfl⟩
    · exact Nat.lt_succ_of_lt (h.known p i old)
    · exact Nat.lt_succ_self _
  distinct p := by
    rw [subscribers_register]
    split
    · refine List.Nodup.append (h.distinct p) (List.nodup_singleton _) ?_
      intro i old new
      exact Nat.lt_irrefl _ (List.mem_singleton.mp new ▸ h.known p i old)
    · exact h.distinct p
  home p q i hp hq := by
    rcases mem_subscribers_register hp with old | ⟨here, new⟩
    · rcases mem_subscribers_register hq with other | ⟨-, rfl⟩
      · exact h.home p q i old other
      · exact absurd (h.known p _ old) (Nat.lt_irrefl _)
    · rcases mem_subscribers_register hq with other | ⟨there, -⟩
      · exact absurd (new ▸ h.known q i other) (Nat.lt_irrefl _)
      · exact here.symm.trans there

theorem Proper.keepAs {net : Network} (h : net.Proper) (name : String) (i : Nat) :
    (net.keepAs name i).Proper := ⟨h.named, h.known, h.distinct, h.home⟩

theorem isAlive_keepAs {net : Network} {name : String} {i n : Nat}
    (live : (net.keepAs name n).isAlive i = true) : net.isAlive i = true ∨ i = n := by
  rcases isAlive_iff.mp live with held | bag | reached
  · rw [keepAs, List.map_append, List.mem_append] at held
    rcases held with old | new
    · exact .inl (isAlive_iff.mpr (.inl ((List.filter_sublist.map _).subset old)))
    · exact .inr (by simpa using new)
  · exact .inl (isAlive_iff.mpr (.inr (.inl bag)))
  · exact .inl (isAlive_iff.mpr (.inr (.inr reached)))

/-- A plain subscription that is made during a cascade. -/
theorem quiet_plain {net : Network} (h : net.Proper) (place source : Nat) (label name : String) :
    net.Quiet ((net.register place (.note label source .none)).1.keepAs name
      net.callbacks.length) where
  before := h
  after := (h.register place _).keepAs name _
  names := rfl
  length := by simp [register, alterCell, keepAs, drop]
  callbacks := ⟨[.note label source .none], rfl, by simp⟩
  alive i known live := by
    rcases isAlive_keepAs live with old | rfl
    · exact old
    · exact absurd known (Nat.lt_irrefl _)
  active p := by
    refine ⟨[net.callbacks.length], ?_, by simp⟩
    have all : ((net.register place (.note label source .none)).1.keepAs name
        net.callbacks.length).subscribers p <+ net.subscribers p ++ [net.callbacks.length] := by
      refine (subscribers_register net place p (.note label source .none)).symm ▸ ?_
      split
      · exact .refl _
      · exact List.sublist_append_left _ _
    have old : (net.subscribers p).filter ((net.register place (.note label source .none)).1.keepAs
        name net.callbacks.length).isAlive <+ net.active p := by
      refine filter_sublist_filter (.refl _) fun i mem live => ?_
      rcases isAlive_keepAs live with old | rfl
      · exact old
      · exact absurd (h.known p _ mem) (Nat.lt_irrefl _)
    refine (all.filter _).trans ?_
    rw [List.filter_append]
    exact old.append List.filter_sublist
  kept p i mem live := by
    refine (subscribers_register net place p (.note label source .none)).symm ▸ ?_
    split
    · exact List.mem_append_left _ mem
    · exact mem
  reached := rfl
  value p := value_register net place p _

theorem quiet_subscribe {net : Network} (h : net.Proper) (cell name : String) :
    net.Quiet (net.subscribe cell name .none) := by
  rw [subscribe]
  split
  · exact ⟨⟨.refl h, rfl⟩, fun _ => rfl⟩
  · exact quiet_plain h _ _ _ _

theorem Quiet.trans {net next last : Network} (h : net.Quiet next) (g : next.Quiet last) :
    net.Quiet last := ⟨h.toReturns.trans g.toReturns, fun p => (g.value p).trans (h.value p)⟩

theorem Quiet.refl {net : Network} (h : net.Proper) : net.Quiet net := ⟨⟨.refl h, rfl⟩, fun _ => rfl⟩

/-! ### Delivering and writing -/

section
variable {depth : Nat} {net next : Network} {value : Int64} {i : Nat}

/-- What a subscriber does with a value: nothing that changes a value, and then at most one write. -/
theorem deliver_cases {write : Network → Nat → Int64 → Option Network} (h : net.Proper)
    (ran : deliver write net value i = some next) :
    net.Quiet next ∨
      ∃ mid, net.Quiet mid ∧ ∃ q ∈ net.writes i, ∃ v, write mid q v = some next := by
  have noted (line : String) := quiet_note h line
  unfold deliver at ran
  split at ran
  · cases ran
    exact .inl (.refl h)
  · rename_i found
    exact .inr ⟨net, .refl h, _, by simp [writes, found], _, ran⟩
  · rename_i found
    exact .inr ⟨_, noted _, _, by simp [writes, found], _, ran⟩
  · rename_i label source action found
    dsimp only at ran
    cases action with
    | none =>
      cases ran
      exact .inl (noted _)
    | set cell mul add =>
      dsimp only at ran
      split at ran
      · cases ran
        exact .inl (noted _)
      · rename_i target place
        have written : target ∈ net.writes i := by
          have here : net.place? cell = some target := place
          simp [writes, found, here]
        exact .inr ⟨_, noted _, target, written, _, ran⟩
    | clamp max =>
      dsimp only at ran
      split at ran
      · exact .inr ⟨_, noted _, source, by simp [writes, found], _, ran⟩
      · cases ran
        exact .inl (noted _)
    | drop name =>
      cases ran
      exact .inl ((noted _).trans (quiet_drop (noted _).after name))
    | subscribe cell name =>
      dsimp only at ran
      split at ran
      · cases ran
        exact .inl (noted _)
      · cases ran
        exact .inl ((noted _).trans (quiet_subscribe (noted _).after cell name))

theorem deliver_derive {write : Network → Nat → Int64 → Option Network} {target : Nat}
    {f : Int64 → Int64} (found : net.callbacks[i]? = some (.derive target f)) :
    deliver write net value i = write net target (f value) := by
  rw [deliver, found]

theorem deliverAll_cons (write : Network → Nat → Int64 → Option Network) (value : Int64) (i : Nat)
    (l : List Nat) (net : Network) :
    deliverAll write value (i :: l) net =
      (deliver write net value i).bind (deliverAll write value l) := List.foldlM_cons

theorem deliverAll_append (write : Network → Nat → Int64 → Option Network) (value : Int64)
    (l m : List Nat) (net : Network) :
    deliverAll write value (l ++ m) net =
      (deliverAll write value l net).bind (deliverAll write value m) := List.foldlM_append

/-- What every delivery keeps, all of them keep. -/
theorem deliverAll_keeps {P : Network → Prop} {write : Network → Nat → Int64 → Option Network}
    {l : List Nat} (step : ∀ i ∈ l, ∀ net next, P net → deliver write net value i = some next → P next)
    (start : P net) (ran : deliverAll write value l net = some next) : P next := by
  induction l generalizing net with
  | nil =>
    cases ran
    exact start
  | cons i l ih =>
    rw [deliverAll_cons] at ran
    obtain ⟨mid, first, rest⟩ := Option.bind_eq_some_iff.mp ran
    obtain ⟨here, later⟩ := List.forall_mem_cons.mp step
    exact ih later (here net mid start first) rest

theorem deliverAll_returns_of {l : List Nat}
    (writes : ∀ net next q v, net.Proper → write depth net q v = some next → net.Returns next)
    (h : net.Proper) (ran : deliverAll (write depth) value l net = some next) : net.Returns next := by
  refine deliverAll_keeps (P := net.Returns) ?_ ⟨.refl h, rfl⟩ ran
  intro i _ mid next before ran
  rcases deliver_cases before.after ran with quiet | ⟨noted, quiet, q, -, v, written⟩
  · exact before.trans quiet.toReturns
  · exact (before.trans quiet.toReturns).trans (writes noted next q v quiet.after written)

/-- A cascade leaves the wiring as it is, but for subscriptions that end and plain ones. -/
theorem write_returns {place : Nat} (h : net.Proper)
    (ran : write depth net place value = some next) : net.Returns next := by
  induction depth generalizing net next place value with
  | zero => cases ran
  | succ depth ih =>
    rw [write_succ] at ran
    split at ran
    · cases ran
      exact ⟨.refl h, rfl⟩
    · obtain ⟨ended, told, rfl⟩ := Option.map_eq_some_iff.mp ran
      have start := follows_opened h place value
      have kept : (net.opened place value).Returns ended :=
        deliverAll_returns_of (fun _ _ _ _ proper wrote => ih proper wrote) start.after told
      refine ⟨(start.trans kept.toFollows).trans (follows_letGo kept.after _), ?_⟩
      have reached : ended.reached = net.active place ++ net.reached := kept.reached
      rw [letGo, reached, List.drop_left]

theorem deliverAll_returns {l : List Nat} (h : net.Proper)
    (ran : deliverAll (write depth) value l net = some next) : net.Returns next :=
  deliverAll_returns_of (fun _ _ _ _ proper wrote => write_returns proper wrote) h ran

/-- A cell that the written one does not lead to keeps its value. -/
theorem value_write {place s : Nat} (h : net.Proper) (apart : ¬ net.Leads place s)
    (ran : write depth net place value = some next) : next.value s = net.value s := by
  induction depth generalizing net next place value with
  | zero => cases ran
  | succ depth ih =>
    rw [write_succ] at ran
    split at ran
    · cases ran
      rfl
    · obtain ⟨ended, told, rfl⟩ := Option.map_eq_some_iff.mp ran
      have start := follows_opened h place value
      have other : place ≠ s := by
        rintro rfl
        exact apart .refl
      have kept : (net.Follows ended) ∧ ended.value s = net.value s := by
        refine deliverAll_keeps (P := fun mid => net.Follows mid ∧ mid.value s = net.value s) ?_
          ⟨start, value_opened_of_ne other net value⟩ told
        rintro i live mid next ⟨before, same⟩ ran
        have known : i < net.callbacks.length := h.known place i (mem_active.mp live).1
        rcases deliver_cases before.after ran with quiet | ⟨noted, quiet, q, writes, v, written⟩
        · exact ⟨before.trans quiet.toFollows, (quiet.value s).trans same⟩
        · have reaches := before.trans quiet.toFollows
          have fed : net.Feeds place q := ⟨i, live, before.writes_eq known ▸ writes⟩
          have away : ¬ noted.Leads q s := fun leads =>
            apart (.head fed (reaches.leads leads))
          have wrote := ih quiet.after away written
          exact ⟨reaches.trans (write_returns quiet.after written).toFollows,
            wrote.trans ((quiet.value s).trans same)⟩
      exact kept.2

end

end QueryMarkup.Network
