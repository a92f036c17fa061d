import Mathlib.Data.List.Induction
import QueryMarkup.Proofs.Reactive.Deriving

/-!
# Derived cells are fresh

What can be done with a network from outside, one act after the other. A derivation that is alive
stands at one cell, and its own cell is at the function of that one, unless one of the acts wrote
where the derivation is not sheltered: the derived cell itself, or a network in which somebody
else writes it or a subscriber before the derivation leads back to its source.
-/
namespace QueryMarkup.Network

open scoped List

/-- What is done with a network. -/
inductive Act where
  | cell (name : String) (value : Int64)
  | subscribe (cell name : String) (action : Action)
  | derive (cell name : String) (f : Int64 → Int64)
  | combine (cells : List String) (target : String)
  | drop (name : String)
  | hold (name : String)
  | dispose
  | set (cell : String) (value : Int64)
  | update (cell : String) (change : Int64 → Int64)

/-- Writes a cell by its name; there may be no such cell. -/
def change (depth : Nat) (net : Network) (cell : String) (f : Int64 → Int64) : Option Network :=
  match net.place? cell with
  | none => some net
  | some place => write depth net place (f (net.value place))

def act (depth : Nat) (net : Network) : Act → Option Network
  | .cell name value => some (net.addCell name value)
  | .subscribe cell name action => some (net.subscribe cell name action)
  | .derive cell name f => some (net.derive cell name f)
  | .combine cells target => net.combine depth cells target
  | .drop name => some (net.drop name)
  | .hold name => some (net.hold name)
  | .dispose => some net.dispose
  | .set cell value => net.change depth cell fun _ => value
  | .update cell f => net.change depth cell f

/-- One act after the other, until a cascade goes on without end. -/
def run (depth : Nat) (net : Network) (acts : List Act) : Option Network :=
  acts.foldlM (act depth) net

/-- The cell that an act writes itself. -/
def Act.target? (net : Network) : Act → Option Nat
  | .set name _ => net.place? name
  | .update name _ => net.place? name
  | .combine _ name => net.place? name
  | _ => none

/-- An act that writes writes another cell than the derivation's, which is sheltered. -/
def Spares (net : Network) (a : Act) (j : Nat) : Prop :=
  ∀ s t f, net.Derives j s t f → ∀ p ∈ a.target? net, p ≠ t ∧ net.Sheltered j s t

/-! ## What an act leaves -/

/-- Callbacks are added, nothing that is alive goes away, and no dead subscription comes back. -/
structure Evolves (net : Network) (more : List Callback) (next : Network) : Prop where
  after : next.Proper
  callbacks : next.callbacks = net.callbacks ++ more
  length : net.cells.length ≤ next.cells.length
  alive : ∀ i < net.callbacks.length, next.isAlive i = true → net.isAlive i = true
  kept : ∀ p, ∀ i ∈ net.subscribers p, next.isAlive i = true → i ∈ next.subscribers p

/-- The cells that there were have their values. -/
def SameValues (net next : Network) : Prop := ∀ p < net.cells.length, next.value p = net.value p

section
variable {net next last : Network} {more others : List Callback}

theorem Evolves.trans (h : net.Evolves more next) (known : net.Proper)
    (g : next.Evolves others last) : net.Evolves (more ++ others) last where
  after := g.after
  callbacks := by rw [g.callbacks, h.callbacks, List.append_assoc]
  length := Nat.le_trans h.length g.length
  alive i old live := by
    have there : i < next.callbacks.length := by
      rw [h.callbacks, List.length_append]
      omega
    exact h.alive i old (g.alive i there live)
  kept p i mem live := by
    have there : i < next.callbacks.length := by
      rw [h.callbacks, List.length_append]
      exact Nat.lt_of_lt_of_le (known.known p i mem) (Nat.le_add_right _ _)
    exact g.kept p i (h.kept p i mem (g.alive i there live)) live

theorem Follows.evolves (h : net.Follows next) (callbacks : next.callbacks = net.callbacks) :
    net.Evolves [] next where
  after := h.after
  callbacks := by rw [callbacks, List.append_nil]
  length := Nat.le_of_eq h.length.symm
  alive := h.alive
  kept := h.kept

/-- A subscription is made, and kept in some way. -/
theorem evolves_register (h : net.Proper) {place : Nat} {callback : Callback}
    (cells : next.cells = (net.register place callback).1.cells)
    (callbacks : next.callbacks = net.callbacks ++ [callback]) (names : next.names = net.names)
    (alive : ∀ i, next.isAlive i = true → net.isAlive i = true ∨ i = net.callbacks.length) :
    net.Evolves [callback] next where
  after := by
    have made := h.register place callback
    have same (p : Nat) : next.subscribers p = (net.register place callback).1.subscribers p := by
      rw [subscribers, cells]
      rfl
    have length : next.callbacks.length = (net.register place callback).1.callbacks.length := by
      rw [callbacks]
      rfl
    exact ⟨by rw [names, cells]; exact made.named, fun p i mem => length ▸ made.known p i (same p ▸ mem),
      fun p => same p ▸ made.distinct p, fun p q i hp hq => made.home p q i (same p ▸ hp) (same q ▸ hq)⟩
  callbacks := callbacks
  length := by
    rw [cells]
    simp [register, alterCell]
  alive i old live := by
    rcases alive i live with still | rfl
    · exact still
    · exact absurd old (Nat.lt_irrefl _)
  kept p i mem _ := by
    have same : next.subscribers p = (net.register place callback).1.subscribers p := by
      rw [subscribers, cells]
      rfl
    rw [same, subscribers_register]
    split
    · exact List.mem_append_left _ mem
    · exact mem

theorem evolves_joined (h : net.Proper) (place : Nat) (callback : Callback) (name : String) :
    net.Evolves [callback] ((net.register place callback).1.keepAs name net.callbacks.length) :=
  evolves_register h rfl rfl rfl fun _ live => isAlive_keepAs live

/-- A subscription that is kept with others. -/
def enlist (net : Network) (place : Nat) (callback : Callback) : Network :=
  let (registered, subscription) := net.register place callback
  { registered with bag := registered.bag ++ [subscription] }

theorem evolves_enlist (h : net.Proper) (place : Nat) (callback : Callback) :
    net.Evolves [callback] (net.enlist place callback) := by
  refine evolves_register h rfl rfl rfl fun i live => ?_
  rcases isAlive_iff.mp live with held | bag | reached
  · exact .inl (isAlive_iff.mpr (.inl held))
  · rcases List.mem_append.mp bag with old | new
    · exact .inl (isAlive_iff.mpr (.inr (.inl old)))
    · exact .inr (List.mem_singleton.mp new)
  · exact .inl (isAlive_iff.mpr (.inr (.inr reached)))

theorem subscribers_addCell (net : Network) (name : String) (value : Int64) (p : Nat) :
    (net.addCell name value).subscribers p = net.subscribers p := by
  rw [subscribers, subscribers, addCell]
  rcases Nat.lt_trichotomy p net.cells.length with old | rfl | beyond
  · rw [List.getElem?_append_left old]
  · simp
  · rw [List.getElem?_eq_none (by simp; omega), List.getElem?_eq_none (Nat.le_of_lt beyond)]

theorem evolves_addCell (h : net.Proper) (name : String) (value : Int64) :
    net.Evolves [] (net.addCell name value) where
  after := by
    have same := subscribers_addCell net name value
    refine ⟨?_, fun p i mem => h.known p i (same p ▸ mem), fun p => same p ▸ h.distinct p,
      fun p q i hp hq => h.home p q i (same p ▸ hp) (same q ▸ hq)⟩
    intro q mem
    have length : (net.addCell name value).cells.length = net.cells.length + 1 := by simp [addCell]
    rw [length]
    rcases List.mem_append.mp mem with old | new
    · exact Nat.lt_succ_of_lt (h.named q (List.mem_of_mem_filter old))
    · cases List.mem_singleton.mp new
      exact Nat.lt_succ_self _
  callbacks := by simp [addCell]
  length := by simp [addCell]
  alive _ _ live := live
  kept p i mem _ := (subscribers_addCell net name value p).symm ▸ mem

theorem sameValues_addCell (name : String) (value : Int64) :
    net.SameValues (net.addCell name value) := by
  intro p known
  rw [Network.value, Network.value, addCell, List.getElem?_append_left known]

theorem evolves_hold (h : net.Proper) (name : String) : net.Evolves [] (net.hold name) := by
  unfold hold
  split
  · exact (Follows.refl h).evolves rfl
  · rename_i other subscription found
    refine Follows.evolves (Follows.of_fewer h (by rfl) (by rfl) (by rfl) ?_ ?_ ?_) (by rfl)
    · exact fun _ => .refl _
    · intro i live
      rcases isAlive_iff.mp live with held | bag | reached
      · exact isAlive_iff.mpr (.inl ((List.filter_sublist.map _).subset held))
      · rcases List.mem_append.mp bag with old | new
        · exact isAlive_iff.mpr (.inr (.inl old))
        · have held : (other, i) ∈ net.held :=
            List.mem_singleton.mp new ▸ List.mem_of_find?_eq_some found
          exact isAlive_iff.mpr (.inl (List.mem_map_of_mem held))
      · exact isAlive_iff.mpr (.inr (.inr reached))
    · exact fun _ _ mem _ => mem

theorem evolves_dispose (h : net.Proper) : net.Evolves [] net.dispose := by
  refine Follows.evolves (Follows.of_fewer h (by rfl) (by rfl) (by rfl) ?_ ?_ ?_) (by rfl)
  · exact fun _ => .refl _
  · intro i live
    rcases isAlive_iff.mp live with held | bag | reached
    · exact isAlive_iff.mpr (.inl held)
    · cases bag
    · exact isAlive_iff.mpr (.inr (.inr reached))
  · exact fun _ _ mem _ => mem

/-! ## An act, taken apart -/

/-- The first part of an act: it may write the cell that it is aimed at. -/
def Wrote (depth : Nat) (net : Network) (a : Act) (written : Network) : Prop :=
  written = net ∨
    ∃ p ∈ a.target? net, ∃ mid v, net.Quiet mid ∧ write depth mid p v = some written

/-- The other part of an act: it adds to the network, and a derivation that it makes is fresh. -/
structure Adds (written : Network) (more : List Callback) (next : Network) : Prop
    extends Evolves written more next where
  values : written.SameValues next
  derived : ∀ t f, .derive t f ∈ more → ∃ s, more = [.derive t f] ∧
    next.Derives written.callbacks.length s t f ∧ next.Fresh s t f

theorem Evolves.adds (h : net.Evolves more next) (values : net.SameValues next)
    (plain : ∀ t f, .derive t f ∉ more) : net.Adds more next :=
  ⟨h, values, fun t f mem => absurd mem (plain t f)⟩

theorem adds_nothing (h : net.Proper) : net.Adds [] net :=
  ((Follows.refl h).evolves rfl).adds (fun _ _ => rfl) (by simp)

theorem Adds.enlist (h : net.Adds more next) (known : net.Proper) (place : Nat)
    (sources : List Nat) (target : Nat) (plain : ∀ t f, .derive t f ∉ more) :
    net.Adds (more ++ [.sum sources target]) (next.enlist place (.sum sources target)) := by
  refine (h.toEvolves.trans known (evolves_enlist h.after place _)).adds ?_ (by simpa using plain)
  intro p cell
  have kept := h.values p cell
  exact (value_register next place p _).trans kept

theorem Adds.enlistAll (h : net.Adds more next) (known : net.Proper) (places sources : List Nat)
    (target : Nat) (plain : ∀ t f, .derive t f ∉ more) :
    ∃ all, net.Adds all (places.foldl (fun net p => net.enlist p (.sum sources target)) next) := by
  induction places generalizing more next with
  | nil => exact ⟨more, h⟩
  | cons p places ih => exact ih (h.enlist known p sources target plain) (by simpa using plain)

theorem combine_eq (depth : Nat) (net : Network) (cells : List String) (target : String) :
    net.combine depth cells target =
      match net.place? target with
      | none => some net
      | some place =>
        let sources := cells.filterMap net.place?
        let total := net.sumOf sources
        (write depth (net.note s!"sum:{total.toInt}") place total).map fun written =>
          sources.foldl (fun net p => net.enlist p (.sum sources place)) written := by
  unfold combine
  cases net.place? target with
  | none => rfl
  | some place =>
    dsimp only
    rw [Option.map_eq_bind]
    rfl

theorem Proper.place_lt (h : net.Proper) {cell : String} {place : Nat}
    (found : net.place? cell = some place) : place < net.cells.length := by
  obtain ⟨q, first, rfl⟩ := Option.map_eq_some_iff.mp found
  exact h.named q (List.mem_of_find?_eq_some first)

theorem adds_subscribe (h : net.Proper) (cell name : String) (action : Action) :
    ∃ more, net.Adds more (net.subscribe cell name action) := by
  rw [subscribe]
  split
  · exact ⟨[], adds_nothing h⟩
  · rename_i place found
    exact ⟨_, (evolves_joined h place _ name).adds (fun p _ => value_register net place p _) (by simp)⟩

theorem derive_eq {cell : String} {source : Nat} (found : net.place? cell = some source)
    (name : String) (f : Int64 → Int64) :
    net.derive cell name f = ((net.addCell name (f (net.value source))).register source
      (.derive net.cells.length f)).1.keepAs name net.callbacks.length := by
  rw [derive, found]
  rfl

/-- A derivation is made with a cell of its own, at the function of the source. -/
theorem adds_derive (h : net.Proper) (cell name : String) (f : Int64 → Int64) :
    ∃ more, net.Adds more (net.derive cell name f) := by
  cases found : net.place? cell with
  | none =>
    rw [derive, found]
    exact ⟨[], adds_nothing h⟩
  | some source =>
    have known := h.place_lt found
    have cells := evolves_addCell h name (f (net.value source))
    have made := evolves_joined cells.after source (.derive net.cells.length f) name
    have whole := cells.trans h made
    have values (p : Nat) (old : p < net.cells.length) := (value_register _ source p
      (.derive net.cells.length f)).trans (sameValues_addCell name (f (net.value source)) p old)
    rw [derive_eq found]
    refine ⟨_, whole, values, ?_⟩
    intro t g mem
    obtain ⟨rfl, rfl⟩ : t = net.cells.length ∧ g = f := by simpa using mem
    have length : (net.addCell name (g (net.value source))).cells.length = net.cells.length + 1 := by
      simp [addCell]
    refine ⟨source, rfl, ⟨?_, ?_, ?_, Nat.ne_of_lt known⟩, ?_⟩
    · have stands := subscribers_register (net.addCell name (g (net.value source))) source source
        (.derive net.cells.length g)
      rw [if_pos ⟨rfl, Nat.lt_of_lt_of_le known cells.length⟩] at stands
      exact stands ▸ List.mem_append_right _ List.mem_cons_self
    · have callbacks := whole.callbacks
      rw [List.nil_append] at callbacks
      refine Eq.trans (congrArg (·[net.callbacks.length]?) callbacks) ?_
      simp
    · exact Nat.lt_of_lt_of_le (by omega) made.length
    · have new : (net.addCell name (g (net.value source))).value net.cells.length =
          g (net.value source) := by
        simp [Network.value, addCell]
      have target := value_register (net.addCell name (g (net.value source))) source
        net.cells.length (.derive net.cells.length g)
      exact (target.trans new).trans (congrArg g (values source known).symm)

/-- An act writes, and then it adds. -/
theorem act_cases {depth : Nat} {a : Act} (h : net.Proper) (ran : act depth net a = some next) :
    ∃ written more, Wrote depth net a written ∧ written.Adds more next := by
  have still : Wrote depth net a net := .inl rfl
  have change (cell : String) (f : Int64 → Int64) (aimed : a.target? net = net.place? cell)
      (ran : net.change depth cell f = some next) :
      ∃ written more, Wrote depth net a written ∧ written.Adds more next := by
    rw [Network.change] at ran
    split at ran
    · cases ran
      exact ⟨net, [], still, adds_nothing h⟩
    · rename_i place found
      refine ⟨next, [], .inr ⟨place, aimed ▸ found, net, _, .refl h, ran⟩, ?_⟩
      exact adds_nothing (write_returns h ran).after
  cases a with
  | cell name value =>
    cases ran
    exact ⟨net, [], still, (evolves_addCell h name value).adds (sameValues_addCell name value) (by simp)⟩
  | subscribe cell name action =>
    cases ran
    obtain ⟨more, adds⟩ := adds_subscribe h cell name action
    exact ⟨net, more, still, adds⟩
  | derive cell name f =>
    cases ran
    obtain ⟨more, adds⟩ := adds_derive h cell name f
    exact ⟨net, more, still, adds⟩
  | combine cells target =>
    rw [act, combine_eq] at ran
    split at ran
    · cases ran
      exact ⟨net, [], still, adds_nothing h⟩
    · rename_i place found
      obtain ⟨written, wrote, rfl⟩ := Option.map_eq_some_iff.mp ran
      have noted := quiet_note h s!"sum:{(net.sumOf (cells.filterMap net.place?)).toInt}"
      have after := (write_returns noted.after wrote).after
      obtain ⟨more, adds⟩ := (adds_nothing after).enlistAll after (cells.filterMap net.place?)
        (cells.filterMap net.place?) place (by simp)
      exact ⟨written, more, .inr ⟨place, found, _, _, noted, wrote⟩, adds⟩
  | drop name =>
    cases ran
    exact ⟨net, [], still, ((quiet_drop h name).evolves rfl).adds (fun _ _ => rfl) (by simp)⟩
  | hold name =>
    cases ran
    refine ⟨net, [], still, (evolves_hold h name).adds ?_ (by simp)⟩
    intro p _
    unfold hold
    split <;> rfl
  | dispose =>
    cases ran
    exact ⟨net, [], still, (evolves_dispose h).adds (fun _ _ => rfl) (by simp)⟩
  | set cell value => exact change cell (fun _ => value) rfl ran
  | update cell f => exact change cell f rfl ran

/-! ## What a run leaves -/

theorem Derives.evolves {j s t : Nat} {f : Int64 → Int64} (d : net.Derives j s t f)
    (h : net.Evolves more next) (live : next.isAlive j = true) : next.Derives j s t f where
  stands := h.kept s j d.stands live
  callback := by
    rw [h.callbacks, List.getElem?_append_left d.known]
    exact d.callback
  real := Nat.lt_of_lt_of_le d.real h.length
  apart := d.apart

theorem Wrote.follows {depth : Nat} {a : Act} {written : Network} (h : net.Proper)
    (wrote : Wrote depth net a written) : net.Follows written := by
  rcases wrote with rfl | ⟨p, -, mid, v, quiet, ran⟩
  · exact .refl h
  · exact quiet.toFollows.trans (write_returns quiet.after ran).toFollows

/-- The write of an act that spares a derivation keeps its cell fresh. -/
theorem Wrote.fresh {depth j s t : Nat} {f : Int64 → Int64} {a : Act} {written : Network}
    (wrote : Wrote depth net a written) (d : net.Derives j s t f)
    (live : written.isAlive j = true) (spared : net.Spares a j) (fresh : net.Fresh s t f) :
    written.Fresh s t f := by
  rcases wrote with rfl | ⟨p, aimed, mid, v, quiet, ran⟩
  · exact fresh
  · obtain ⟨elsewhere, sheltered⟩ := spared s t f d p aimed
    have still := (write_returns quiet.after ran).alive j
      (Nat.lt_of_lt_of_le d.known quiet.callbacks_length) live
    exact write_fresh quiet.after (d.follows quiet.toFollows still)
      (sheltered.follows d quiet.toFollows) elsewhere
      (fresh.of_value (quiet.value s) (quiet.value t)) ran live

/-- What an act leaves of a derivation that there was: it stands as before, and is fresh if it was
and the act spares it. -/
theorem act_derives {depth j s t : Nat} {f : Int64 → Int64} {a : Act} (h : net.Proper)
    (d : net.Derives j s t f) (ran : act depth net a = some next) (live : next.isAlive j = true) :
    next.Derives j s t f ∧ (net.Spares a j → net.Fresh s t f → next.Fresh s t f) := by
  obtain ⟨written, more, wrote, adds⟩ := act_cases h ran
  have follows := wrote.follows h
  have still := adds.alive j (Nat.lt_of_lt_of_le d.known follows.callbacks_length) live
  have stands := d.follows follows still
  refine ⟨stands.evolves adds.toEvolves live, fun spared fresh => ?_⟩
  exact (wrote.fresh d still spared fresh).of_value (adds.values s (lt_of_mem_subscribers stands.stands))
    (adds.values t stands.real)

/-- A derivation that an act makes. -/
theorem act_new {depth j t : Nat} {f : Int64 → Int64} {a : Act} (h : net.Proper)
    (ran : act depth net a = some next) (new : net.callbacks.length ≤ j)
    (callback : next.callbacks[j]? = some (.derive t f)) :
    ∃ s, next.Derives j s t f ∧ next.Fresh s t f := by
  obtain ⟨written, more, wrote, adds⟩ := act_cases h ran
  have follows := wrote.follows h
  rw [adds.callbacks] at callback
  have behind : written.callbacks.length ≤ j := by
    by_contra inside
    rw [List.getElem?_append_left (Nat.lt_of_not_le inside)] at callback
    obtain ⟨made, all, plain⟩ := follows.callbacks
    rw [all, List.getElem?_append_right new] at callback
    obtain ⟨label, source, e⟩ := plain _ (List.mem_of_getElem? callback)
    cases e
  rw [List.getElem?_append_right behind] at callback
  obtain ⟨s, one, derives, fresh⟩ := adds.derived t f (List.mem_of_getElem? callback)
  have here : j = written.callbacks.length := by
    have inside := (List.getElem?_eq_some_iff.mp callback).1
    rw [one, List.length_singleton] at inside
    omega
  exact ⟨s, here ▸ derives, fresh⟩

theorem act_alive {depth j : Nat} {a : Act} (h : net.Proper) (ran : act depth net a = some next)
    (old : j < net.callbacks.length) (live : next.isAlive j = true) :
    net.isAlive j = true ∧ next.callbacks[j]? = net.callbacks[j]? := by
  obtain ⟨written, more, wrote, adds⟩ := act_cases h ran
  have follows := wrote.follows h
  have there := Nat.lt_of_lt_of_le old follows.callbacks_length
  refine ⟨follows.alive j old (adds.alive j there live), ?_⟩
  rw [adds.callbacks, List.getElem?_append_left there, follows.callback_eq old]

theorem act_proper {depth : Nat} {a : Act} (h : net.Proper) (ran : act depth net a = some next) :
    next.Proper := by
  obtain ⟨written, more, -, adds⟩ := act_cases h ran
  exact adds.after

theorem proper_new : Proper {} :=
  ⟨by simp, by simp [subscribers], by simp [subscribers], by simp [subscribers]⟩

theorem run_append (depth : Nat) (net : Network) (before after : List Act) :
    run depth net (before ++ after) = (run depth net before).bind fun mid => run depth mid after :=
  List.foldlM_append

/-- No act of the run wrote where the derivation was not sheltered. -/
def SparedBy (depth : Nat) (acts : List Act) (j : Nat) : Prop :=
  ∀ before a after mid, acts = before ++ a :: after → run depth {} before = some mid → mid.Spares a j

theorem run_derives {depth : Nat} {acts : List Act} (ran : run depth {} acts = some net) :
    net.Proper ∧ ∀ j t f, net.isAlive j = true → net.callbacks[j]? = some (.derive t f) →
      ∃ s, net.Derives j s t f ∧ (SparedBy depth acts j → net.Fresh s t f) := by
  induction acts using List.reverseRecOn generalizing net with
  | nil =>
    cases ran
    exact ⟨proper_new, fun j t f _ none => by simp at none⟩
  | append_singleton acts a ih =>
    rw [run_append] at ran
    obtain ⟨mid, before, last⟩ := Option.bind_eq_some_iff.mp ran
    replace last : act depth mid a = some net := by simpa [run] using last
    obtain ⟨proper, derived⟩ := ih before
    refine ⟨act_proper proper last, fun j t f live callback => ?_⟩
    by_cases old : j < mid.callbacks.length
    · obtain ⟨alive, same⟩ := act_alive proper last old live
      obtain ⟨s, stands, fresh⟩ := derived j t f alive (same ▸ callback)
      obtain ⟨still, kept⟩ := act_derives proper stands last live
      refine ⟨s, still, fun spared => kept (spared acts a [] mid rfl before) (fresh ?_)⟩
      intro front b back first split ran
      exact spared front b (back ++ [a]) first (by rw [split]; simp) ran
    · obtain ⟨s, stands, fresh⟩ := act_new proper last (Nat.le_of_not_lt old) callback
      exact ⟨s, stands, fun _ => fresh⟩

/-- Derived cells are fresh: after every run from the empty network, however its cascades go, a
derivation that is alive stands at one cell, and its cell is at the function of that one if no
act of the run wrote where the derivation was not sheltered. -/
theorem derived_fresh {depth : Nat} {acts : List Act} (ran : run depth {} acts = some net)
    {j t : Nat} {f : Int64 → Int64} (live : net.isAlive j = true)
    (callback : net.callbacks[j]? = some (.derive t f)) :
    ∃ s, net.Derives j s t f ∧ (∀ p, j ∈ net.subscribers p → p = s) ∧
      (SparedBy depth acts j → net.value t = f (net.value s)) := by
  obtain ⟨proper, derived⟩ := run_derives ran
  obtain ⟨s, stands, fresh⟩ := derived j t f live callback
  exact ⟨s, stands, fun p mem => proper.home p s j mem stands.stands, fresh⟩

end

/-- A subscriber that writes the source again stands behind the derivation. -/
theorem derived_fresh_clamped : ∃ net,
    run 4 {} [.cell "a" 0, .derive "a" "d" (· + 1), .subscribe "a" "c" (.clamp 5), .set "a" 10] =
        some net ∧
      net.isAlive 0 = true ∧ net.callbacks[0]? = some (.derive 1 (· + 1)) ∧
      SparedBy 4
        [.cell "a" 0, .derive "a" "d" (· + 1), .subscribe "a" "c" (.clamp 5), .set "a" 10] 0 ∧
      net.value 0 = 5 ∧ net.value 1 = 6 := by
  have spared : SparedBy 4
      [.cell "a" 0, .derive "a" "d" (· + 1), .subscribe "a" "c" (.clamp 5), .set "a" 10] 0 := by
    intro before a after mid split ran s t f d p aimed
    rcases before with _ | ⟨b1, _ | ⟨b2, _ | ⟨b3, _ | ⟨b4, before⟩⟩⟩⟩
    · cases split
      cases aimed
    · cases split
      cases aimed
    · cases split
      cases aimed
    · -- the only act that writes, in the network that the others made
      cases split
      cases ran
      cases aimed
      injection Option.some.inj d.callback with target
      replace target : 1 = t := target
      subst target
      have source : s = 0 := by
        rcases s with _ | _ | s
        · rfl
        · cases d.stands
        · cases d.stands
      subst source
      refine ⟨by decide, ?_, ?_⟩
      · intro p i live written
        rcases p with _ | _ | p
        · replace live : i ∈ [0, 1] := live
          rcases List.mem_pair.mp live with rfl | rfl
          · rfl
          · replace written : 1 ∈ [0] := written
            simp at written
        · cases live
        · cases live
      · intro i ahead
        replace ahead : [i, 0] <+ [0, 1] := ahead
        have same := ahead.eq_of_length rfl
        simp at same
    · simp at split
  obtain ⟨net, ran, live, callback, stands, source⟩ : ∃ net,
      run 4 {} [.cell "a" 0, .derive "a" "d" (· + 1), .subscribe "a" "c" (.clamp 5), .set "a" 10] =
          some net ∧
        net.isAlive 0 = true ∧ net.callbacks[0]? = some (.derive 1 (· + 1)) ∧
        0 ∈ net.subscribers 0 ∧ net.value 0 = 5 := ⟨_, rfl, rfl, rfl, by decide, rfl⟩
  obtain ⟨s, -, only, fresh⟩ := derived_fresh ran live callback
  refine ⟨net, ran, live, callback, spared, source, ?_⟩
  rw [fresh spared, ← only 0 stands, source]
  rfl

/-- A subscriber that stands before the derivation writes the source again while the first change
is delivered, and the derived cell is left at the function of the value that was overtaken. -/
theorem derived_behind : ∃ net,
    run 4 {} [.cell "a" 0, .subscribe "a" "c" (.clamp 5), .derive "a" "d" id, .set "a" 10] =
        some net ∧
      net.isAlive 1 = true ∧ net.Derives 1 0 1 id ∧ net.value 0 = 5 ∧ net.value 1 = 10 ∧
      ¬ net.Fresh 0 1 id := by
  refine ⟨_, rfl, rfl, ⟨by decide, rfl, by decide, by decide⟩, rfl, rfl, ?_⟩
  intro fresh
  have same : (10 : Int64) = 5 := fresh
  exact absurd same (by decide)

end QueryMarkup.Network
