import QueryMarkup.Proofs.Reactive.Cascade

/-!
# Derived cells

A derived cell is kept at a function of its source by a subscription to the source. A delivery
hands over the value that it began with, so a delivery that another one overtook, because a
subscriber before the derivation wrote the source again, leaves the derived cell behind. This
is the only way for it to fall behind but for a write by somebody else: when what stands before
the derivation does not lead back to the source and nobody else writes the derived cell, it is at
the function of the source after every write, however the cascade goes.
-/
namespace QueryMarkup.Network

open scoped List

/-! ## One derivation -/

/-- The subscription `j` to the cell `s` keeps the cell `t` at the function `f` of it. -/
structure Derives (net : Network) (j s t : Nat) (f : Int64 → Int64) : Prop where
  stands : j ∈ net.subscribers s
  callback : net.callbacks[j]? = some (.derive t f)
  real : t < net.cells.length
  apart : s ≠ t

/-- The cell `t` is at the function `f` of the cell `s`. -/
def Fresh (net : Network) (s t : Nat) (f : Int64 → Int64) : Prop := net.value t = f (net.value s)

/-- Nobody but the subscription `j` writes the cell `t`, and what the subscribers before it write
does not lead to the cell `s`. -/
structure Sheltered (net : Network) (j s t : Nat) : Prop where
  alone : ∀ p, ∀ i ∈ net.active p, t ∈ net.writes i → i = j
  ahead : ∀ i, [i, j] <+ net.active s → ∀ q ∈ net.writes i, ¬ net.Leads q s

section
variable {net next : Network} {j s t : Nat} {f : Int64 → Int64}

theorem Derives.known (h : net.Derives j s t f) : j < net.callbacks.length :=
  (List.getElem?_eq_some_iff.mp h.callback).1

/-- A derivation outlasts a cascade that does not end it. -/
theorem Derives.follows (h : net.Derives j s t f) (g : net.Follows next)
    (live : next.isAlive j = true) : next.Derives j s t f where
  stands := g.kept s j h.stands live
  callback := (g.callback_eq h.known).trans h.callback
  real := g.length ▸ h.real
  apart := h.apart

theorem Sheltered.follows (h : net.Sheltered j s t) (d : net.Derives j s t f)
    (g : net.Follows next) : next.Sheltered j s t where
  alone p i live written := by
    have known : i < net.callbacks.length := by
      by_contra new
      rw [g.writes_made (Nat.le_of_not_lt new)] at written
      cases written
    obtain ⟨made, part, new⟩ := g.active p
    rcases List.mem_append.mp (part.subset live) with old | fresh
    · exact h.alone p i old (g.writes_eq known ▸ written)
    · exact absurd known (Nat.not_lt.mpr (new i fresh))
  ahead i before q written leads := by
    obtain ⟨made, part, new⟩ := g.active s
    have old : [i, j] <+ net.active s := by
      obtain ⟨front, back, split, first, last⟩ := List.sublist_append_iff.mp (before.trans part)
      rcases List.eq_nil_or_concat back with rfl | ⟨back, x, rfl⟩
      · rw [split, List.append_nil]
        exact first
      · -- what was made stands behind the derivation
        have ends : j = x := by simpa [← List.append_assoc] using congrArg List.getLast? split
        have mem : j ∈ made := last.subset (by simp [ends])
        exact absurd d.known (Nat.not_lt.mpr (new j mem))
    have known : i < net.callbacks.length :=
      g.before.known s i (mem_active.mp (old.subset (by simp))).1
    exact h.ahead i old q (g.writes_eq known ▸ written) (g.leads leads)

theorem Derives.not_mem_active (d : net.Derives j s t f) (h : net.Proper) {p : Nat} (other : p ≠ s) :
    j ∉ net.active p :=
  fun mem => other (h.home p s j (mem_active.mp mem).1 d.stands)

theorem Fresh.of_value (h : net.Fresh s t f) (source : next.value s = net.value s)
    (target : next.value t = net.value t) : next.Fresh s t f := by
  rw [Fresh, source, target]
  exact h

/-! ### A cascade -/

/-- Writes at most so deep bring a sheltered derived cell to the function of its source, when it
is there before them or they are the derivation's own. -/
def KeepsFresh (depth j s t : Nat) (f : Int64 → Int64) : Prop :=
  ∀ net next p value, net.Proper → net.Derives j s t f → net.Sheltered j s t →
    write depth net p value = some next → next.isAlive j = true →
    p ≠ t ∧ net.Fresh s t f ∨ p = t ∧ value = f (net.value s) → next.Fresh s t f

/-- Subscribers other than the derivation keep its cell fresh. -/
theorem deliverAll_fresh {depth p : Nat} {value : Int64} {l : List Nat} {mid : Network}
    (keeps : KeepsFresh depth j s t f) (d : net.Derives j s t f) (sheltered : net.Sheltered j s t)
    (part : ∀ i ∈ l, i ∈ net.active p ∧ i ≠ j) (follows : net.Follows mid)
    (fresh : mid.Fresh s t f) (told : deliverAll (write depth) value l mid = some next)
    (live : next.isAlive j = true) : next.Fresh s t f := by
  have kept : net.Follows next ∧ (next.isAlive j = true → next.Fresh s t f) := by
    refine deliverAll_keeps (P := fun n => net.Follows n ∧ (n.isAlive j = true → n.Fresh s t f)) ?_
      ⟨follows, fun _ => fresh⟩ told
    rintro i mem n last ⟨before, fresh⟩ ran
    obtain ⟨active, other⟩ := part i mem
    have known : i < net.callbacks.length := before.before.known p i (mem_active.mp active).1
    have still {m m' : Network} (start : net.Follows m) (g : m.Follows m')
        (live : m'.isAlive j = true) : m.isAlive j = true :=
      g.alive j (Nat.lt_of_lt_of_le d.known start.callbacks_length) live
    rcases deliver_cases before.after ran with quiet | ⟨noted, quiet, q, writes, v, written⟩
    · refine ⟨before.trans quiet.toFollows, fun live => ?_⟩
      exact (fresh (still before quiet.toFollows live)).of_value (quiet.value s) (quiet.value t)
    · have wrote := (write_returns quiet.after written).toFollows
      have reaches := before.trans quiet.toFollows
      refine ⟨reaches.trans wrote, fun live => ?_⟩
      have alive := still reaches wrote live
      have noted_fresh : noted.Fresh s t f :=
        (fresh (still before quiet.toFollows alive)).of_value (quiet.value s) (quiet.value t)
      have elsewhere : q ≠ t := by
        rintro rfl
        exact other (sheltered.alone p i active (before.writes_eq known ▸ writes))
      exact keeps noted last q v quiet.after (d.follows reaches alive)
        (sheltered.follows d reaches) written live (.inl ⟨elsewhere, noted_fresh⟩)
  exact kept.2 live

/-- Subscribers before the derivation leave its source as it is. -/
theorem value_deliverAll_ahead {depth : Nat} {value : Int64} {l : List Nat} {mid : Network}
    (sheltered : net.Sheltered j s t) (part : ∀ i ∈ l, [i, j] <+ net.active s)
    (follows : net.Follows mid) (told : deliverAll (write depth) value l mid = some next) :
    net.Follows next ∧ next.value s = mid.value s := by
  refine deliverAll_keeps (P := fun n => net.Follows n ∧ n.value s = mid.value s) ?_
    ⟨follows, rfl⟩ told
  rintro i mem n last ⟨before, same⟩ ran
  have active : i ∈ net.active s := (part i mem).subset (by simp)
  have known : i < net.callbacks.length := before.before.known s i (mem_active.mp active).1
  rcases deliver_cases before.after ran with quiet | ⟨noted, quiet, q, writes, v, written⟩
  · exact ⟨before.trans quiet.toFollows, (quiet.value s).trans same⟩
  · have reaches := before.trans quiet.toFollows
    have away : ¬ noted.Leads q s := fun leads =>
      sheltered.ahead i (part i mem) q (before.writes_eq known ▸ writes) (reaches.leads leads)
    exact ⟨reaches.trans (write_returns quiet.after written).toFollows,
      (value_write quiet.after away written).trans ((quiet.value s).trans same)⟩

/-- A delivery to the subscribers of the source: what stands before the derivation does not
change the source, so the derivation brings its cell to the value that the source has. -/
theorem deliverAll_source_fresh {depth : Nat} {value : Int64} {mid : Network}
    (keeps : KeepsFresh depth j s t f) (d : net.Derives j s t f) (sheltered : net.Sheltered j s t)
    (follows : net.Follows mid) (source : mid.value s = value)
    (told : deliverAll (write depth) value (net.active s) mid = some next)
    (live : next.isAlive j = true) : next.Fresh s t f := by
  have still {m : Network} (reaches : net.Follows m) (alive : m.isAlive j = true) :
      net.isAlive j = true := reaches.alive j d.known alive
  have reached := follows.trans (deliverAll_returns follows.after told).toFollows
  obtain ⟨front, back, split⟩ :=
    List.append_of_mem (mem_active.mpr ⟨d.stands, still reached live⟩)
  have distinct : (front ++ j :: back).Nodup :=
    split ▸ (follows.before.distinct s).filter _
  rw [split, deliverAll_append] at told
  obtain ⟨n, first, told⟩ := Option.bind_eq_some_iff.mp told
  rw [deliverAll_cons] at told
  obtain ⟨n', own, told⟩ := Option.bind_eq_some_iff.mp told
  -- up to the derivation
  have before : ∀ i ∈ front, [i, j] <+ net.active s := by
    intro i mem
    rw [split]
    exact (List.singleton_sublist.mpr mem).append (List.singleton_sublist.mpr List.mem_cons_self)
  obtain ⟨ahead, same⟩ := value_deliverAll_ahead sheltered before follows first
  -- its own write
  have again : n.callbacks[j]? = some (.derive t f) := (ahead.callback_eq d.known).trans d.callback
  rw [deliver_derive again] at own
  have wrote := (write_returns ahead.after own).toFollows
  have rest := (deliverAll_returns wrote.after told).toFollows
  have alive' : n'.isAlive j = true :=
    rest.alive j (Nat.lt_of_lt_of_le d.known (ahead.trans wrote).callbacks_length) live
  have alive : n.isAlive j = true :=
    wrote.alive j (Nat.lt_of_lt_of_le d.known ahead.callbacks_length) alive'
  have brought : n'.Fresh s t f :=
    keeps n n' t (f value) ahead.after (d.follows ahead alive) (sheltered.follows d ahead) own
      alive' (.inr ⟨rfl, by rw [same, source]⟩)
  -- behind it
  have behind : ∀ i ∈ back, i ∈ net.active s ∧ i ≠ j := by
    intro i mem
    refine ⟨split ▸ List.mem_append_right _ (List.mem_cons_of_mem _ mem), ?_⟩
    rintro rfl
    exact (List.nodup_cons.mp (List.nodup_append.mp distinct).2.1).1 mem
  exact deliverAll_fresh keeps d sheltered behind (ahead.trans wrote) brought told live

theorem keepsFresh (depth j s t : Nat) (f : Int64 → Int64) : KeepsFresh depth j s t f := by
  induction depth with
  | zero => exact fun net next p value _ _ _ ran => by cases ran
  | succ depth ih =>
    intro net next p value h d sheltered ran live start
    rw [write_succ] at ran
    split at ran
    · rename_i same
      cases ran
      rcases start with ⟨-, fresh⟩ | ⟨rfl, brought⟩
      · exact fresh
      · exact same.trans brought
    · obtain ⟨ended, told, rfl⟩ := Option.map_eq_some_iff.mp ran
      have opening := follows_opened h p value
      have outcome := opening.trans (deliverAll_returns opening.after told).toFollows
      have alive : ended.isAlive j = true :=
        (follows_letGo outcome.after _).alive j
          (Nat.lt_of_lt_of_le d.known outcome.callbacks_length) live
      have done : ended.Fresh s t f := by
        by_cases source : p = s
        · subst source
          have stored := value_opened (lt_of_mem_subscribers d.stands) value
          exact deliverAll_source_fresh ih d sheltered opening stored told alive
        · have others : ∀ i ∈ net.active p, i ∈ net.active p ∧ i ≠ j := fun i mem =>
            ⟨mem, fun e => d.not_mem_active h source (e ▸ mem)⟩
          have opened_source := value_opened_of_ne source net value
          refine deliverAll_fresh ih d sheltered others opening ?_ told alive
          rcases start with ⟨elsewhere, fresh⟩ | ⟨rfl, brought⟩
          · exact fresh.of_value opened_source (value_opened_of_ne elsewhere net value)
          · rw [Fresh, value_opened d.real, opened_source, brought]
      exact done

/-- A write to another cell keeps a sheltered derived cell at the function of its source. -/
theorem write_fresh {depth p : Nat} {value : Int64} (h : net.Proper) (d : net.Derives j s t f)
    (sheltered : net.Sheltered j s t) (elsewhere : p ≠ t) (fresh : net.Fresh s t f)
    (ran : write depth net p value = some next) (live : next.isAlive j = true) :
    next.Fresh s t f :=
  keepsFresh depth j s t f net next p value h d sheltered ran live (.inl ⟨elsewhere, fresh⟩)

end

end QueryMarkup.Network
