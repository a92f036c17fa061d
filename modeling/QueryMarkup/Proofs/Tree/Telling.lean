import QueryMarkup.Proofs.Tree.Current

/-!
# Telling renews

A write makes stale only what the watchers of the slot renew, telling a watcher makes
what it works for current and nothing else stale, and so a tree whose results are
current has current results again when all watchers of a written slot were told.
-/
namespace QueryMarkup

namespace Node

@[simp] theorem id_followSlot (n : Node) (name : String) (w : Watcher) :
    (n.followSlot name w).id = n.id := rfl

section
variable {n : Node} {id : NodeId} {name aggregate : String} {ws ws' : List Watcher}

/-- Only watchers that work for the node itself excuse it. -/
theorem FreshBut.congr (h : n.FreshBut id name ws aggregate)
    (rules : ∀ i, .rule n.id i ∈ ws → .rule n.id i ∈ ws')
    (display : n.id = id → .display ∈ ws → .display ∈ ws')
    (check : n.id = id → .valueCheck ∈ ws → .valueCheck ∈ ws') :
    n.FreshBut id name ws' aggregate where
  rules i c hc hw := h.rules i c hc fun hm => hw (rules i hm)
  display a ha hw := h.display a ha fun ⟨hi, hn, hm⟩ => hw ⟨hi, hn, display hi hm⟩
  check a ha hw := h.check a ha fun ⟨hi, hn, hm⟩ => hw ⟨hi, hn, check hi hm⟩

theorem FreshBut.answerSchema (h : n.FreshBut id name ws aggregate) (rejection : Option String) :
    (n.answerSchema rejection).FreshBut id name ws aggregate :=
  ⟨h.rules, h.display, h.check⟩

theorem FreshBut.recheckRule {i : Nat} (h : n.FreshBut id name (.rule n.id i :: ws) aggregate) :
    (n.recheckRule aggregate i).FreshBut id name ws aggregate := by
  refine ⟨?_, ?_, ?_⟩
  · intro j c hc hw
    change (n.rules.modify i _)[j]? = some c at hc
    rw [List.getElem?_modify, Option.map_eq_map] at hc
    by_cases hi : i = j
    · obtain ⟨d, _, rfl⟩ : ∃ d, n.rules[j]? = some d ∧
          { d with outcome := d.outcome.again (d.rule.issues (n.scope aggregate)) } = c := by
        simpa [hi] using hc
      rfl
    · rw [Option.map_eq_some_iff] at hc
      obtain ⟨d, hd, e⟩ := hc
      rw [if_neg hi] at e
      subst e
      refine h.rules j _ hd fun hm => ?_
      rcases List.mem_cons.mp hm with e | hm
      · cases e
        exact hi rfl
      · exact hw hm
  · intro a ha hw
    refine h.display a ha fun ⟨hi, hn, hm⟩ => hw ⟨hi, hn, ?_⟩
    simpa using hm
  · intro a ha hw
    refine h.check a ha fun ⟨hi, hn, hm⟩ => hw ⟨hi, hn, ?_⟩
    simpa using hm

/-- What a change of one attribute by a watcher does to all. -/
theorem mem_followSlot {w : Watcher} {a : Attribute} (h : a ∈ (n.followSlot name w).attributes) :
    ∃ b ∈ n.attributes, a = if b.name = name then b.follow (n.value name) w else b := by
  obtain ⟨b, hb, e⟩ := List.mem_map.mp h
  exact ⟨b, hb, e.symm⟩

theorem FreshBut.follow_display (h : n.FreshBut n.id name (.display :: ws) aggregate) :
    (n.followSlot name .display).FreshBut n.id name ws aggregate := by
  refine ⟨fun i c hc hw => h.rules i c hc (by simpa using hw), ?_, ?_⟩
  · intro a ha hw
    obtain ⟨b, hb, rfl⟩ := mem_followSlot ha
    by_cases hn : b.name = name
    · rw [if_pos hn, ← hn]
      exact Cell.set_value _ _
    · rw [if_neg hn] at hw ⊢
      exact h.display b hb fun ⟨_, e, _⟩ => hn e
  · intro a ha hw
    obtain ⟨b, hb, rfl⟩ := mem_followSlot ha
    by_cases hn : b.name = name
    · rw [if_pos hn] at hw ⊢
      refine h.check b hb fun ⟨_, _, hm⟩ => hw ⟨rfl, hn, ?_⟩
      simpa using hm
    · rw [if_neg hn] at hw ⊢
      exact h.check b hb fun ⟨_, e, _⟩ => hn e

theorem FreshBut.follow_valueCheck (h : n.FreshBut n.id name (.valueCheck :: ws) aggregate)
    (fitted : n.Fitted) (declared : (n.kind.attribute? name).isSome) :
    (n.followSlot name .valueCheck).FreshBut n.id name ws aggregate := by
  refine ⟨fun i c hc hw => h.rules i c hc (by simpa using hw), ?_, ?_⟩
  · intro a ha hw
    obtain ⟨b, hb, rfl⟩ := mem_followSlot ha
    by_cases hn : b.name = name
    · rw [if_pos hn] at hw ⊢
      refine h.display b hb fun ⟨_, _, hm⟩ => hw ⟨rfl, hn, ?_⟩
      simpa using hm
    · rw [if_neg hn] at hw ⊢
      exact h.display b hb fun ⟨_, e, _⟩ => hn e
  · intro a ha hw
    obtain ⟨b, hb, rfl⟩ := mem_followSlot ha
    by_cases hn : b.name = name
    · subst hn
      rw [if_pos rfl]
      exact Attribute.issues_recheck _ (fitted.attributes b hb) declared
    · rw [if_neg hn] at hw ⊢
      exact h.check b hb fun ⟨_, e, _⟩ => hn e

end

end Node

namespace Tree

/-- The slots of the root. -/
def rootSlots (t : Tree) : Slots := (t.root?.map (·.slots)).getD .empty

theorem rootAggregate_eq (t : Tree) : t.rootAggregate = t.rootSlots.value "aggregate" := by
  unfold rootAggregate rootSlots
  cases t.root? <;> rfl

/-- All results that the nodes keep are current, but for those that the watchers of one
slot in the list will renew. -/
structure CurrentBut (id : NodeId) (name : String) (ws : List Watcher) (t : Tree) : Prop where
  fitted : ∀ n ∈ t.nodes, n.Fitted
  wired : ∀ n ∈ t.nodes, n.Wired t.rootSlots
  settled : ∀ n ∈ t.nodes, n.Settled
  fresh : ∀ n ∈ t.nodes, n.FreshBut id name ws t.rootAggregate
  declared : .valueCheck ∈ ws → ∀ n ∈ t.nodes, n.id = id → (n.kind.attribute? name).isSome

section
variable {t t' : Tree} {id : NodeId} {name : String} {ws ws' : List Watcher}

theorem Keeps.rootSlots (h : Keeps Node.base t t') : t'.rootSlots = t.rootSlots := by
  have roots := congrArg List.head? h.nodes
  rw [List.head?_map, List.head?_map] at roots
  have slots := congrArg (Option.map Node.slots) roots
  rw [Option.map_map, Option.map_map] at slots
  simp only [Tree.rootSlots, root?]
  exact congrArg (fun s => Option.getD s Slots.empty) slots

theorem Keeps.rootAggregate (h : Keeps Node.base t t') : t'.rootAggregate = t.rootAggregate := by
  rw [rootAggregate_eq, rootAggregate_eq, h.rootSlots]

theorem CurrentBut.of_nodes (h : t.CurrentBut id name ws) (e : t'.nodes = t.nodes) :
    t'.CurrentBut id name ws := by
  have root : t'.rootSlots = t.rootSlots := by rw [rootSlots, rootSlots, root?, root?, e]
  refine ⟨?_, ?_, ?_, ?_, ?_⟩
  · rw [e]
    exact h.fitted
  · rw [e, root]
    exact h.wired
  · rw [e]
    exact h.settled
  · rw [e, rootAggregate_eq, root, ← rootAggregate_eq]
    exact h.fresh
  · rw [e]
    exact h.declared

/-- A change of one node that keeps its base and renews some of its results. -/
theorem CurrentBut.alter {owner : NodeId} {f : Node → Node} (h : t.CurrentBut id name ws)
    (base : ∀ n, (f n).base = n.base) (settled : ∀ n, (f n).Settled)
    (renewed : ∀ n ∈ t.nodes, n.id = owner → n.FreshBut id name ws t.rootAggregate →
      (f n).FreshBut id name ws' t.rootAggregate)
    (others : ∀ n ∈ t.nodes, n.id ≠ owner → n.FreshBut id name ws t.rootAggregate →
      n.FreshBut id name ws' t.rootAggregate)
    (fewer : .valueCheck ∈ ws' → .valueCheck ∈ ws) :
    (t.alter owner f).CurrentBut id name ws' := by
  have kept : Keeps Node.base t (t.alter owner f) := keeps_alter t owner f base
  refine ⟨?_, ?_, ?_, ?_, ?_⟩
  · apply forall_mem_alter
    · exact fun n hn _ => (h.fitted n hn).of_base (base n)
    · exact fun n hn _ => h.fitted n hn
  · rw [kept.rootSlots]
    apply forall_mem_alter
    · exact fun n hn _ => (h.wired n hn).of_base (base n)
    · exact fun n hn _ => h.wired n hn
  · apply forall_mem_alter
    · exact fun n _ _ => settled n
    · exact fun n hn _ => h.settled n hn
  · rw [kept.rootAggregate]
    apply forall_mem_alter
    · exact fun n hn same => renewed n hn same (h.fresh n hn)
    · exact fun n hn other => others n hn other (h.fresh n hn)
  · intro hw
    apply forall_mem_alter
    · intro n hn _ hid
      have kind : (f n).kind = n.kind := show (f n).base.kind = n.base.kind by rw [base]
      have same : (f n).id = n.id := show (f n).base.id = n.base.id by rw [base]
      rw [kind]
      exact h.declared (fewer hw) n hn (same ▸ hid)
    · exact fun n hn _ => h.declared (fewer hw) n hn

theorem CurrentBut.congr (h : t.CurrentBut id name ws)
    (fresh : ∀ n ∈ t.nodes, n.FreshBut id name ws t.rootAggregate →
      n.FreshBut id name ws' t.rootAggregate)
    (fewer : .valueCheck ∈ ws' → .valueCheck ∈ ws) : t.CurrentBut id name ws' :=
  ⟨h.fitted, h.wired, h.settled, fun n hn => fresh n hn (h.fresh n hn), fun hw => h.declared (fewer hw)⟩

/-- Results do not depend on what the schema was asked. -/
theorem CurrentBut.desk (h : t.CurrentBut id name ws) (desk : Option Desk) :
    Tree.CurrentBut id name ws { t with desk } := h.of_nodes rfl

/-! ## Telling one watcher -/

theorem answerSchema_current (h : t.CurrentBut id name ws) (owner : NodeId)
    (rejection : Option String) :
    (t.alter owner fun n => n.answerSchema rejection).CurrentBut id name ws :=
  h.alter (fun n => n.base_answerSchema _) (fun _ => Node.settled_settle _)
    (fun _ _ _ hn => hn.answerSchema rejection) (fun _ _ _ hn => hn) fun hw => hw

theorem answerCheck_current (h : t.CurrentBut id name ws) (check : Nat)
    (rejection : Option String) : (t.answerCheck check rejection).CurrentBut id name ws := by
  unfold answerCheck
  split
  · exact answerSchema_current h _ rejection
  · exact h

theorem askSchema_current (h : t.CurrentBut id name ws) (owner : NodeId) :
    (t.askSchema owner).CurrentBut id name ws := by
  unfold askSchema
  split
  · rename_i desk node check _ _
    have waiting : ({ t with desk := some (desk.renew check.number) }.alter owner fun n =>
        n.answerSchema none).CurrentBut id name ws :=
      answerSchema_current (h.desk _) owner none
    dsimp only
    split
    · exact waiting
    · split
      · exact answerCheck_current (waiting.desk _) _ _
      · exact waiting.desk _
  · exact h

theorem recheckRule_current {owner : NodeId} {index : Nat}
    (h : t.CurrentBut id name (.rule owner index :: ws)) :
    (t.recheckRule owner index).CurrentBut id name ws := by
  refine h.alter (fun n => n.base_recheckRule _ _) (fun _ => Node.settled_settle _) ?_ ?_ ?_
  · intro n _ hi hn
    subst hi
    exact hn.recheckRule
  · intro n _ hi hn
    refine hn.congr (fun i hm => ?_) (fun _ hm => by simpa using hm) fun _ hm => by simpa using hm
    rcases List.mem_cons.mp hm with e | hm
    · cases e
      exact absurd rfl hi
    · exact hm
  · exact fun hm => List.mem_cons_of_mem _ hm

theorem followSlot_current {w : Watcher} (h : t.CurrentBut id name (w :: ws))
    (own : w = .display ∨ w = .valueCheck) : (t.followSlot id name w).CurrentBut id name ws := by
  have followed : (t.alter id fun n => n.followSlot name w).CurrentBut id name ws := by
    refine h.alter (fun n => n.base_followSlot _ _) (fun _ => Node.settled_settle _) ?_ ?_ ?_
    · intro n hm hi hn
      subst hi
      rcases own with rfl | rfl
      · exact hn.follow_display
      · exact hn.follow_valueCheck (h.fitted n hm) (h.declared List.mem_cons_self n hm rfl)
    · intro n _ hi hn
      refine hn.congr (fun i hm => ?_) (fun e => absurd e hi) fun e => absurd e hi
      rcases own with rfl | rfl <;> simpa using hm
    · exact fun hm => List.mem_cons_of_mem _ hm
  unfold followSlot
  dsimp only
  split
  · exact followed
  · exact followed.of_nodes rfl

/-- Telling a watcher renews what it works for. -/
theorem tell_current {w : Watcher} (h : t.CurrentBut id name (w :: ws)) :
    (t.tell id name w).CurrentBut id name ws := by
  cases w with
  | rule owner index => exact recheckRule_current h
  | schema owner =>
    refine askSchema_current (h.congr (fun n _ hn => ?_) fun hm => List.mem_cons_of_mem _ hm) owner
    exact hn.congr (fun i hm => by simpa using hm) (fun _ hm => by simpa using hm)
      fun _ hm => by simpa using hm
  | display => exact followSlot_current h (.inl rfl)
  | valueCheck => exact followSlot_current h (.inr rfl)

/-- When all are told, all results are current. -/
theorem tell_all_current (h : t.CurrentBut id name ws) :
    (ws.foldl (fun t w => t.tell id name w) t).CurrentBut id name [] := by
  induction ws generalizing t with
  | nil => exact h
  | cons w ws ih => exact ih (tell_current h)

end

end Tree

end QueryMarkup
