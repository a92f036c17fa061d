import QueryMarkup.Proofs.Tree.Telling

/-!
# Counting children anew

A node that is told how many children it has checks the rule about them again. No other node
changes, and of this one only the count and what it finds.
-/
namespace QueryMarkup

namespace Node

variable {n : Node}

/-- A node that is told how many children it has, and checks the rule about them again. -/
def recount (rootAggregate : String) (count : Nat) (n : Node) : Node :=
  if n.childCount = count then n
  else (n.rules.zipIdx.filter fun (c, _) => c.rule == .requireChild).foldl
    (fun m (_, index) => m.recheckRule rootAggregate index) { n with childCount := count }

/-- A node that is told how many children it has may find something else for the rule about them,
and so its findings may change. -/
structure Recounted (n m : Node) : Prop where
  same : m = { n with childCount := m.childCount, rules := m.rules, validation := m.validation }
  rules : m.rules.map (·.rule) = n.rules.map (·.rule)
  /-- All other rules keep their results. -/
  others : ∀ (i : Nat) (c : RuleCheck), n.rules[i]? = some c → c.rule ≠ .requireChild →
    m.rules[i]? = some c

theorem Recounted.refl (n : Node) : Recounted n n := ⟨rfl, rfl, fun _ _ hc _ => hc⟩

/-- Checking a rule again gives back the label and the markup that a settled node has. -/
theorem Settled.recheckRule_eq (h : n.Settled) (aggregate : String) (index : Nat) :
    ∃ validation, n.recheckRule aggregate index = { n with
      rules := n.rules.modify index fun c =>
        { c with outcome := c.outcome.again (c.rule.issues (n.scope aggregate)) }
      validation } := by
  refine ⟨(n.recheckRule aggregate index).validation, ?_⟩
  have label : (n.recheckRule aggregate index).label = n.label := h.label.symm
  have markup : (n.recheckRule aggregate index).markup = n.markup := h.markup.symm
  calc n.recheckRule aggregate index
      = { n with
          rules := n.rules.modify index fun c =>
            { c with outcome := c.outcome.again (c.rule.issues (n.scope aggregate)) }
          label := (n.recheckRule aggregate index).label
          markup := (n.recheckRule aggregate index).markup
          validation := (n.recheckRule aggregate index).validation } := rfl
    _ = _ := by rw [label, markup]

/-- Checking the rule about children again keeps a node as it was but for this rule. -/
theorem Recounted.recheckRule {m : Node} (h : Recounted n m) (settled : m.Settled) (aggregate : String)
    {index : Nat} {c : RuleCheck} (hc : n.rules[index]? = some c) (rule : c.rule = .requireChild) :
    Recounted n (m.recheckRule aggregate index) := by
  obtain ⟨count, checks, findings, rfl⟩ : ∃ childCount rules validation,
      m = { n with childCount, rules, validation } := ⟨_, _, _, h.same⟩
  obtain ⟨validation, e⟩ := settled.recheckRule_eq aggregate index
  rw [e]
  refine ⟨rfl, ?_, ?_⟩
  · rw [← h.rules]
    refine List.ext_getElem? fun i => ?_
    rw [List.getElem?_map, List.getElem?_map, List.getElem?_modify]
    by_cases here : index = i <;> cases checks[i]? <;> simp [here]
  · intro i d hd other
    have elsewhere : index ≠ i := by
      rintro rfl
      rw [hc] at hd
      cases hd
      exact other rule
    have kept : checks[i]? = some d := h.others i d hd other
    simp [elsewhere, kept]

theorem Settled.recounted (h : n.Settled) (aggregate : String) (count : Nat) :
    Recounted n (n.recount aggregate count) ∧ (n.recount aggregate count).childCount = count := by
  unfold recount
  split
  · rename_i same
    exact ⟨.refl n, same⟩
  · have checks : ∀ x ∈ n.rules.zipIdx.filter (fun (c, _) => c.rule == .requireChild),
        n.rules[x.2]? = some x.1 ∧ x.1.rule = .requireChild := by
      intro x hx
      obtain ⟨there, rule⟩ := List.mem_filter.mp hx
      exact ⟨List.mem_zipIdx_iff_getElem?.mp there, by simpa using rule⟩
    have start : Recounted n { n with childCount := count } := ⟨rfl, rfl, fun _ _ hc _ => hc⟩
    have settled : Node.Settled { n with childCount := count } := ⟨h.label, h.markup, h.validation⟩
    generalize n.rules.zipIdx.filter (fun (c, _) => c.rule == .requireChild) = indices at checks
    generalize told : ({ n with childCount := count } : Node) = m at start settled
    have counted : m.childCount = count := told ▸ rfl
    clear told
    induction indices generalizing m with
    | nil => exact ⟨start, counted⟩
    | cons x indices ih =>
      obtain ⟨hx, rule⟩ := checks x List.mem_cons_self
      exact ih (fun y hy => checks y (List.mem_cons_of_mem x hy)) _
        (start.recheckRule settled aggregate hx rule) (settled_settle _) counted

@[simp] theorem id_recount (n : Node) (aggregate : String) (count : Nat) :
    (n.recount aggregate count).id = n.id := by
  have steps (xs : List (RuleCheck × Nat)) (m : Node) :
      (xs.foldl (fun m (x : RuleCheck × Nat) => m.recheckRule aggregate x.2) m).id = m.id := by
    induction xs generalizing m with
    | nil => rfl
    | cons x xs ih => exact ih _
  unfold recount
  split
  · rfl
  · exact steps _ _

end Node

namespace Tree

variable {t t' : Tree} {n : Node}

theorem rootAggregate_congr (same : t'.nodes.map Node.value = t.nodes.map Node.value) :
    t'.rootAggregate = t.rootAggregate := by
  have first := congrArg List.head? same
  rw [List.head?_map, List.head?_map] at first
  have values := congrArg (Option.map fun value => value "aggregate") first
  rw [Option.map_map, Option.map_map] at values
  exact congrArg (·.getD "") values

/-- Telling a node the number of its children is a change of this node only. -/
theorem nodes_setChildCount (nd : t.ids.Nodup) (hn : n ∈ t.nodes) (count : Nat) :
    (t.setChildCount n.id count).nodes =
      t.nodes.map fun m => if m.id = n.id then m.recount t.rootAggregate count else m := by
  have only : ∀ m ∈ t.nodes, m.id = n.id → m = n := fun m hm => List.inj_on_of_nodup_map nd hm hn
  unfold setChildCount
  rw [node?_of_mem nd hn]
  dsimp only
  split
  · rename_i same
    refine ((List.map_congr_left fun m hm => ?_).trans (List.map_id _)).symm
    by_cases here : m.id = n.id
    · rw [if_pos here, only m hm here, Node.recount, if_pos same, id]
    · rw [if_neg here, id]
  · rename_i other
    -- no step changes the value that the rules read at the root
    have steps (xs : List (RuleCheck × Nat)) (u : Tree) :
        (xs.foldl (fun t (x : RuleCheck × Nat) => t.recheckRule n.id x.2) u).nodes =
          u.nodes.map fun m => if m.id = n.id then
            xs.foldl (fun m (x : RuleCheck × Nat) => m.recheckRule u.rootAggregate x.2) m else m := by
      induction xs generalizing u with
      | nil => simp
      | cons x xs ih =>
        have kept : (u.recheckRule n.id x.2).rootAggregate = u.rootAggregate :=
          (u.recheckRule_keeps n.id x.2).fixture.base.rootAggregate
        rw [List.foldl_cons, ih, kept, recheckRule, nodes_alter, List.map_map]
        refine List.map_congr_left fun m _ => ?_
        by_cases here : m.id = n.id
        · have id : (m.recheckRule u.rootAggregate x.2).id = n.id := here
          simp only [Function.comp_apply, if_pos here, if_pos id, List.foldl_cons]
        · simp only [Function.comp_apply, if_neg here]
    have kept : (t.alter n.id fun n => { n with childCount := count }).rootAggregate =
        t.rootAggregate :=
      rootAggregate_congr (keeps_alter t n.id (fun n => { n with childCount := count }) fun _ => rfl).nodes
    rw [steps, kept, nodes_alter, List.map_map]
    refine List.map_congr_left fun m hm => ?_
    by_cases here : m.id = n.id
    · simp only [Function.comp_apply, only m hm here, ↓reduceIte]
      rw [Node.recount, if_neg other]
    · simp only [Function.comp_apply, if_neg here]

end Tree

end QueryMarkup
