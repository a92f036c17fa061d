import QueryMarkup.Proofs.Tree.Path
import QueryMarkup.Tree.Edit

/-!
# What a step leaves as it is

A view of nodes is kept by a change of a tree when no node looks different under it.
Telling the watchers of a slot keeps the base of every node, which is all but what
follows from the values: written forms, findings, label and markup.
-/
namespace QueryMarkup

/-- A node without the results of its checks and what is put together from its parts. -/
def Node.unchecked (n : Node) : Node :=
  { n with
    rules := n.rules.map fun c => ⟨c.rule, ⟨[], 0⟩⟩
    schema := none, label := "", markup := "", validation := ⟨[], 0⟩ }

/-- An attribute without what follows from its value. -/
def Attribute.fixture (a : Attribute) : Attribute :=
  { a with display := ⟨"", 0⟩, check := a.check.map fun c => (c.1, ⟨[], 0⟩) }

/-- A node without what follows from the values in the tree. -/
def Node.fixture (n : Node) : Node :=
  { n.unchecked with attributes := n.attributes.map Attribute.fixture }

/-- An attribute without what follows from its value, and without its place in a text. -/
def Attribute.base (a : Attribute) : Attribute :=
  { a with display := ⟨"", 0⟩, check := a.check.map fun c => (c.1, ⟨[], 0⟩), span := none }

/-- A node without what follows from the values in the tree, and without what hosts
and the reader of markup attach to it. -/
def Node.base (n : Node) : Node :=
  { n with
    attributes := n.attributes.map Attribute.base
    rules := n.rules.map fun c => ⟨c.rule, ⟨[], 0⟩⟩
    schema := none, label := "", markup := "", validation := ⟨[], 0⟩, observers := 0, span := none }

theorem Node.fixture_unchecked (n : Node) : n.unchecked.fixture = n.fixture := by
  simp [Node.unchecked, Node.fixture]

theorem Attribute.base_fixture (a : Attribute) : a.fixture.base = a.base := by
  simp [Attribute.fixture, Attribute.base, Option.map_map, Function.comp_def]

theorem Node.base_fixture (n : Node) : n.fixture.base = n.base := by
  simp [Node.unchecked, Node.fixture, Node.base, Attribute.base_fixture]

namespace Tree

/-- No node looks different under the view, and names and selection are the same. -/
structure Keeps {β : Type} (view : Node → β) (t t' : Tree) : Prop where
  nodes : t'.nodes.map view = t.nodes.map view
  issued : t'.issued = t.issued
  selection : t'.selection = t.selection

section
variable {β γ : Type} {view : Node → β} {t t' t'' : Tree}

theorem Keeps.refl (view : Node → β) (t : Tree) : Keeps view t t := ⟨rfl, rfl, rfl⟩

theorem Keeps.trans (h : Keeps view t t') (h' : Keeps view t' t'') : Keeps view t t'' :=
  ⟨h'.nodes.trans h.nodes, h'.issued.trans h.issued, h'.selection.trans h.selection⟩

/-- What is kept under a view is kept under all that can be read off the view. -/
theorem Keeps.map (f : β → γ) (h : Keeps view t t') : Keeps (f ∘ view) t t' where
  nodes := by
    have := congrArg (List.map f) h.nodes
    rwa [List.map_map, List.map_map] at this
  issued := h.issued
  selection := h.selection

/-- What can be read off a reduced node is kept where reduced nodes are. -/
theorem Keeps.through {reduce : Node → Node} (same : ∀ n, view (reduce n) = view n)
    (h : Keeps reduce t t') : Keeps view t t' := by
  have kept := h.map view
  rwa [show view ∘ reduce = view from funext same] at kept

theorem keeps_foldl {α : Type} (step : Tree → α → Tree) (h : ∀ t x, Keeps view t (step t x))
    (t : Tree) (xs : List α) : Keeps view t (xs.foldl step t) := by
  induction xs generalizing t with
  | nil => exact .refl view t
  | cons x xs ih => exact (h t x).trans (ih (step t x))

theorem keeps_alter (t : Tree) (id : NodeId) (f : Node → Node) (h : ∀ n, view (f n) = view n) :
    Keeps view t (t.alter id f) where
  nodes := by
    rw [alter, List.map_map]
    refine List.map_congr_left fun n _ => ?_
    by_cases hn : n.id = id <;> simp [hn, h]
  issued := rfl
  selection := rfl

theorem nodes_alter (t : Tree) (id : NodeId) (f : Node → Node) :
    (t.alter id f).nodes = t.nodes.map fun n => if n.id = id then f n else n := rfl

theorem mem_alter {id : NodeId} {f : Node → Node} {m : Node} (h : m ∈ (t.alter id f).nodes) :
    ∃ n ∈ t.nodes, (n.id = id ∧ m = f n) ∨ (n.id ≠ id ∧ m = n) := by
  rw [nodes_alter] at h
  obtain ⟨n, hn, rfl⟩ := List.mem_map.mp h
  by_cases hi : n.id = id
  · exact ⟨n, hn, .inl ⟨hi, if_pos hi⟩⟩
  · exact ⟨n, hn, .inr ⟨hi, if_neg hi⟩⟩

/-- What holds of a changed node, and of the others, holds of all nodes afterwards. -/
theorem forall_mem_alter {P : Node → Prop} {id : NodeId} {f : Node → Node}
    (here : ∀ n ∈ t.nodes, n.id = id → P (f n)) (elsewhere : ∀ n ∈ t.nodes, n.id ≠ id → P n) :
    ∀ m ∈ (t.alter id f).nodes, P m := by
  intro m hm
  obtain ⟨n, hn, ⟨same, rfl⟩ | ⟨other, rfl⟩⟩ := mem_alter hm
  · exact here n hn same
  · exact elsewhere m hn other

/-- What a change of one node does under a view. -/
theorem map_nodes_alter (t : Tree) (id : NodeId) (f : Node → Node) (ids : β → NodeId) (g : β → β)
    (hids : ∀ n, ids (view n) = n.id) (h : ∀ n, view (f n) = g (view n)) :
    (t.alter id f).nodes.map view =
      (t.nodes.map view).map fun b => if ids b = id then g b else b := by
  rw [nodes_alter, List.map_map, List.map_map]
  refine List.map_congr_left fun n _ => ?_
  by_cases hn : n.id = id <;> simp [hids, hn, h]

theorem keeps_touch (view : Node → β) (t : Tree) : Keeps view t t.touch := ⟨rfl, rfl, rfl⟩

end

/-! ## Looking up nodes -/

theorem node?_eq_some {t : Tree} {id : NodeId} {n : Node} (h : t.node? id = some n) :
    n ∈ t.nodes ∧ n.id = id :=
  ⟨List.mem_of_find?_eq_some h, by simpa using List.find?_some h⟩

theorem node?_eq_none {t : Tree} {id : NodeId} : t.node? id = none ↔ ∀ n ∈ t.nodes, n.id ≠ id := by
  simp [node?]

theorem contains_iff {t : Tree} {id : NodeId} : t.contains id = true ↔ id ∈ t.ids := by
  simp [contains, node?, ids]

theorem splitAt_eq_some {id : NodeId} {nodes before after : List Node} {n : Node}
    (h : splitAt id nodes = some (before, n, after)) :
    nodes = before ++ n :: after ∧ n.id = id ∧ ∀ m ∈ before, m.id ≠ id := by
  induction nodes generalizing before with
  | nil => simp [splitAt] at h
  | cons m nodes ih =>
    by_cases hm : m.id = id
    · simp only [splitAt, hm, ↓reduceIte, Option.some.injEq, Prod.mk.injEq] at h
      obtain ⟨rfl, rfl, rfl⟩ := h
      exact ⟨rfl, hm, by simp⟩
    · simp only [splitAt, hm, ↓reduceIte, Option.map_eq_some_iff] at h
      obtain ⟨⟨b, f, a⟩, hs, e⟩ := h
      cases e
      obtain ⟨rfl, hid, hb⟩ := ih hs
      exact ⟨rfl, hid, by simpa [hm] using hb⟩

theorem splitAt_append {id : NodeId} {before after : List Node} {n : Node} (hn : n.id = id)
    (hb : ∀ m ∈ before, m.id ≠ id) : splitAt id (before ++ n :: after) = some (before, n, after) := by
  induction before with
  | nil => simp [splitAt, hn]
  | cons m before ih =>
    have hm := hb m List.mem_cons_self
    simp [splitAt, hm, ih fun m h => hb m (List.mem_cons_of_mem _ h)]

/-! ## Telling keeps the fixture of every node -/

end Tree

namespace Node

@[simp] theorem unchecked_settle (n : Node) : n.settle.unchecked = n.unchecked := rfl

@[simp] theorem fixture_settle (n : Node) : n.settle.fixture = n.fixture := rfl

theorem unchecked_recheckRule (n : Node) (aggregate : String) (index : Nat) :
    (n.recheckRule aggregate index).unchecked = n.unchecked := by
  rw [recheckRule, unchecked_settle]
  simp only [unchecked, mk.injEq, true_and, and_true]
  refine List.ext_getElem? fun i => ?_
  rw [List.getElem?_map, List.getElem?_map, List.getElem?_modify]
  by_cases hi : index = i <;> cases n.rules[i]? <;> simp [hi]

/-- What does not look at results does not see a rule evaluated again. -/
theorem view_recheckRule {β : Type} {view : Node → β} (unchecked : ∀ n, view n.unchecked = view n)
    (n : Node) (aggregate : String) (index : Nat) : view (n.recheckRule aggregate index) = view n := by
  rw [← unchecked, unchecked_recheckRule, unchecked]

theorem unchecked_answerSchema (n : Node) (rejection : Option String) :
    (n.answerSchema rejection).unchecked = n.unchecked := rfl

end Node

theorem Attribute.fixture_follow (a : Attribute) (value : String) (watcher : Watcher) :
    (a.follow value watcher).fixture = a.fixture := by
  cases watcher with
  | valueCheck =>
    simp only [Attribute.follow, Attribute.recheck, Attribute.fixture, Option.map_map]
    rfl
  | _ => rfl

namespace Node

theorem fixture_followSlot (n : Node) (name : String) (watcher : Watcher) :
    (n.followSlot name watcher).fixture = n.fixture := by
  rw [followSlot, fixture_settle]
  simp only [fixture, unchecked, alterAttribute, mk.injEq, true_and, and_true, List.map_map]
  refine List.map_congr_left fun a _ => ?_
  by_cases ha : a.name = name <;> simp [ha, Attribute.fixture_follow]

theorem base_eq_of_fixture {n m : Node} (h : n.fixture = m.fixture) : n.base = m.base := by
  rw [← n.base_fixture, h, m.base_fixture]

theorem base_eq_of_unchecked {n m : Node} (h : n.unchecked = m.unchecked) : n.base = m.base := by
  refine base_eq_of_fixture ?_
  rw [← n.fixture_unchecked, h, m.fixture_unchecked]

theorem base_recheckRule (n : Node) (aggregate : String) (index : Nat) :
    (n.recheckRule aggregate index).base = n.base :=
  base_eq_of_unchecked (n.unchecked_recheckRule aggregate index)

theorem base_answerSchema (n : Node) (rejection : Option String) :
    (n.answerSchema rejection).base = n.base := rfl

theorem base_followSlot (n : Node) (name : String) (watcher : Watcher) :
    (n.followSlot name watcher).base = n.base :=
  base_eq_of_fixture (n.fixture_followSlot name watcher)

end Node

namespace Tree

section
variable {t t' : Tree}

theorem Keeps.fixture (h : Keeps Node.unchecked t t') : Keeps Node.fixture t t' :=
  h.through Node.fixture_unchecked

theorem Keeps.base (h : Keeps Node.fixture t t') : Keeps Node.base t t' := h.through Node.base_fixture

end

theorem recheckRule_keeps (t : Tree) (id : NodeId) (index : Nat) :
    Keeps Node.unchecked t (t.recheckRule id index) :=
  keeps_alter t id _ fun n => n.unchecked_recheckRule _ _

/-- Only the nodes matter, not the desk. -/
theorem keeps_desk {β : Type} (view : Node → β) (t : Tree) (desk : Option Desk) :
    Keeps view t { t with desk } := ⟨rfl, rfl, rfl⟩

section
variable {β : Type} {view : Node → β}

theorem answerCheck_keeps_of (answer : ∀ n rejection, view (n.answerSchema rejection) = view n)
    (t : Tree) (check : Nat) (rejection : Option String) :
    Keeps view t (t.answerCheck check rejection) := by
  unfold answerCheck
  split
  · exact keeps_alter t _ _ fun n => answer n _
  · exact .refl _ t

/-- Asking the schema shows under no view that does not look at its answers. -/
theorem askSchema_keeps_of (answer : ∀ n rejection, view (n.answerSchema rejection) = view n)
    (t : Tree) (id : NodeId) : Keeps view t (t.askSchema id) := by
  unfold askSchema
  split
  · rename_i desk node check _ _
    have waiting : Keeps view t
        ({ t with desk := some (desk.renew check.number) }.alter id fun n => n.answerSchema none) :=
      (keeps_desk _ t _).trans (keeps_alter _ id _ fun n => answer n _)
    dsimp only
    split
    · exact waiting
    · split
      · exact (waiting.trans (keeps_desk _ _ _)).trans (answerCheck_keeps_of answer _ _ _)
      · exact waiting.trans (keeps_desk _ _ _)
  · exact .refl _ t

theorem followSlot_keeps_of (follow : ∀ n name watcher, view (n.followSlot name watcher) = view n)
    (t : Tree) (id : NodeId) (name : String) (watcher : Watcher) :
    Keeps view t (t.followSlot id name watcher) := by
  have h : Keeps view t (t.alter id fun n => n.followSlot name watcher) :=
    keeps_alter t id _ fun n => follow n _ _
  unfold followSlot
  dsimp only
  split
  · exact h
  · exact h.trans (keeps_touch _ _)

/-- Telling a watcher shows under no view that does not look at results. -/
theorem tell_keeps_of (recheck : ∀ n aggregate index, view (n.recheckRule aggregate index) = view n)
    (answer : ∀ n rejection, view (n.answerSchema rejection) = view n)
    (follow : ∀ n name watcher, view (n.followSlot name watcher) = view n)
    (t : Tree) (id : NodeId) (name : String) (watcher : Watcher) :
    Keeps view t (t.tell id name watcher) := by
  cases watcher with
  | rule owner index => exact keeps_alter t owner _ fun n => recheck n _ index
  | schema owner => exact askSchema_keeps_of answer t owner
  | display => exact followSlot_keeps_of follow t id name .display
  | valueCheck => exact followSlot_keeps_of follow t id name .valueCheck

end

theorem askSchema_keeps (t : Tree) (id : NodeId) : Keeps Node.unchecked t (t.askSchema id) :=
  askSchema_keeps_of Node.unchecked_answerSchema t id

theorem tell_keeps (t : Tree) (id : NodeId) (name : String) (watcher : Watcher) :
    Keeps Node.fixture t (t.tell id name watcher) :=
  tell_keeps_of (Node.view_recheckRule Node.fixture_unchecked) (fun _ _ => rfl)
    Node.fixture_followSlot t id name watcher

/-- A write changes one slot of one node, or nothing when the value is there already. -/
theorem writeSlot_cases (t : Tree) (id : NodeId) (name value : String) :
    (t.writeSlot id name value = t ∧ ∀ n, t.node? id = some n → n.value name = value) ∨
      Keeps Node.fixture (t.alter id fun n => n.setSlot name value) (t.writeSlot id name value) := by
  unfold writeSlot
  split
  · rename_i h
    exact .inl ⟨rfl, by simp [h]⟩
  · rename_i n h
    dsimp only
    split
    · rename_i same
      refine .inl ⟨rfl, fun m hm => ?_⟩
      rw [h] at hm
      cases hm
      exact same
    · exact .inr (keeps_foldl _ (fun t w => tell_keeps t id name w) _ _)

/-- An inquiry that is answered is open and gets closed. The answer is stored unless it came
too late. -/
theorem resolve_eq_some {t t' : Tree} {number : Nat} {verdict : Verdict} {late : Bool}
    (e : t.resolve number verdict = some (t', late)) : ∃ desk request, t.desk = some desk ∧
      desk.openRequest? number = some request ∧ late = desk.isStale request ∧
        let closed := { t with desk := some (desk.close number) }
        t' = if late then closed else closed.answerCheck request.check verdict.message? := by
  unfold resolve at e
  simp only [bind, Option.bind_eq_some_iff] at e
  obtain ⟨desk, found, request, opened, e⟩ := e
  refine ⟨desk, request, found, opened, ?_⟩
  split at e
  · rename_i stale
    cases e
    exact ⟨stale.symm, rfl⟩
  · rename_i current
    cases e
    exact ⟨by simpa using current, rfl⟩

theorem resolve_keeps_of {β : Type} {view : Node → β}
    (answer : ∀ n rejection, view (n.answerSchema rejection) = view n) {t t' : Tree} {number : Nat}
    {verdict : Verdict} {late : Bool} (e : t.resolve number verdict = some (t', late)) :
    Keeps view t t' := by
  obtain ⟨desk, request, -, -, -, rfl⟩ := resolve_eq_some e
  split
  · exact keeps_desk _ t _
  · exact (keeps_desk _ t _).trans (answerCheck_keeps_of answer _ _ _)

theorem resolve_keeps {t t' : Tree} {number : Nat} {verdict : Verdict} {late : Bool}
    (e : t.resolve number verdict = some (t', late)) : Keeps Node.unchecked t t' :=
  resolve_keeps_of Node.unchecked_answerSchema e

end Tree

theorem Tree.Keeps.shape {t t' : Tree} (h : Tree.Keeps Node.base t t') :
    Tree.Keeps Node.shape t t' :=
  h.map Node.shape

/-- What a write does not change, as far as it does not depend on results. -/
theorem Tree.writeSlot_keeps_of {β : Type} {view : Node → β}
    (recheck : ∀ n aggregate index, view (n.recheckRule aggregate index) = view n)
    (answer : ∀ n rejection, view (n.answerSchema rejection) = view n)
    (follow : ∀ n name watcher, view (n.followSlot name watcher) = view n)
    (set : ∀ n name value, view (n.setSlot name value) = view n) (t : Tree) (id : NodeId)
    (name value : String) : Tree.Keeps view t (t.writeSlot id name value) := by
  unfold writeSlot
  split
  · exact .refl _ t
  · dsimp only
    split
    · exact .refl _ t
    · exact (Tree.keeps_alter t id _ fun n => set n name value).trans
        (keeps_foldl _ (fun t w => tell_keeps_of recheck answer follow t id name w) _ _)

theorem Tree.writeSlot_keeps {β : Type} {view : Node → β} (fixture : ∀ n, view n.fixture = view n)
    (set : ∀ n name value, view (n.setSlot name value) = view n) (t : Tree) (id : NodeId)
    (name value : String) : Tree.Keeps view t (t.writeSlot id name value) := by
  rcases t.writeSlot_cases id name value with ⟨h, _⟩ | h
  · rw [h]
    exact .refl _ t
  · exact (Tree.keeps_alter t id _ fun n => set n name value).trans (h.through fixture)

/-- Storing a written value in an attribute that was not there shows only where the
attribute does. -/
theorem Tree.createAttribute_keeps {β : Type} {view : Node → β}
    (insert : ∀ n name, view (n.insertAttribute name) = view n) (t : Tree) (id : NodeId)
    (name value : String) :
    Tree.Keeps view (t.writeSlot id name value) (t.createAttribute id name value) :=
  (keeps_alter _ id _ fun n => insert n name).trans (keeps_touch _ _)

/-- One more observer shows only in their number. -/
theorem Tree.observe_keeps {β : Type} {view : Node → β}
    (h : ∀ n observers, view { n with observers } = view n) {t t' : Tree} {id : NodeId}
    (e : t.observe id = .ok t') : Tree.Keeps view t t' := by
  unfold observe at e
  cases found : t.getNode id with
  | error missing => simp [found, bind, Except.bind] at e
  | ok n =>
    simp only [found, bind, Except.bind] at e
    cases e
    exact keeps_alter t id _ fun n => h n _

theorem Tree.eraseAttribute_keeps {β : Type} {view : Node → β}
    (erase : ∀ n name, view (n.eraseAttribute name) = view n) (t : Tree) (id : NodeId)
    (name : String) : Tree.Keeps view t (t.alter id fun n => n.eraseAttribute name).touch :=
  (keeps_alter t id _ fun n => erase n name).trans (keeps_touch _ _)

end QueryMarkup
