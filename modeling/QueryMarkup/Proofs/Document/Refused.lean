import QueryMarkup.Proofs.Document.Soundness
import QueryMarkup.Proofs.Tree.InPlace

/-!
# Refused changes

Which changes of a tree are refused, and why. A change needs the nodes that it names, an addition
something to be put below, and a removal a node that is not the root; there is no other reason. A
change that is refused leaves everything as it was, also when it is made step by step.
-/
namespace QueryMarkup.Tree

/-- The reason that there is no such node. -/
def unknown? (t : Tree) (id : NodeId) : Option TreeError :=
  if t.contains id then none else some (.unknownNode id)

/-- The reason why a change is refused, if there is one. -/
def refusal? (t : Tree) : Edit → Option TreeError
  | .add _ none => if t.selection.isNone then some .missingParent else none
  | .add _ (some parent) => t.unknown? parent
  | .addParsed _ _ parent =>
    if t.root?.isNone then none
    else match parent with
      | none => some .missingParent
      | some parent => t.unknown? parent
  | .remove id => if t.root?.map (·.id) = some id then some .removeRoot else t.unknown? id
  | .toggle id | .select (some id) | .setAttribute id _ _ | .insertParsed id _ _
  | .removeAttribute id _ => t.unknown? id
  | .clear | .reset | .select none | .writeAttribute .. | .resolve .. => none

/-- The reason why something was not made. -/
def reason? {α : Type} : Except TreeError α → Option TreeError
  | .ok _ => none
  | .error e => some e

section
variable {α β : Type} {t : Tree} {id : NodeId}

theorem reason?_map (made : Except TreeError α) (f : α → β) : reason? (made.map f) = reason? made := by
  cases made <;> rfl

/-- Where only the first step can fail, the reason is there. -/
theorem reason?_bind {f : α → Except TreeError β} (first : Except TreeError α)
    (total : ∀ a, reason? (f a) = none) : reason? (first >>= f) = reason? first := by
  cases first with
  | error err => rfl
  | ok a => exact total a

theorem unknown?_of_mem (live : id ∈ t.ids) : t.unknown? id = none := if_pos (contains_iff.mpr live)

theorem unknown?_of_not_mem (gone : id ∉ t.ids) : t.unknown? id = some (.unknownNode id) :=
  if_neg fun found => gone (contains_iff.mp found)

theorem reason?_getNode (t : Tree) (id : NodeId) : reason? (t.getNode id) = t.unknown? id := by
  unfold getNode unknown? contains
  cases t.node? id <;> rfl

theorem reason?_toggle (t : Tree) (id : NodeId) : reason? (t.toggle id) = t.unknown? id := by
  refine (reason?_bind _ fun n => ?_).trans (t.reason?_getNode id)
  split
  · rfl
  · dsimp only
    split <;> rfl

theorem reason?_select (t : Tree) (id : NodeId) : reason? (t.select (some id)) = t.unknown? id :=
  (reason?_bind _ fun _ => rfl).trans (t.reason?_getNode id)

theorem reason?_insertParsed (t : Tree) (id : NodeId) (name value : String) :
    reason? (t.insertParsed id name value) = t.unknown? id := by
  refine (reason?_bind _ fun n => ?_).trans (t.reason?_getNode id)
  split <;> rfl

theorem reason?_removeAttribute (t : Tree) (id : NodeId) (name : String) :
    reason? (t.removeAttribute id name) = t.unknown? id := by
  refine (reason?_bind _ fun n => ?_).trans (t.reason?_getNode id)
  split <;> rfl

theorem Sound.reason?_insert (h : t.Sound) (kind : Kind) (tag : String) (parent : NodeId) :
    reason? (t.insert kind tag parent) = t.unknown? parent := by
  by_cases live : parent ∈ t.ids
  · obtain ⟨t', made⟩ := h.insert_live live kind tag
    rw [made, unknown?_of_mem live]
    rfl
  · rw [insert_eq_error (splitAt_of_not_mem live), unknown?_of_not_mem live]
    rfl

/-- The child that a kind cannot be without is no reason. -/
theorem Sound.reason?_add_below (h : t.Sound) (kind : Kind) {parent : Option NodeId}
    (above : parent.or t.selection = some id) : reason? (t.add kind parent) = t.unknown? id := by
  rw [← h.reason?_insert kind (kind.tag?.getD "") id, add, above]
  cases made : t.insert kind (kind.tag?.getD "") id with
  | error err => simp only [made, bind, Except.bind]
  | ok added =>
    obtain ⟨t', new⟩ := added
    simp only [made, bind, Except.bind]
    cases kind.mandatoryChild? with
    | none => rfl
    | some child =>
      obtain ⟨t'', made'⟩ := (insert_sound h made).insert_live (id_mem_insert made) child (child.tag?.getD "")
      simp only [made']
      rfl

theorem Sound.reason?_add (h : t.Sound) (kind : Kind) (parent : Option NodeId) :
    reason? (t.add kind parent) = t.refusal? (.add kind parent) := by
  cases parent with
  | some id => exact h.reason?_add_below kind rfl
  | none =>
    cases selected : t.selection with
    | none =>
      rw [add, refusal?, selected]
      rfl
    | some id =>
      have above : Option.or none t.selection = some id := selected
      rw [h.reason?_add_below kind above, unknown?_of_mem (h.selection id selected), refusal?, selected]
      rfl

theorem Sound.reason?_addParsed (h : t.Sound) (kind : Kind) (tag : String) (parent : Option NodeId) :
    reason? (t.addParsed kind tag parent) = t.refusal? (.addParsed kind tag parent) := by
  have bare : t.root?.isNone = t.isEmpty := by
    unfold root? isEmpty
    cases t.nodes <;> rfl
  unfold addParsed refusal?
  rw [bare]
  split
  · rfl
  · cases parent with
    | none => rfl
    | some id => exact h.reason?_insert kind tag id

/-- The root is the node without a parent. -/
theorem Sound.root_iff (h : t.Sound) {n : Node} (hn : n ∈ t.nodes) :
    t.root?.map (·.id) = some n.id ↔ n.parent = none := by
  constructor
  · intro root
    obtain ⟨r, first, same⟩ := Option.map_eq_some_iff.mp root
    obtain ⟨rest, nodes⟩ := List.head?_eq_some_iff.mp first
    obtain rfl := h.eq_of_id hn (nodes ▸ List.mem_cons_self) same
    exact h.arranged.root r.shape (by rw [shapes, nodes]; rfl)
  · intro top
    rw [root?, Option.mem_def.mp (h.root_of_parent hn top)]
    rfl

theorem Sound.reason?_remove (h : t.Sound) (id : NodeId) :
    reason? (t.remove id) = t.refusal? (.remove id) := by
  rw [refusal?]
  by_cases live : id ∈ t.ids
  · obtain ⟨n, hn, rfl⟩ := List.mem_map.mp live
    obtain ⟨before, after, split⟩ := List.append_of_mem hn
    cases inner : n.parent with
    | none =>
      rw [if_pos ((h.root_iff hn).mpr inner), remove, h.splitAt_eq split]
      simp only [inner]
      rfl
    | some parent =>
      have below : t.root?.map (·.id) ≠ some n.id := by
        rw [Ne, h.root_iff hn, inner]
        nofun
      obtain ⟨front, last, rfl⟩ := h.exists_last split inner
      rw [List.append_assoc] at split
      obtain ⟨t', made⟩ := h.exists_remove split inner
      rw [if_neg below, unknown?_of_mem live, made]
      rfl
  · have below : t.root?.map (·.id) ≠ some id := by
      intro root
      obtain ⟨r, first, rfl⟩ := Option.map_eq_some_iff.mp root
      exact live (List.mem_map_of_mem (List.mem_of_mem_head? first))
    rw [if_neg below, unknown?_of_not_mem live, remove, splitAt_of_not_mem live]
    rfl

theorem Sound.reason?_perform (h : t.Sound) (e : Edit) : reason? (t.perform e) = t.refusal? e := by
  cases e with
  | clear | reset | writeAttribute => rfl
  | add kind parent => exact (reason?_map _ _).trans (h.reason?_add kind parent)
  | addParsed kind tag parent => exact (reason?_map _ _).trans (h.reason?_addParsed kind tag parent)
  | remove id => exact (reason?_map _ _).trans (h.reason?_remove id)
  | toggle id => exact (reason?_map _ _).trans (t.reason?_toggle id)
  | select id =>
    cases id with
    | none => rfl
    | some id => exact (reason?_map _ _).trans (t.reason?_select id)
  | setAttribute id name value =>
    rw [perform, setAttribute_eq]
    exact (reason?_map _ _).trans ((reason?_map _ _).trans (t.reason?_insertParsed id name value))
  | insertParsed id name value => exact (reason?_map _ _).trans (t.reason?_insertParsed id name value)
  | removeAttribute id name => exact (reason?_map _ _).trans (t.reason?_removeAttribute id name)
  | resolve number verdict =>
    rw [perform]
    cases t.resolve number verdict <;> rfl

/-- A change is refused exactly for its reason, and then nothing has changed: no node and no link, nothing that
is selected, counted or observed, and nothing that the schema was asked. Without a reason it is made. -/
theorem reached_refused {desk : Option Desk} (h : Reached desk t) (e : Edit) :
    match t.refusal? e with
    | some err => t.perform e = .error err ∧ performInPlace e t = .error err t
    | none => ∃ t' reply, t.perform e = .ok (t', reply) ∧ performInPlace e t = .ok reply t' := by
  have same := h.sound.performInPlace_eq e
  rw [← h.sound.reason?_perform e]
  cases made : t.perform e with
  | error err =>
    rw [made] at same
    exact ⟨rfl, same⟩
  | ok made' =>
    obtain ⟨t', reply⟩ := made'
    rw [made] at same
    exact ⟨t', reply, rfl, same⟩

/-- The root stays, and nothing comes below a node that is not there. A filter comes below the entity,
together with its condition. -/
theorem reached_refused_run :
    let t := (Document.parse (.new none) "<fetch><entity/></fetch>" {}).1
    Reached none t ∧
      (t.perform (.remove ⟨0⟩) = .error .removeRoot ∧
        performInPlace (.remove ⟨0⟩) t = .error .removeRoot t) ∧
      (t.perform (.add .filter (some ⟨7⟩)) = .error (.unknownNode ⟨7⟩) ∧
        performInPlace (.add .filter (some ⟨7⟩)) t = .error (.unknownNode ⟨7⟩) t) ∧
      ∃ t' reply, t.perform (.add .filter (some ⟨1⟩)) = .ok (t', reply) ∧
        performInPlace (.add .filter (some ⟨1⟩)) t = .ok reply t' := by
  intro t
  have reached : Reached none t := Reached.new.parse _ {}
  have removed := reached_refused reached (.remove ⟨0⟩)
  have added := reached_refused reached (.add .filter (some ⟨7⟩))
  have made := reached_refused reached (.add .filter (some ⟨1⟩))
  rw [show t.refusal? (.remove ⟨0⟩) = some .removeRoot by decide +kernel] at removed
  rw [show t.refusal? (.add .filter (some ⟨7⟩)) = some (.unknownNode ⟨7⟩) by decide +kernel] at added
  rw [show t.refusal? (.add .filter (some ⟨1⟩)) = none by decide +kernel] at made
  exact ⟨reached, removed, added, made⟩

end

end QueryMarkup.Tree
