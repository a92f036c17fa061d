import QueryMarkup.Proofs.Document.Growth
import QueryMarkup.Proofs.Document.Subscriptions
import QueryMarkup.Proofs.Tree.Demanding
import QueryMarkup.Proofs.Tree.InPlace
import QueryMarkup.Proofs.Tree.Lasting
import QueryMarkup.Proofs.Tree.Rechecking

/-!
# Validators run for what they look at

What an edit lets be evaluated again, in every tree that edits and reading lead to.
-/
namespace QueryMarkup

variable {t t' : Tree} {n p : Node} {v : Validator} {k : Nat} {id : NodeId}

namespace Tree

theorem runs?_setSelection (t : Tree) (selection : Option NodeId) :
    (t.setSelection selection).runs? = t.runs? :=
  runs?_congr (by rw [nodes_setSelection])

/-! ## Children -/

/-- What was there before is not evaluated for the child that a new node comes with. -/
theorem Sound.runs?_add (h : t.Sound) {kind : Kind} {parent : Option NodeId} {above : NodeId}
    (under : parent.or t.selection = some above) (e : t.add kind parent = .ok (t', id))
    (existed : t.runs? v = some k) :
    t'.runs? v = some (k + if t.demandsChild above v then 1 else 0) := by
  obtain ⟨above', added, here, made, rest⟩ := add_eq_ok e
  obtain rfl : above = above' := Option.some.inj (under.symm.trans here)
  have one := h.runs?_insert made existed
  rcases rest with rfl | ⟨child, both, other, -, made', rfl⟩
  · rw [runs?_setSelection, one]
  · -- what was there before is no rule of the new node
    have apart : added.demandsChild id v = false := by
      obtain ⟨m, hm, here, -⟩ := runs?_eq_some existed
      have fresh : v.node ≠ id := by
        intro same
        rw [(insert_issued made).1] at same
        exact h.issued_not_mem (List.mem_map.mpr ⟨m, hm, here.trans same⟩)
      simp [demandsChild, fresh]
    rw [runs?_setSelection, (insert_sound h made).runs?_insert made' one, apart]
    rfl

theorem Grafted.length_children {front rest : List Node} {branch : List Entry}
    (graft : Grafted p.id front rest branch t t') (h : t.Sound) (h' : t'.Sound) (hp : p ∈ t.nodes) :
    (t'.children p.id).length = (t.children p.id).length + 1 := by
  obtain ⟨p', hp', hosting⟩ := graft.hosting p hp
  have counted := h'.length_children hp'
  rw [hosting.id] at counted
  rw [counted, h.length_children hp, (hosting.above rfl).1]

theorem Sound.length_children_remove (h : t.Sound) (current : t.Current) (hp : p ∈ t.nodes)
    (hn : n ∈ t.children p.id) (e : t.remove n.id = .ok t') :
    (t'.children p.id).length + 1 = (t.children p.id).length := by
  obtain ⟨there, inner⟩ := (h.mem_children_iff hp).mp hn
  obtain ⟨before, last, n', after, parent, cut, -, -⟩ := remove_eq_ok e
  obtain ⟨split, same, -⟩ := splitAt_eq_some cut
  rw [List.append_assoc, List.singleton_append] at split
  obtain rfl := (h.eq_of_id there (split ▸ by simp) same).symm
  have stays : ¬ t.Under n.id p.id := by
    intro under
    have deeper := (h.level_of_mem_children hp hn).2
    by_cases same : p.id = n.id
    · rw [h.eq_of_id there hp same] at deeper
      omega
    · have higher := h.level_lt_of_below there hp ⟨under, same⟩
      omega
  obtain ⟨p', hp', bereft⟩ := h.bereft current split hp inner e hp stays
  have counted := (remove_sound h e).length_children hp'
  rw [bereft.id] at counted
  rw [counted, h.length_children hp, (bereft.above rfl).1]

end Tree

/-- The node below which an edit adds one. -/
def Edit.under? (selection : Option NodeId) : Edit → Option NodeId
  | .add _ parent => parent.or selection
  | .addParsed _ _ parent => parent
  | _ => none

namespace Tree

/-- A new child lets the rule of its parent be evaluated that demands one, and no other validator
that was there. -/
theorem Sound.edit_under (h : t.Sound) (current : t.Current) (hp : p ∈ t.nodes) {e : Edit}
    (under : e.under? t.selection = some p.id) :
    ((t.edit e).children p.id).length = (t.children p.id).length + 1 ∧
      ∀ v k, t.runs? v = some k →
        (t.edit e).runs? v = some (k + if t.demandsChild p.id v then 1 else 0) := by
  obtain ⟨before, after, split⟩ := List.append_of_mem hp
  cases e with
  | add kind parent =>
    obtain ⟨t', made, -, graft⟩ := h.exists_add current split kind under
    have edited : t.edit (.add kind parent) = t' := by
      rw [edit, perform, made]
      rfl
    rw [edited]
    exact ⟨graft.length_children h ((add_changes made).keep Change.sound h) hp,
      fun v k => h.runs?_add under made⟩
  | addParsed kind tag parent =>
    obtain rfl : parent = some p.id := under
    obtain ⟨t', made, -, -, graft⟩ := h.exists_insert current split kind tag
    have inner : t.isEmpty = false := by
      rw [isEmpty, split]
      cases before <;> rfl
    have edited : t.edit (.addParsed kind tag (some p.id)) = t' := by
      rw [edit, perform, addParsed, inner, made]
      rfl
    rw [edited]
    exact ⟨graft.length_children h (insert_sound h made) hp, fun v k => h.runs?_insert made⟩
  | _ => cases under

/-- A child that goes lets the rule of its parent be evaluated that demands one, and no other
validator that stays. -/
theorem Sound.edit_remove (h : t.Sound) (current : t.Current) (hp : p ∈ t.nodes)
    (hn : n ∈ t.children p.id) :
    ((t.edit (.remove n.id)).children p.id).length + 1 = (t.children p.id).length ∧
      ∀ v k, t.runs? v = some k → (t.edit (.remove n.id)).runs? v =
        if v.node ∈ t.goneWith n.id then none
        else some (k + if t.demandsChild p.id v then 1 else 0) := by
  obtain ⟨there, inner⟩ := (h.mem_children_iff hp).mp hn
  obtain ⟨before, after, split⟩ := List.append_of_mem there
  obtain ⟨front, last, rfl⟩ := h.exists_last split inner
  rw [List.append_assoc] at split
  obtain ⟨t', made⟩ := h.exists_remove split inner
  have edited : t.edit (.remove n.id) = t' := by
    rw [edit, perform, made]
    rfl
  rw [edited]
  exact ⟨h.length_children_remove current hp hn made, fun v k => h.runs?_remove there hp inner made⟩

/-! ## In every tree that is reached -/

/-- Without a schema, a rule or a check of a value watches a slot as often as it looks there. An edit
of an attribute lets it be evaluated so often, if the value changes. The check of an attribute that
is removed sees the empty value first. A child that comes or goes lets the rule of its parent be
evaluated that demands one. Nothing else that stays is evaluated. -/
theorem reached_runs (h : Reached none t) (existed : t.runs? v = some k) :
    (∀ n ∈ t.nodes, ∀ name, (n.slots.get name).watchers.countP
      (fun w => w.validator? n.id name = some v) = t.timesWatched v n.id name) ∧
    (∀ e id name, e.slot? = some (id, name) → (t.edit e).runs? v =
      if e = .removeAttribute id name ∧ v = .value id name then none
      else some (k + if (t.edit e).valueAt (id, name) = t.valueAt (id, name) then 0
        else t.timesWatched v id name)) ∧
    (∀ n ∈ t.nodes, ∀ name ∈ n.names, t.edit (.removeAttribute n.id name) =
      ((t.edit (.writeAttribute n.id name "")).alter n.id fun n => n.eraseAttribute name).touch) ∧
    (∀ p ∈ t.nodes, ∀ e, e.under? t.selection = some p.id →
      ((t.edit e).children p.id).length = (t.children p.id).length + 1 ∧
      (t.edit e).runs? v = some (k + if t.demandsChild p.id v then 1 else 0)) ∧
    ∀ p ∈ t.nodes, ∀ n ∈ t.children p.id,
      ((t.edit (.remove n.id)).children p.id).length + 1 = (t.children p.id).length ∧
      (t.edit (.remove n.id)).runs? v = if v.node ∈ t.goneWith n.id then none
        else some (k + if t.demandsChild p.id v then 1 else 0) := by
  refine ⟨fun n hn name => ?_, fun e id name slot => ?_, fun n hn name present => ?_,
    fun p hp e under => ?_, fun p hp n hn => ?_⟩
  · exact h.attended.countP_watchers h.sound.nodup h.current.fitted hn name existed
  · exact h.attended.runs?_edit h.sound.nodup h.current.fitted slot existed
  · have found := node?_of_mem h.sound.nodup hn
    have there : (n.attribute? name).isSome := Node.isSome_attribute?.mpr present
    rw [edit_removeAttribute found, if_pos there, edit_writeAttribute found, if_pos there]
  · obtain ⟨more, counts⟩ := h.sound.edit_under h.current hp under
    exact ⟨more, counts v k existed⟩
  · obtain ⟨less, counts⟩ := h.sound.edit_remove h.current hp hn
    exact ⟨less, counts v k existed⟩

/-- The rule about the alias of a column looks at `aggregate` of the root, and not at the column's name.
The rule of a filter looks at its children. -/
theorem reached_runs_run :
    let t := (((new none).edit .reset).edit (.add .column (some ⟨1⟩))).edit (.add .filter (some ⟨1⟩))
    Reached none t ∧ t.runs? (.rule ⟨2⟩ 1) = some 1 ∧ t.runs? (.rule ⟨3⟩ 0) = some 2 ∧
      (t.edit (.setAttribute ⟨0⟩ "aggregate" "true")).runs? (.rule ⟨2⟩ 1) = some 2 ∧
      (t.edit (.setAttribute ⟨2⟩ "name" "y")).runs? (.rule ⟨2⟩ 1) = some 1 ∧
      (t.edit (.remove ⟨4⟩)).runs? (.rule ⟨3⟩ 0) = some 3 ∧
      (t.edit (.add .filter (some ⟨3⟩))).runs? (.rule ⟨3⟩ 0) = some 3 := by
  intro t
  have reached : Reached none t := .edit _ (.edit _ (.edit _ .new))
  have column : t.runs? (.rule ⟨2⟩ 1) = some 1 := by decide +kernel
  have filter : t.runs? (.rule ⟨3⟩ 0) = some 2 := by decide +kernel
  obtain ⟨p, found⟩ : ∃ p, t.node? ⟨3⟩ = some p := Option.isSome_iff_exists.mp (by decide +kernel)
  obtain ⟨hp, id⟩ := node?_eq_some found
  obtain ⟨n, hn, lower⟩ : ∃ n ∈ t.children p.id, n.id = ⟨4⟩ := by
    rw [id]
    exact List.mem_map.mp (by decide +kernel)
  obtain ⟨-, edited, -⟩ := reached_runs reached column
  obtain ⟨-, -, -, added, removed⟩ := reached_runs reached filter
  have more := (added p hp (.add .filter (some ⟨3⟩)) (by rw [id]; rfl)).2
  have less := (removed p hp n hn).2
  rw [id] at more less
  rw [lower] at less
  refine ⟨reached, column, filter, ?_, ?_, less.trans (by decide +kernel), more.trans (by decide +kernel)⟩
  · exact (edited (.setAttribute ⟨0⟩ "aggregate" "true") ⟨0⟩ "aggregate" rfl).trans (by decide +kernel)
  · exact (edited (.setAttribute ⟨2⟩ "name" "y") ⟨2⟩ "name" rfl).trans (by decide +kernel)

end Tree

end QueryMarkup
