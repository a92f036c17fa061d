import Mathlib.Logic.Relation
import QueryMarkup.Proofs.Tree.Placing
import QueryMarkup.Tree.Edit

/-!
# Edits as sequences of changes

An edit that is not refused makes a few changes one after the other. What every single
change keeps is kept by every edit.
-/
namespace QueryMarkup.Tree

/-- The single changes that edits are made of. -/
inductive Change : Tree → Tree → Prop where
  | touch (t : Tree) : Change t t.touch
  | clear (t : Tree) : Change t t.clear
  | plant {t : Tree} (kind : Kind) (tag : String) :
    t.nodes = [] → Change t (t.plantRoot kind tag)
  | insert {t t' : Tree} {kind : Kind} {tag : String} {parent id : NodeId} :
    t.insert kind tag parent = .ok (t', id) → Change t t'
  | remove {t t' : Tree} {id : NodeId} : t.remove id = .ok t' → Change t t'
  /-- A node is expanded or collapsed. -/
  | flip {t : Tree} {n : Node} :
    n ∈ t.nodes →
      Change t ((t.alter n.id fun n => { n with expanded := !n.expanded }).refreshVisibility n.id)
  | select {t : Tree} {selection : Option NodeId} :
    (∀ id ∈ selection, id ∈ t.ids) → Change t (t.setSelection selection)
  | write (t : Tree) (id : NodeId) (name value : String) : Change t (t.writeSlot id name value)
  /-- An attribute is added to a node that does not have it. -/
  | create {t : Tree} {id : NodeId} {n : Node} {name : String} (value : String) :
    t.node? id = some n → n.attribute? name = none → Change t (t.createAttribute id name value)
  /-- An attribute is emptied and taken away. -/
  | discard (t : Tree) (id : NodeId) (name : String) :
    Change t ((t.writeSlot id name "").alter id fun n => n.eraseAttribute name)
  | resolve {t t' : Tree} {number : Nat} {verdict : Verdict} {late : Bool} :
    t.resolve number verdict = some (t', late) → Change t t'

/-- Changes one after the other. -/
abbrev Changes : Tree → Tree → Prop := Relation.ReflTransGen Change

section
variable {t t' : Tree} {id : NodeId}

theorem Change.once (h : Change t t') : Changes t t' := .single h

/-- What a property needs to hold after some changes. -/
theorem Changes.keep {P : Tree → Prop} (step : ∀ {t t'}, Change t t' → P t → P t')
    (h : Changes t t') (start : P t) : P t' := by
  induction h with
  | refl => exact start
  | tail _ last ih => exact step last ih

theorem getNode_eq_ok {n : Node} : t.getNode id = .ok n ↔ t.node? id = some n := by
  unfold getNode
  cases t.node? id <;> simp

theorem mem_ids_of_node? {n : Node} (h : t.node? id = some n) : id ∈ t.ids := by
  obtain ⟨hn, rfl⟩ := node?_eq_some h
  exact List.mem_map_of_mem hn

theorem id_mem_insert {kind : Kind} {tag : String} {parent : NodeId}
    (e : t.insert kind tag parent = .ok (t', id)) : id ∈ t'.ids := by
  obtain ⟨before, above, after, cut, -⟩ := insert_eq_ok e
  obtain ⟨rfl, kept⟩ := insert_keeps cut e
  rw [kept.ids_of_entry, mem_ids_placed (splitAt_eq_some cut).1]
  exact .inl rfl

theorem ids_insert_subset {kind : Kind} {tag : String} {parent : NodeId}
    (e : t.insert kind tag parent = .ok (t', id)) : t.ids ⊆ t'.ids := by
  obtain ⟨before, above, after, cut, -⟩ := insert_eq_ok e
  rw [(insert_keeps cut e).2.ids_of_entry]
  exact fun id hid => (mem_ids_placed (splitAt_eq_some cut).1).mpr (.inr hid)

/-- An addition that is not refused is one insertion, or two where the kind cannot be without
a child. -/
theorem add_eq_ok {kind : Kind} {parent : Option NodeId} (e : t.add kind parent = .ok (t', id)) :
    ∃ above added, parent.or t.selection = some above ∧
      t.insert kind (kind.tag?.getD "") above = .ok (added, id) ∧
      (t' = added.setSelection (some id) ∨ ∃ child both other, kind.mandatoryChild? = some child ∧
        added.insert child (child.tag?.getD "") id = .ok (both, other) ∧
          t' = both.setSelection (some id)) := by
  unfold add at e
  cases hp : parent.or t.selection with
  | none => simp [hp, throw, throwThe, MonadExceptOf.throw] at e
  | some above =>
    simp only [hp, bind, Except.bind] at e
    split at e
    · cases e
    · rename_i made inserted
      obtain ⟨added, child⟩ := made
      dsimp only at e
      split at e
      · cases e
        exact ⟨above, added, rfl, inserted, .inl rfl⟩
      · rename_i child mandatory
        split at e
        · cases e
        · rename_i made inserted'
          obtain ⟨both, other⟩ := made
          cases e
          exact ⟨above, added, rfl, inserted, .inr ⟨child, both, other, mandatory, inserted', rfl⟩⟩

theorem add_changes {kind : Kind} {parent : Option NodeId} (e : t.add kind parent = .ok (t', id)) :
    Changes t t' := by
  obtain ⟨above, added, -, inserted, rest⟩ := add_eq_ok e
  have live := id_mem_insert inserted
  rcases rest with rfl | ⟨child, both, other, -, inserted', rfl⟩
  · exact (Change.insert inserted).once.tail (.select (by simpa using live))
  · refine ((Change.insert inserted).once.tail (.insert inserted')).tail (.select ?_)
    simpa using ids_insert_subset inserted' live

/-- The first node that is read becomes the root. Any other is put under its parent. -/
theorem addParsed_eq_ok {kind : Kind} {tag : String} {parent : Option NodeId}
    (e : t.addParsed kind tag parent = .ok (t', id)) :
    t.nodes = [] ∧ id = ⟨t.issued⟩ ∧ t' = (t.plantRoot kind tag).touch ∨
      t.nodes ≠ [] ∧ ∃ above, parent = some above ∧ t.insert kind tag above = .ok (t', id) := by
  unfold addParsed at e
  split at e
  · rename_i empty
    cases e
    exact .inl ⟨List.isEmpty_iff.mp empty, rfl, rfl⟩
  · rename_i filled
    refine .inr ⟨fun empty => filled (List.isEmpty_iff.mpr empty), ?_⟩
    cases parent with
    | none => cases e
    | some above => exact ⟨above, rfl, e⟩

theorem addParsed_changes {kind : Kind} {tag : String} {parent : Option NodeId}
    (e : t.addParsed kind tag parent = .ok (t', id)) : Changes t t' := by
  obtain ⟨empty, -, rfl⟩ | ⟨-, above, -, inserted⟩ := addParsed_eq_ok e
  · exact (Change.plant kind tag empty).once.tail (.touch _)
  · exact (Change.insert inserted).once

theorem nodes_clear (t : Tree) : t.clear.nodes = [] := by
  unfold clear setSelection
  split <;> rfl

/-- The default document is a root with one entity. -/
theorem reset_cases (t : Tree) :
    (∃ t' id, (t.clear.plantRoot .fetch "fetch").add .entity (some ⟨0⟩) = .ok (t', id) ∧
      t.reset = t'.setSelection none) ∨ t.reset = t.clear.plantRoot .fetch "fetch" := by
  cases added : (t.clear.plantRoot .fetch "fetch").add .entity (some ⟨0⟩) with
  | ok made => exact .inl ⟨made.1, made.2, rfl, by rw [reset, added]⟩
  | error refused => exact .inr (by rw [reset, added])

theorem reset_changes (t : Tree) : Changes t t.reset := by
  have planted : Changes t (t.clear.plantRoot .fetch "fetch") :=
    (Change.clear t).once.tail (.plant .fetch "fetch" t.nodes_clear)
  obtain ⟨t', id, added, reset⟩ | reset := t.reset_cases
  · rw [reset]
    exact (planted.trans (add_changes added)).tail (.select (by simp))
  · rw [reset]
    exact planted

/-- A node is expanded or collapsed, and what is selected may be given up. -/
theorem toggle_eq_ok (e : t.toggle id = .ok t') : t' = t ∨ ∃ n ∈ t.nodes, n.id = id ∧
    (t' = t.flip id ∨ t' = (t.flip id).setSelection none) := by
  unfold toggle at e
  cases hn : t.getNode id with
  | error err => simp [hn, bind, Except.bind] at e
  | ok n =>
    obtain ⟨hm, same⟩ := node?_eq_some (getNode_eq_ok.mp hn)
    simp only [hn, bind, Except.bind] at e
    split at e
    · cases e
      exact .inl rfl
    · refine .inr ⟨n, hm, same, ?_⟩
      split at e
      · split at e
        · cases e
          exact .inl rfl
        · cases e
          exact .inr rfl
      · cases e
        exact .inl rfl

theorem toggle_changes (e : t.toggle id = .ok t') : Changes t t' := by
  rcases toggle_eq_ok e with rfl | ⟨n, hn, rfl, rfl | rfl⟩
  · exact .refl
  · exact (Change.flip hn).once
  · exact (Change.flip hn).once.tail (.select (by simp))

theorem select_eq_ok {selection : Option NodeId} (e : t.select selection = .ok t') :
    t' = t.setSelection selection ∧ ∀ id ∈ selection, id ∈ t.ids := by
  cases selection with
  | none =>
    cases e
    exact ⟨rfl, by simp⟩
  | some id =>
    cases hn : t.getNode id with
    | error err => simp [select, hn, bind, Except.bind] at e
    | ok n =>
      simp only [select, hn, bind, Except.bind] at e
      cases e
      refine ⟨rfl, fun x hx => ?_⟩
      cases hx
      exact mem_ids_of_node? (getNode_eq_ok.mp hn)

/-- An attribute that a node has is written. Any other is added, and what is wrong with its name
is told. -/
theorem insertParsed_eq_ok {name value : String} {issues : List StructuralIssue}
    (e : t.insertParsed id name value = .ok (t', issues)) : ∃ n, t.node? id = some n ∧
      ((n.attribute? name).isSome = true ∧ t' = t.writeSlot id name value ∧ issues = [] ∨
        n.attribute? name = none ∧ t' = t.createAttribute id name value ∧
          issues = Attribute.nameIssues n.kind name) := by
  unfold insertParsed at e
  cases hn : t.getNode id with
  | error err => simp [hn, bind, Except.bind] at e
  | ok n =>
    refine ⟨n, getNode_eq_ok.mp hn, ?_⟩
    simp only [hn, bind, Except.bind] at e
    split at e
    · rename_i present
      cases e
      exact .inl ⟨present, rfl, rfl⟩
    · rename_i absent
      cases e
      exact .inr ⟨by simpa using absent, rfl, rfl⟩

/-- Storing an attribute is refused for no node that is there. -/
theorem exists_insertParsed (live : id ∈ t.ids) (name value : String) :
    ∃ t' issues, t.insertParsed id name value = .ok (t', issues) := by
  obtain ⟨n, found⟩ := Option.isSome_iff_exists.mp (contains_iff.mpr live)
  unfold insertParsed
  simp only [getNode_eq_ok.mpr found, bind, Except.bind]
  split <;> exact ⟨_, _, rfl⟩

theorem insertParsed_changes {name value : String} {issues : List StructuralIssue}
    (e : t.insertParsed id name value = .ok (t', issues)) : Changes t t' := by
  obtain ⟨n, found, ⟨-, rfl, -⟩ | ⟨absent, rfl, -⟩⟩ := insertParsed_eq_ok e
  · exact (Change.write t id name value).once
  · exact (Change.create value found absent).once

/-- Setting an attribute is storing it as if it had been read. -/
theorem setAttribute_eq_ok {name value : String} (e : t.setAttribute id name value = .ok t') :
    ∃ issues, t.insertParsed id name value = .ok (t', issues) := by
  unfold setAttribute at e
  unfold insertParsed
  cases hn : t.getNode id with
  | error err => simp [hn, bind, Except.bind] at e
  | ok n =>
    simp only [hn, bind, Except.bind] at e ⊢
    split at e
    · rename_i present
      rw [if_pos present]
      exact ⟨_, congrArg (Except.map (·, [])) e⟩
    · rename_i absent
      rw [if_neg absent]
      exact ⟨_, congrArg (Except.map (·, Attribute.nameIssues n.kind name)) e⟩

theorem removeAttribute_eq_ok {name : String} {had : Bool}
    (e : t.removeAttribute id name = .ok (t', had)) : t' = t ∨
      ∃ n, t.node? id = some n ∧ (n.attribute? name).isSome = true ∧
        t' = ((t.writeSlot id name "").alter id fun n => n.eraseAttribute name).touch := by
  unfold removeAttribute at e
  cases hn : t.getNode id with
  | error err => simp [hn, bind, Except.bind] at e
  | ok n =>
    simp only [hn, bind, Except.bind] at e
    split at e
    · cases e
      exact .inl rfl
    · rename_i present
      cases e
      exact .inr ⟨n, getNode_eq_ok.mp hn, Option.isSome_iff_ne_none.mpr (by simpa using present), rfl⟩

theorem writeAttribute_eq (t : Tree) (id : NodeId) (name value : String) :
    (t.writeAttribute id name value).1 = t ∨
      ∃ n, t.node? id = some n ∧ (n.attribute? name).isSome = true ∧
        (t.writeAttribute id name value).1 = t.writeSlot id name value := by
  unfold writeAttribute
  split
  · rename_i present
    obtain ⟨a, found⟩ := Option.isSome_iff_exists.mp present
    obtain ⟨n, hn, ha⟩ := Option.bind_eq_some_iff.mp found
    exact .inr ⟨n, hn, Option.isSome_of_eq_some ha, rfl⟩
  · exact .inl rfl

end

theorem map_eq_ok {ε α β : Type} {f : α → β} {x : Except ε α} {b : β} :
    x.map f = .ok b ↔ ∃ a, x = .ok a ∧ f a = b := by
  cases x <;> simp [Except.map]

/-- What an edit comes to. Setting an attribute is storing it as if it had been read. -/
inductive EditOutcome (t : Tree) (edit : Edit) : Prop where
  /-- It is refused, or there is nothing to write to, to remove or to answer. -/
  | same (same : t.edit edit = t)
  | clear (asked : edit = .clear) (made : t.edit edit = t.clear)
  | reset (asked : edit = .reset) (made : t.edit edit = t.reset)
  | add {kind : Kind} {parent : Option NodeId} {id : NodeId} (asked : edit = .add kind parent)
      (made : t.add kind parent = .ok (t.edit edit, id))
  | addParsed {kind : Kind} {tag : String} {parent : Option NodeId} {id : NodeId}
      (asked : edit = .addParsed kind tag parent) (made : t.addParsed kind tag parent = .ok (t.edit edit, id))
  | remove {id : NodeId} (asked : edit = .remove id) (made : t.remove id = .ok (t.edit edit))
  | toggle {id : NodeId} (asked : edit = .toggle id) (made : t.toggle id = .ok (t.edit edit))
  | select {selection : Option NodeId} (asked : edit = .select selection)
      (live : ∀ id ∈ selection, id ∈ t.ids) (made : t.edit edit = t.setSelection selection)
  | insert {id : NodeId} {name value : String} {issues : List StructuralIssue}
      (asked : edit = .setAttribute id name value ∨ edit = .insertParsed id name value)
      (made : t.insertParsed id name value = .ok (t.edit edit, issues))
  | discard {id : NodeId} {name : String} {n : Node} (asked : edit = .removeAttribute id name)
      (found : t.node? id = some n) (present : (n.attribute? name).isSome = true)
      (made : t.edit edit = ((t.writeSlot id name "").alter id fun n => n.eraseAttribute name).touch)
  | write {id : NodeId} {name value : String} {n : Node} (asked : edit = .writeAttribute id name value)
      (found : t.node? id = some n) (present : (n.attribute? name).isSome = true)
      (made : t.edit edit = t.writeSlot id name value)
  | resolve {number : Nat} {verdict : Verdict} {late : Bool} (asked : edit = .resolve number verdict)
      (made : t.resolve number verdict = some (t.edit edit, late))

theorem edit_of_perform {t t' : Tree} {edit : Edit} {reply : Reply} (e : t.perform edit = .ok (t', reply)) :
    t.edit edit = t' := by
  rw [Tree.edit, e]

theorem edit_outcome (t : Tree) (edit : Edit) : t.EditOutcome edit := by
  cases performed : t.perform edit with
  | error refused => exact .same (by rw [Tree.edit, performed])
  | ok answer =>
    obtain ⟨t', reply⟩ := answer
    have made := edit_of_perform performed
    cases edit with
    | clear => exact .clear rfl rfl
    | reset => exact .reset rfl rfl
    | add kind parent =>
      obtain ⟨⟨_, id⟩, added, same⟩ := map_eq_ok.mp performed
      cases same
      exact .add rfl (made ▸ added)
    | addParsed kind tag parent =>
      obtain ⟨⟨_, id⟩, added, same⟩ := map_eq_ok.mp performed
      cases same
      exact .addParsed rfl (made ▸ added)
    | remove id =>
      obtain ⟨_, removed, same⟩ := map_eq_ok.mp performed
      cases same
      exact .remove rfl (made ▸ removed)
    | toggle id =>
      obtain ⟨_, toggled, same⟩ := map_eq_ok.mp performed
      cases same
      exact .toggle rfl (made ▸ toggled)
    | select selection =>
      obtain ⟨_, selected, same⟩ := map_eq_ok.mp performed
      cases same
      obtain ⟨after, live⟩ := select_eq_ok selected
      exact .select rfl live (made.trans after)
    | setAttribute id name value =>
      obtain ⟨_, set, same⟩ := map_eq_ok.mp performed
      cases same
      obtain ⟨issues, inserted⟩ := setAttribute_eq_ok set
      exact .insert (.inl rfl) (made ▸ inserted)
    | insertParsed id name value =>
      obtain ⟨⟨_, issues⟩, inserted, same⟩ := map_eq_ok.mp performed
      cases same
      exact .insert (.inr rfl) (made ▸ inserted)
    | removeAttribute id name =>
      obtain ⟨⟨_, had⟩, removed, same⟩ := map_eq_ok.mp performed
      cases same
      obtain still | ⟨n, found, present, discarded⟩ := removeAttribute_eq_ok removed
      · exact .same (made.trans still)
      · exact .discard rfl found present (made.trans discarded)
    | writeAttribute id name value =>
      cases performed
      obtain still | ⟨n, found, present, written⟩ := t.writeAttribute_eq id name value
      · exact .same (made.trans still)
      · exact .write rfl found present (made.trans written)
    | resolve number verdict =>
      unfold perform at performed
      dsimp only at performed
      split at performed
      · rename_i answered
        cases performed
        exact .resolve rfl (made ▸ answered)
      · cases performed
        exact .same made

/-- An edit makes changes, and none when it is refused. -/
theorem edit_changes (t : Tree) (edit : Edit) : Changes t (t.edit edit) := by
  cases t.edit_outcome edit with
  | same same => rw [same]
  | clear _ made => exact made ▸ (Change.clear t).once
  | reset _ made => exact made ▸ reset_changes t
  | add _ made => exact add_changes made
  | addParsed _ made => exact addParsed_changes made
  | remove _ made => exact (Change.remove made).once
  | toggle _ made => exact toggle_changes made
  | select _ live made => exact made ▸ (Change.select live).once
  | insert _ made => exact insertParsed_changes made
  | discard _ _ _ made => exact made ▸ (Change.discard t _ _).once.tail (.touch _)
  | write _ _ _ made => exact made ▸ (Change.write t _ _ _).once
  | resolve _ made => exact (Change.resolve made).once

end QueryMarkup.Tree
