import QueryMarkup.Document.Render
import QueryMarkup.Proofs.Document.Recomputed

/-!
# The revision counts what shows

Whatever an edit does, the revision of the tree never falls, and where it does not rise the
markup stays the same. Expanding, selecting and storing the value that is there already show
nowhere, and neither do the answers of a schema.
-/
namespace QueryMarkup

open Document

/-! ## What the markup is made of -/

/-- The name of an attribute, whether it is content, and its written form. -/
def Attribute.markupParts (a : Attribute) : String × Bool × String := (a.name, a.content, a.display.value)

/-- All of a node that its markup depends on: its id, tag and level, whether it is expandable, and
the parts of its attributes. -/
structure MarkupParts where
  id : NodeId
  tag : String
  level : Nat
  expandable : Bool
  attributes : List (String × Bool × String)

def Node.markupParts (n : Node) : MarkupParts :=
  ⟨n.id, n.tag, n.level, n.expandable, n.attributes.map Attribute.markupParts⟩

namespace Document

theorem attributePieces_eq (n : Node) : attributePieces n =
    (n.markupParts.attributes.filter fun a => !a.2.1 && !a.2.2.isEmpty).flatMap fun a =>
      [{ text := " " }, { text := a.2.2, mark := some (.attributeName n.id a.1) }] := by
  rw [Node.markupParts, List.filter_map, List.flatMap_map]
  rfl

theorem content?_eq_markupParts (n : Node) : n.content? =
    ((n.markupParts.attributes.find? fun a => a.1 == contentName).map (·.2.2)).filter
      fun text => !text.isEmpty := by
  rw [Node.markupParts, List.find?_map, Option.map_map]
  rfl

theorem elementLine_congr {n m : Node} (same : n.markupParts = m.markupParts) :
    elementLine n = elementLine m := by
  have id : n.id = m.id := congrArg MarkupParts.id same
  have tag : n.tag = m.tag := congrArg MarkupParts.tag same
  have level : n.level = m.level := congrArg MarkupParts.level same
  have expandable : n.expandable = m.expandable := congrArg MarkupParts.expandable same
  rw [elementLine, elementLine, attributePieces_eq, attributePieces_eq, content?_eq_markupParts,
    content?_eq_markupParts, same, id, tag, level, expandable]

theorem linesFrom_congr {nodes nodes' : List Node}
    (same : nodes'.map Node.markupParts = nodes.map Node.markupParts) (owed : List Owed) :
    linesFrom owed nodes' = linesFrom owed nodes := by
  induction nodes generalizing nodes' owed with
  | nil =>
    rw [List.map_nil, List.map_eq_nil_iff] at same
    rw [same]
  | cons n nodes ih =>
    obtain ⟨n', rest, rfl, here, later⟩ := List.map_eq_cons_iff.mp same
    have tag : n'.tag = n.tag := congrArg MarkupParts.tag here
    have level : n'.level = n.level := congrArg MarkupParts.level here
    have expandable : n'.expandable = n.expandable := congrArg MarkupParts.expandable here
    simp only [linesFrom, elementLine_congr here, tag, level, expandable, ih later]

/-- Trees whose nodes have the same markup parts have the same markup. -/
theorem render_congr {t t' : Tree} (same : t'.nodes.map Node.markupParts = t.nodes.map Node.markupParts)
    (width : Nat) : render t' width = render t width := by
  rw [render, render, lines, lines, linesFrom_congr same]

end Document

namespace Tree

variable {t t' t'' : Tree}

/-! ## The revision never falls -/

section

variable (t)

theorem revision_setSelection (selection : Option NodeId) :
    (t.setSelection selection).revision = t.revision := by
  unfold Tree.setSelection
  split <;> rfl

theorem revision_answerCheck (check : Nat) (rejection : Option String) :
    (t.answerCheck check rejection).revision = t.revision := by
  unfold answerCheck
  split <;> rfl

theorem revision_askSchema (id : NodeId) : (t.askSchema id).revision = t.revision := by
  unfold askSchema
  split
  · dsimp only
    split
    · rfl
    · split
      · exact revision_answerCheck _ _ _
      · rfl
  · rfl

theorem revision_foldl {α : Type} (step : Tree → α → Tree)
    (h : ∀ t x, (step t x).revision = t.revision) (xs : List α) :
    (xs.foldl step t).revision = t.revision := by
  induction xs generalizing t with
  | nil => rfl
  | cons x xs ih => exact (ih (step t x)).trans (h t x)

theorem revision_wire (n : Node) : (t.wire n).revision = t.revision := by
  unfold wire
  dsimp only
  have ruled := t.revision_foldl (fun t (e : NodeId × String × Watcher) => t.watchSlot e.1 e.2.1 e.2.2)
    (fun _ _ => rfl) (ruleWatches n.id ((t.root?.map (·.id)).getD n.id) n.kind)
  split
  · exact ruled
  · have wired := fun t : Tree => t.revision_foldl
      (fun t (e : NodeId × String) => t.watchSlot e.1 e.2 (.schema n.id)) (fun _ _ => rfl)
    exact (revision_askSchema _ _).trans ((wired _ _).trans ruled)

theorem revision_setChildCount (id : NodeId) (count : Nat) :
    (t.setChildCount id count).revision = t.revision := by
  unfold setChildCount
  split
  · rfl
  · split
    · rfl
    · exact revision_foldl _ (fun t (x : RuleCheck × Nat) => t.recheckRule id x.2) (fun _ _ => rfl) _

theorem revision_refreshVisibility (id : NodeId) : (t.refreshVisibility id).revision = t.revision := by
  unfold refreshVisibility
  split <;> rfl

theorem revision_followSlot_le (id : NodeId) (name : String) (watcher : Watcher) :
    t.revision ≤ (t.followSlot id name watcher).revision := by
  unfold followSlot
  dsimp only
  split
  · exact Nat.le_refl _
  · exact Nat.le_succ _

theorem revision_tell_le (id : NodeId) (name : String) (watcher : Watcher) :
    t.revision ≤ (t.tell id name watcher).revision := by
  cases watcher with
  | rule owner index => exact Nat.le_refl _
  | schema owner => exact (t.revision_askSchema owner).ge
  | display => exact t.revision_followSlot_le id name .display
  | valueCheck => exact t.revision_followSlot_le id name .valueCheck

theorem revision_writeSlot_le (id : NodeId) (name value : String) :
    t.revision ≤ (t.writeSlot id name value).revision := by
  unfold writeSlot
  split
  · exact Nat.le_refl _
  · dsimp only
    split
    · exact Nat.le_refl _
    · have told (ws : List Watcher) (u : Tree) :
          u.revision ≤ (ws.foldl (fun t w => t.tell id name w) u).revision := by
        induction ws generalizing u with
        | nil => exact Nat.le_refl _
        | cons w ws ih => exact (u.revision_tell_le id name w).trans (ih _)
      exact told _ (t.alter id fun n => n.setSlot name value)

end

theorem revision_insert {kind : Kind} {tag : String} {parent id : NodeId}
    (e : t.insert kind tag parent = .ok (t', id)) : t'.revision = t.revision + 1 := by
  obtain ⟨before, above, after, -, -, rfl⟩ := insert_eq_ok e
  have adopted (u : Tree) (count : Nat) : (u.adopt parent count).revision = u.revision :=
    (revision_refreshVisibility _ _).trans (revision_setChildCount _ _ _)
  exact congrArg (· + 1) ((adopted _ _).trans (revision_wire _ _))

theorem revision_remove {id : NodeId} (e : t.remove id = .ok t') : t'.revision = t.revision + 1 := by
  obtain ⟨before, last, n, after, parent, -, -, rfl⟩ := remove_eq_ok e
  exact congrArg (· + 1) ((revision_setSelection _ _).trans (revision_setChildCount _ _ _))

theorem revision_clear (t : Tree) : t.clear.revision = t.revision + 1 :=
  congrArg (· + 1) (revision_setSelection _ _)

theorem revision_resolve {number : Nat} {verdict : Verdict} {late : Bool}
    (e : t.resolve number verdict = some (t', late)) : t'.revision = t.revision := by
  obtain ⟨desk, request, -, -, -, rfl⟩ := resolve_eq_some e
  split
  · rfl
  · exact revision_answerCheck _ _ _

/-- No change takes a revision back. -/
theorem Change.revision_le (c : Change t t') : t.revision ≤ t'.revision := by
  cases c with
  | touch => exact Nat.le_succ _
  | clear => exact (revision_clear t).symm ▸ Nat.le_succ _
  | plant kind tag empty =>
    exact (revision_wire { t with nodes := [t.fresh kind tag none], issued := t.issued + 1 } _).ge
  | insert e => exact (revision_insert e).symm ▸ Nat.le_succ _
  | remove e => exact (revision_remove e).symm ▸ Nat.le_succ _
  | flip hn =>
    exact (revision_refreshVisibility (t.alter _ fun n => { n with expanded := !n.expanded }) _).ge
  | select live => exact (revision_setSelection _ _).ge
  | write id name value => exact revision_writeSlot_le t id name value
  | create value _ _ => exact (revision_writeSlot_le t _ _ value).trans (Nat.le_succ _)
  | discard id name => exact revision_writeSlot_le t id name ""
  | resolve e => exact (revision_resolve e).ge

theorem Changes.revision_le (h : Changes t t') : t.revision ≤ t'.revision := by
  induction h with
  | refl => exact Nat.le_refl _
  | tail _ last ih => exact ih.trans last.revision_le

/-! ## What does not count does not show -/

/-- The revision has risen, or it is the same and so is the markup. -/
def Counts (t t' : Tree) : Prop :=
  t.revision < t'.revision ∨
    t'.revision = t.revision ∧ t'.nodes.map Node.markupParts = t.nodes.map Node.markupParts

theorem Counts.refl (t : Tree) : t.Counts t := .inr ⟨rfl, rfl⟩

theorem Counts.trans (h : t.Counts t') (h' : t'.Counts t'') : t.Counts t'' := by
  rcases h with more | ⟨revision, same⟩
  · rcases h' with more' | ⟨revision', -⟩
    · exact .inl (more.trans more')
    · exact .inl (by omega)
  · rcases h' with more' | ⟨revision', same'⟩
    · exact .inl (by omega)
    · exact .inr ⟨revision'.trans revision, same'.trans same⟩

/-- What brings results up to date shows nowhere. -/
theorem counts_of_unchecked (kept : Keeps Node.unchecked t t') (revision : t'.revision = t.revision) :
    t.Counts t' :=
  .inr ⟨revision, (kept.map Node.markupParts).nodes⟩

/-- Names of nodes are distinct, and so are those of the attributes of a node. -/
structure Distinct (t : Tree) : Prop where
  ids : t.ids.Nodup
  names : ∀ n ∈ t.nodes, (n.attributes.map (·.name)).Nodup

theorem Distinct.of_keeps (h : t.Distinct) (kept : Keeps Node.fixture t t') : t'.Distinct := by
  have names := (kept.map fun n => n.attributes.map (·.name)).nodes
  have own (n : Node) : n.fixture.attributes.map (·.name) = n.attributes.map (·.name) := by
    rw [Node.fixture, List.map_map]
    rfl
  constructor
  · rw [kept.base.fullEntry.entry.ids_of_entry]
    exact h.ids
  · intro m hm
    have hm' := List.mem_map_of_mem (f := (fun n => n.attributes.map (·.name)) ∘ Node.fixture) hm
    rw [names] at hm'
    obtain ⟨n, hn, same⟩ := List.mem_map.mp hm'
    simp only [Function.comp_apply, own] at same
    rw [← same]
    exact h.names n hn

theorem distinct_of_reached {desk : Option Desk} (h : Reached desk t) : t.Distinct :=
  ⟨h.sound.nodup, fun n hn => (h.current.fitted n hn).names⟩

theorem attribute?_of_mem {n : Node} {a : Attribute} (names : (n.attributes.map (·.name)).Nodup)
    (ha : a ∈ n.attributes) : n.attribute? a.name = some a := by
  cases found : n.attribute? a.name with
  | none => exact absurd (List.mem_map_of_mem ha) (attribute?_eq_none.mp found)
  | some b =>
    have hb := List.mem_of_find?_eq_some found
    have named : b.name = a.name := by simpa using List.find?_some found
    rw [List.inj_on_of_nodup_map names hb ha named]

/-- A written form with the same version is the same. -/
theorem markupParts_follow {a : Attribute} {value : String} {watcher : Watcher}
    (same : (a.follow value watcher).display.version = a.display.version) :
    (a.follow value watcher).markupParts = a.markupParts := by
  cases watcher with
  | display =>
    have set : (a.display.set (Attribute.written a.name a.content value)).version = a.display.version :=
      same
    unfold Cell.set at set
    split at set
    · rename_i written
      have still : a.display.set (Attribute.written a.name a.content value) = a.display := if_pos written
      simp [Attribute.markupParts, Attribute.follow, Attribute.redisplay, still]
    · simp at set
  | _ => rfl

theorem markupParts_followSlot {n : Node} {name : String} {watcher : Watcher}
    (names : (n.attributes.map (·.name)).Nodup)
    (same : (n.followSlot name watcher).displayVersion name = n.displayVersion name) :
    (n.followSlot name watcher).markupParts = n.markupParts := by
  have each : ∀ a ∈ n.attributes,
      (if a.name = name then a.follow (n.value name) watcher else a).markupParts =
      a.markupParts := by
    intro a ha
    by_cases named : a.name = name
    · rw [if_pos named]
      apply markupParts_follow
      have first : n.attribute? name = some a := by
        rw [← named]
        exact attribute?_of_mem names ha
      have followed : (n.followSlot name watcher).attribute? name =
          some (a.follow (n.value name) watcher) := by
        have kept : ∀ b : Attribute, ((if b.name = name then b.follow (n.value name) watcher else b).name
            == name) = (b.name == name) := by
          intro b
          by_cases hb : b.name = name
          · rw [if_pos hb]
            cases watcher <;> rfl
          · rw [if_neg hb]
        have found := congrArg (Option.map fun b : Attribute =>
          if b.name = name then b.follow (n.value name) watcher else b) first
        unfold Node.attribute? at found ⊢
        simp only [Node.followSlot, Node.settle, Node.alterAttribute, List.find?_map]
        rw [show ((fun b : Attribute => b.name == name) ∘ fun b : Attribute =>
          if b.name = name then b.follow (n.value name) watcher else b) = fun b => b.name == name from
            funext kept, found, Option.map_some, if_pos named]
      rw [Node.displayVersion, followed, Node.displayVersion, first] at same
      exact same
    · rw [if_neg named]
  have attributes : (n.followSlot name watcher).attributes.map Attribute.markupParts =
      n.attributes.map Attribute.markupParts := by
    rw [Node.followSlot, Node.settle, Node.alterAttribute, List.map_map]
    exact List.map_congr_left each
  rw [Node.markupParts, attributes]
  rfl

theorem followSlot_counts (h : t.Distinct) (id : NodeId) (name : String) (watcher : Watcher) :
    t.Counts (t.followSlot id name watcher) := by
  unfold followSlot
  dsimp only
  split
  · rename_i same
    right
    refine ⟨rfl, ?_⟩
    rw [nodes_alter, List.map_map]
    refine List.map_congr_left fun n hn => ?_
    by_cases hid : n.id = id
    · subst hid
      have nd : (t.alter n.id fun n => n.followSlot name watcher).ids.Nodup := by
        rw [ids_alter t n.id (fun n => n.followSlot name watcher) fun _ => rfl]
        exact h.ids
      have followed : n.followSlot name watcher ∈
          (t.alter n.id fun n => n.followSlot name watcher).nodes := by
        rw [nodes_alter]
        exact List.mem_map.mpr ⟨n, hn, if_pos rfl⟩
      have before := node?_of_mem h.ids hn
      have after : (t.alter n.id fun n => n.followSlot name watcher).node? n.id =
          some (n.followSlot name watcher) := node?_of_mem nd followed
      rw [after, before] at same
      rw [Function.comp_apply, if_pos rfl]
      exact markupParts_followSlot (h.names n hn) (Option.some.inj same).symm
    · simp only [Function.comp_apply, if_neg hid]
  · exact .inl (Nat.lt_succ_self _)

theorem tell_counts (h : t.Distinct) (id : NodeId) (name : String) (watcher : Watcher) :
    t.Counts (t.tell id name watcher) := by
  cases watcher with
  | rule owner index => exact counts_of_unchecked (recheckRule_keeps t owner index) rfl
  | schema owner => exact counts_of_unchecked (askSchema_keeps t owner) (revision_askSchema t owner)
  | display => exact followSlot_counts h id name .display
  | valueCheck => exact followSlot_counts h id name .valueCheck

theorem writeSlot_counts (h : t.Distinct) (id : NodeId) (name value : String) :
    t.Counts (t.writeSlot id name value) := by
  unfold writeSlot
  split
  · exact .refl t
  · rename_i n found
    dsimp only
    split
    · exact .refl t
    · have told (ws : List Watcher) {u : Tree} (distinct : u.Distinct) :
          u.Counts (ws.foldl (fun t w => t.tell id name w) u) := by
        induction ws generalizing u with
        | nil => exact .refl u
        | cons w ws ih =>
          exact (tell_counts distinct id name w).trans (ih (distinct.of_keeps (tell_keeps u id name w)))
      have set : t.Counts (t.alter id fun n => n.setSlot name value) :=
        .inr ⟨rfl, (keeps_alter t id (fun n => n.setSlot name value) fun _ => rfl).nodes⟩
      have distinct : (t.alter id fun n => n.setSlot name value).Distinct := by
        constructor
        · rw [ids_alter t id (fun n => n.setSlot name value) fun _ => rfl]
          exact h.ids
        · intro m hm
          obtain ⟨k, hk, ⟨-, rfl⟩ | ⟨-, rfl⟩⟩ := mem_alter hm
          · exact h.names k hk
          · exact h.names m hk
      exact set.trans (told _ distinct)

theorem insertParsed_counts {id : NodeId} {name value : String} {issues : List StructuralIssue}
    (h : t.Distinct) (e : t.insertParsed id name value = .ok (t', issues)) : t.Counts t' := by
  obtain ⟨-, -, ⟨-, rfl, -⟩ | ⟨-, rfl, -⟩⟩ := insertParsed_eq_ok e
  · exact writeSlot_counts h id name value
  · exact .inl (Nat.lt_succ_of_le (revision_writeSlot_le t id name value))

theorem counts_setSelection (t : Tree) (selection : Option NodeId) : t.Counts (t.setSelection selection) :=
  .inr ⟨revision_setSelection t selection, by rw [nodes_setSelection]⟩

theorem addParsed_counts {kind : Kind} {tag : String} {parent : Option NodeId} {id : NodeId}
    (e : t.addParsed kind tag parent = .ok (t', id)) : t.Counts t' := by
  left
  obtain ⟨-, -, rfl⟩ | ⟨-, above, -, inserted⟩ := addParsed_eq_ok e
  · have planted := revision_wire { t with nodes := [t.fresh kind tag none], issued := t.issued + 1 }
      (t.fresh kind tag none)
    exact Nat.lt_succ_of_le planted.ge
  · have later := revision_insert inserted
    omega

theorem add_counts {kind : Kind} {parent : Option NodeId} {id : NodeId}
    (e : t.add kind parent = .ok (t', id)) : t.Counts t' := by
  left
  obtain ⟨above, added, -, inserted, rfl | ⟨child, both, other, -, inserted', rfl⟩⟩ := add_eq_ok e
  · have one := revision_insert inserted
    have still := revision_setSelection added (some id)
    omega
  · have one := revision_insert inserted
    have two := revision_insert inserted'
    have still := revision_setSelection both (some id)
    omega

theorem revision_lt_reset (t : Tree) : t.revision < t.reset.revision := by
  have cleared := revision_clear t
  have planted := (revision_wire { t.clear with
    nodes := [t.clear.fresh .fetch "fetch" none], issued := t.clear.issued + 1 } (t.clear.fresh .fetch
      "fetch" none))
  have planted : (t.clear.plantRoot .fetch "fetch").revision = t.clear.revision := planted
  obtain ⟨t', id, added, reset⟩ | reset := t.reset_cases
  · have later := (add_changes added).revision_le
    rw [reset, revision_setSelection]
    omega
  · rw [reset]
    omega

theorem toggle_counts {id : NodeId} (e : t.toggle id = .ok t') : t.Counts t' := by
  have kept : Keeps Node.markupParts t (t.flip id) := flip_keeps (fun _ _ _ => rfl) t id
  have flipped : t.Counts (t.flip id) := .inr ⟨revision_refreshVisibility _ _, kept.nodes⟩
  rcases toggle_eq_ok e with rfl | ⟨n, -, rfl, rfl | rfl⟩
  · exact .refl _
  · exact flipped
  · exact flipped.trans (counts_setSelection _ none)

theorem resolve_counts {number : Nat} {verdict : Verdict} {late : Bool}
    (e : t.resolve number verdict = some (t', late)) : t.Counts t' :=
  counts_of_unchecked (resolve_keeps e) (revision_resolve e)

/-- No edit changes the markup without a new revision. -/
theorem edit_counts (h : t.Distinct) (edit : Edit) : t.Counts (t.edit edit) := by
  cases t.edit_outcome edit with
  | same same =>
    rw [same]
    exact .refl t
  | clear _ made => exact made ▸ .inl ((revision_clear t).symm ▸ Nat.lt_succ_self _)
  | reset _ made => exact made ▸ .inl (revision_lt_reset t)
  | add _ made => exact add_counts made
  | addParsed _ made => exact addParsed_counts made
  | remove _ made => exact .inl ((revision_remove made).symm ▸ Nat.lt_succ_self _)
  | toggle _ made => exact toggle_counts made
  | select _ _ made => exact made ▸ counts_setSelection t _
  | insert _ made => exact insertParsed_counts h made
  | discard _ _ _ made => exact made ▸ .inl (Nat.lt_succ_of_le (revision_writeSlot_le t _ _ ""))
  | write _ _ _ made => exact made ▸ writeSlot_counts h _ _ _
  | resolve _ made => exact resolve_counts made

/-! ## What leaves the revision as it is -/

theorem revision_toggle {id : NodeId} (e : t.toggle id = .ok t') : t'.revision = t.revision := by
  have flipped : (t.flip id).revision = t.revision := revision_refreshVisibility _ _
  rcases toggle_eq_ok e with rfl | ⟨n, -, -, rfl | rfl⟩
  · rfl
  · exact flipped
  · exact (revision_setSelection _ _).trans flipped

/-- Storing the value that is there already changes nothing. -/
theorem writeSlot_self {id : NodeId} {n : Node} (found : t.node? id = some n) (name : String) :
    t.writeSlot id name (n.value name) = t := by
  rw [writeSlot, found]
  exact if_pos rfl

/-- An attribute that is not there is neither removed nor written. -/
theorem eq_of_found_false {edit : Edit} (e : t.perform edit = .ok (t', .found false)) : t' = t := by
  cases edit with
  | clear | reset => cases e
  | add _ _ | addParsed _ _ _ | remove _ | toggle _ | select _ | setAttribute _ _ _
    | insertParsed _ _ _ =>
    obtain ⟨made, -, reply⟩ := map_eq_ok.mp e
    cases reply
  | removeAttribute id name =>
    obtain ⟨⟨after, had⟩, removed, reply⟩ := map_eq_ok.mp e
    cases reply
    unfold removeAttribute at removed
    cases found : t.getNode id with
    | error error => simp [found, bind, Except.bind] at removed
    | ok n =>
      simp only [found, bind, Except.bind] at removed
      split at removed <;> cases removed
      rfl
  | writeAttribute id name value =>
    simp only [perform, writeAttribute] at e
    split at e <;> cases e
    rfl
  | resolve number verdict =>
    simp only [perform] at e
    split at e <;> cases e

/-- The edits that never count: they show nowhere, find nothing to do or are refused. -/
inductive Idle (t : Tree) : Edit → Prop
  | toggle (id : NodeId) : Idle t (.toggle id)
  | select (id : Option NodeId) : Idle t (.select id)
  | refused {edit : Edit} {error : TreeError} : t.perform edit = .error error → Idle t edit
  /-- The attribute is not there. -/
  | absent {edit : Edit} {after : Tree} : t.perform edit = .ok (after, .found false) → Idle t edit
  /-- The attribute holds the value already. -/
  | set {id : NodeId} {n : Node} {name : String} : t.node? id = some n →
      (n.attribute? name).isSome → Idle t (.setAttribute id name (n.value name))
  | insert {id : NodeId} {n : Node} {name : String} : t.node? id = some n →
      (n.attribute? name).isSome → Idle t (.insertParsed id name (n.value name))
  | write {id : NodeId} {n : Node} {name : String} : t.node? id = some n →
      (n.attribute? name).isSome → Idle t (.writeAttribute id name (n.value name))

theorem Idle.revision {edit : Edit} (h : t.Idle edit) : (t.edit edit).revision = t.revision := by
  cases h with
  | toggle id =>
    simp only [Tree.edit, perform]
    cases e : t.toggle id with
    | ok toggled => exact revision_toggle e
    | error error => rfl
  | select id =>
    simp only [Tree.edit, perform]
    cases e : t.select id with
    | ok selected =>
      rw [(select_eq_ok e).1]
      exact revision_setSelection t id
    | error error => rfl
  | refused e => rw [Tree.edit, e]
  | absent e => rw [Tree.edit, e, eq_of_found_false e]
  | set found has =>
    simp only [Tree.edit, perform, setAttribute, getNode_eq_ok.mpr found, bind, Except.bind, if_pos has]
    exact congrArg Tree.revision (writeSlot_self found _)
  | insert found has =>
    simp only [Tree.edit, perform, insertParsed, getNode_eq_ok.mpr found, bind, Except.bind, if_pos has]
    exact congrArg Tree.revision (writeSlot_self found _)
  | @write id n name found has =>
    have there : ((t.node? id).bind (·.attribute? name)).isSome = true := by
      rw [found]
      exact has
    simp only [Tree.edit, perform, writeAttribute, if_pos there]
    exact congrArg Tree.revision (writeSlot_self found _)

/-- No change of the markup is silent: no edit takes the revision back, and one that changes the
markup, at whatever indentation, raises it. Expanding and selecting, what is refused or finds
nothing, and storing the value that is there already leave the revision as it is. -/
theorem edit_revision {desk : Option Desk} (h : Reached desk t) (edit : Edit) :
    t.revision ≤ (t.edit edit).revision ∧
      ((∃ width, (render (t.edit edit) width).text ≠ (render t width).text) →
        t.revision < (t.edit edit).revision) ∧
      (t.Idle edit → (t.edit edit).revision = t.revision) := by
  refine ⟨(t.edit_changes edit).revision_le, ?_, Idle.revision⟩
  rintro ⟨width, differs⟩
  rcases edit_counts (distinct_of_reached h) edit with more | ⟨-, same⟩
  · exact more
  · exact absurd (congrArg Rendered.text (render_congr same width)) differs

/-- Writing a new value counts, though the markup hears of it only through the written form of
the attribute; writing it once more does not. -/
theorem edit_revision_run :
    let t := ((new none).edit .reset).edit (.setAttribute ⟨1⟩ "name" "a")
    let t' := t.edit (.writeAttribute ⟨1⟩ "name" "b")
    Reached none t ∧ (render t' 2).text ≠ (render t 2).text ∧ t.revision < t'.revision ∧
      (t'.edit (.setAttribute ⟨1⟩ "name" "b")).revision = t'.revision := by
  intro t t'
  have reached : Reached none t := (Reached.new.edit .reset).edit (.setAttribute ⟨1⟩ "name" "a")
  have differs : (render t' 2).text ≠ (render t 2).text := by decide +kernel
  obtain ⟨-, counts, -⟩ := edit_revision reached (.writeAttribute ⟨1⟩ "name" "b")
  refine ⟨reached, differs, counts ⟨2, differs⟩, ?_⟩
  obtain ⟨-, -, idle⟩ := edit_revision (reached.edit (.writeAttribute ⟨1⟩ "name" "b"))
    (.setAttribute ⟨1⟩ "name" "b")
  obtain ⟨n, found⟩ : ∃ n, t'.node? ⟨1⟩ = some n := Option.isSome_iff_exists.mp (by decide +kernel)
  have holds : (t'.node? ⟨1⟩).map (fun n => ((n.attribute? "name").isSome, n.value "name")) =
      some (true, "b") := by decide +kernel
  rw [found, Option.map_some, Option.some.injEq, Prod.mk.injEq] at holds
  have same := Idle.set found holds.1
  rw [holds.2] at same
  exact idle same

end Tree

end QueryMarkup
