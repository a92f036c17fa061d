import Mathlib.Data.List.Dedup
import QueryMarkup.Proofs.Document.Canonical
import QueryMarkup.Proofs.Tree.Lasting
import QueryMarkup.Proofs.Tree.Rechecking

/-!
# Chronicles

A chronicle lists the attributes that were created, in the order in which they came. The attributes
that a node has follow from it: those that the table does not know stand in the order in which they
came last.
-/
namespace QueryMarkup

/-- The names that are there, in the order in which they came last. -/
def latest (history present : List String) : List String := history.dedup.filter fun name => name ∈ present

theorem dedup_append_singleton (history : List String) (name : String) :
    (history ++ [name]).dedup = (history.dedup.filter fun x => x ≠ name) ++ [name] := by
  induction history with
  | nil => simp
  | cons x history ih =>
    by_cases again : x ∈ history
    · rw [List.cons_append, List.dedup_cons_of_mem (List.mem_append_left _ again), ih,
        List.dedup_cons_of_mem again]
    · by_cases same : x = name
      · subst same
        rw [List.cons_append, List.dedup_cons_of_mem (by simp), ih, List.dedup_cons_of_notMem again]
        simp
      · have new : x ∉ history ++ [name] := by simp [again, same]
        rw [List.cons_append, List.dedup_cons_of_notMem new, ih, List.dedup_cons_of_notMem again]
        simp [same]

/-- A name that comes now stands behind all others. -/
theorem latest_append {history present present' : List String} {name : String} (absent : name ∉ present)
    (now : ∀ x, x ∈ present' ↔ x ∈ present ∨ x = name) :
    latest (history ++ [name]) present' = latest history present ++ [name] := by
  rw [latest, dedup_append_singleton, List.filter_append, List.filter_filter, latest]
  congr 1
  · refine List.filter_congr fun x _ => ?_
    by_cases same : x = name
    · simp [same, absent]
    · simp [now, same]
  · simp [now]

/-- A name that goes leaves the others where they stand. -/
theorem latest_discard {history present present' : List String} {name : String}
    (now : ∀ x, x ∈ present' ↔ x ∈ present ∧ x ≠ name) :
    latest history present' = (latest history present).filter fun x => x ≠ name := by
  rw [latest, latest, List.filter_filter]
  refine List.filter_congr fun x _ => ?_
  simp [now, and_comm]

theorem Kind.arrange_filter (kind : Kind) (p : String → Bool) (names : List String) :
    kind.arrange (names.filter p) = (kind.arrange names).filter p := by
  have declared : (names.filter p).contains = fun x => p x && names.contains x := by
    funext x
    by_cases hx : p x <;> simp [hx]
  rw [arrange, declared, arrange, List.filter_append, List.filter_filter, ← filter_eraseDups,
    List.filter_filter, List.filter_filter]
  simp only [Bool.and_comm]

namespace Entry

def names (e : Entry) : List String := e.attributes.map (·.name)

/-- The attributes are those that came and did not go again, and only they have a value. -/
structure Follows (history : List String) (e : Entry) : Prop where
  has : e.Has (latest history e.names)
  blank : ∀ name ∉ e.names, e.value name = ""

variable {e : Entry} {history : List String} {name value : String}

/-- Where there are no attributes yet, it does not matter what came before. -/
theorem Follows.of_bare (history : List String) (bare : e.attributes = [])
    (blank : ∀ name, e.value name = "") : e.Follows history := by
  refine ⟨?_, fun name _ => blank name⟩
  have none : latest history e.names = [] := by simp [names, bare, latest]
  rw [none, Has, bare]
  cases e.kind <;> rfl

theorem assign_of_mem (present : name ∈ e.names) :
    e.assign name value = { e with value := fun x => if x = name then value else e.value x } := by
  have present : name ∈ e.attributes.map (·.name) := present
  rw [assign, if_pos present]

theorem assign_of_not_mem (absent : name ∉ e.names) : e.assign name value =
    { e with
      value := fun x => if x = name then value else e.value x
      attributes := (e.kind.bareAttribute name).insertInto e.attributes } := by
  have absent : name ∉ e.attributes.map (·.name) := absent
  rw [assign, if_neg absent]

/-- A new value for an attribute that is there. -/
theorem Follows.assign_of_mem (h : e.Follows history) (value : String) (present : name ∈ e.names) :
    (e.assign name value).Follows history := by
  have same : (e.assign name value).attributes = e.attributes := by rw [Entry.assign_of_mem present]
  have names : (e.assign name value).names = e.names := congrArg (List.map _) same
  refine ⟨?_, fun x absent => ?_⟩
  · rw [names, Has, same]
    exact h.has
  · rw [names] at absent
    have other : x ≠ name := fun hx => absent (hx ▸ present)
    exact (if_neg other).trans (h.blank x absent)

/-- A new attribute. -/
theorem Follows.assign_of_not_mem (h : e.Follows history) (value : String) (absent : name ∉ e.names) :
    (e.assign name value).Follows (history ++ [name]) := by
  have has := h.has.assign name value
  have names (x : String) : x ∈ (e.assign name value).names ↔ x ∈ e.names ∨ x = name := by
    have before : x ∈ e.names ↔ x ∈ latest history e.names := h.has.mem_names
    have after : x ∈ (e.assign name value).names ↔ x ∈ latest history e.names ++ [name] := has.mem_names
    rw [after, before, List.mem_append, List.mem_singleton]
  refine ⟨?_, fun x out => ?_⟩
  · rw [latest_append absent names]
    exact has
  · rw [names, not_or] at out
    exact (if_neg out.2).trans (h.blank x out.1)

/-- An attribute that goes. -/
theorem Follows.discard (h : e.Follows history) (name : String) : (e.discard name).Follows history := by
  have names (x : String) : x ∈ (e.discard name).names ↔ x ∈ e.names ∧ x ≠ name := by
    simp only [Entry.names, Entry.discard, List.mem_map, List.mem_filter, decide_eq_true_eq]
    constructor
    · rintro ⟨a, ⟨ha, other⟩, rfl⟩
      exact ⟨⟨a, ha, rfl⟩, other⟩
    · rintro ⟨⟨a, ha, rfl⟩, other⟩
      exact ⟨a, ⟨ha, other⟩, rfl⟩
  refine ⟨?_, fun x out => ?_⟩
  · rw [latest_discard names, Has]
    have kept : (e.discard name).attributes = e.attributes.filter fun a => a.name ≠ name := rfl
    have kind : (e.discard name).kind = e.kind := rfl
    rw [kept, kind, Kind.arrange_filter, h.has, List.filter_map]
    congr 1
    refine List.filter_congr fun x _ => ?_
    simp
  · by_cases same : x = name
    · exact if_pos same
    · exact (if_neg same).trans (h.blank x fun there => out ((names x).mpr ⟨there, same⟩))

end Entry

/-! ## Trees with a chronicle -/

/-- A node and a name for every attribute that was created. -/
abbrev Chronicle := List (NodeId × String)

/-- The names of the attributes that were created at a node. -/
def Chronicle.at (log : Chronicle) (id : NodeId) : List String := (log.filter fun p => p.1 = id).map (·.2)

namespace Chronicle

theorem at_append_self (log : Chronicle) (id : NodeId) (more : List String) :
    Chronicle.at (log ++ more.map (id, ·)) id = log.at id ++ more := by
  have all : (more.map (id, ·)).filter (fun p => p.1 = id) = more.map (id, ·) :=
    List.filter_eq_self.mpr (by simp)
  rw [Chronicle.at, List.filter_append, all, List.map_append, List.map_map]
  exact congrArg (_ ++ ·) (List.map_id _)

theorem at_append_of_ne (log : Chronicle) {id other : NodeId} (h : id ≠ other) (more : List String) :
    Chronicle.at (log ++ more.map (id, ·)) other = log.at other := by
  have none : (more.map (id, ·)).filter (fun p => p.1 = other) = [] :=
    List.filter_eq_nil_iff.mpr (by simp [h])
  rw [Chronicle.at, List.filter_append, none, List.append_nil]
  rfl

end Chronicle

namespace Tree

variable {t t' : Tree} {id : NodeId} {name value : String} {log : Chronicle} {desk : Option Desk}

/-- The names of the attributes of a node. -/
def namesAt (t : Tree) (id : NodeId) : List String := ((t.node? id).map (·.names)).getD []

/-- The attribute that an edit creates, if it creates one: it was not there before and is there now. -/
def created (t : Tree) (e : Edit) : Option (NodeId × String) :=
  e.slot?.filter fun place => place.2 ∉ t.namesAt place.1 ∧ place.2 ∈ (t.edit e).namesAt place.1

/-- The trees that edits lead to, with the attributes that were created. Another document has none yet.
It does not matter where names stand in a text. -/
inductive Dated (desk : Option Desk) : Tree → Chronicle → Prop where
  | new : Dated desk (.new desk) []
  | edit {t : Tree} {log : Chronicle} (e : Edit) : Dated desk t log →
    Dated desk (t.edit e) (if e.replaces then [] else log ++ (t.created e).toList)
  | setSpan {t : Tree} {log : Chronicle} (id : NodeId) (span : Option Text.Range) : Dated desk t log →
    Dated desk (t.setSpan id span) log
  | setAttributeSpan {t : Tree} {log : Chronicle} (id : NodeId) (name : String)
    (span : Option Text.Range) : Dated desk t log → Dated desk (t.setAttributeSpan id name span) log

/-- To read a text is to create nodes and attributes, too. -/
theorem Reached.dated (h : Reached desk t) : ∃ log, Dated desk t log := by
  have readable : Readable fun t => ∃ log, Dated desk t log :=
    ⟨fun t e _ ⟨log, dated⟩ => ⟨_, dated.edit e⟩, fun t id span ⟨log, dated⟩ => ⟨_, dated.setSpan id span⟩,
      fun t id name span ⟨log, dated⟩ => ⟨_, dated.setAttributeSpan id name span⟩⟩
  induction h with
  | new => exact ⟨_, .new⟩
  | edit e _ ih =>
    obtain ⟨log, dated⟩ := ih
    exact ⟨_, dated.edit e⟩
  | parse source settings _ ih =>
    obtain ⟨log, dated⟩ := ih
    exact readable.parse source settings ⟨_, dated.edit .clear⟩

/-- The attributes of all nodes follow from the chronicle. -/
def Recorded (log : Chronicle) (t : Tree) : Prop := ∀ e ∈ t.entries, e.Follows (log.at e.id)

namespace Recorded

theorem congr (h : t.Recorded log) (same : t'.entries = t.entries) : t'.Recorded log := by
  unfold Recorded
  rw [same]
  exact h

theorem insert {kind : Kind} {tag : String} {parent : NodeId} (h : t.Recorded log)
    (e : t.insert kind tag parent = .ok (t', id)) : t'.Recorded log := by
  intro x hx
  rcases (entries_insert e).2 x hx with old | ⟨above, rfl⟩
  · exact h x old
  · exact .of_bare _ rfl fun _ => rfl

theorem plantRoot (t : Tree) (kind : Kind) (tag : String) (log : Chronicle) :
    (t.plantRoot kind tag).Recorded log := by
  have wired : Keeps Node.entry { t with nodes := [t.fresh kind tag none], issued := t.issued + 1 }
      (t.plantRoot kind tag) := (wire_keeps _ _).entry
  refine congr (fun e he => ?_) wired.nodes
  rw [List.mem_singleton.mp he]
  exact .of_bare _ rfl fun _ => rfl

theorem add {kind : Kind} {parent : Option NodeId} (h : t.Recorded log)
    (e : t.add kind parent = .ok (t', id)) : t'.Recorded log := by
  obtain ⟨above, added, -, made, rest⟩ := add_eq_ok e
  rcases rest with rfl | ⟨child, both, other, -, made', rfl⟩
  · exact (h.insert made).congr (entries_setSelection _ _)
  · exact ((h.insert made).insert made').congr (entries_setSelection _ _)

theorem addParsed {kind : Kind} {tag : String} {parent : Option NodeId} (h : t.Recorded log)
    (e : t.addParsed kind tag parent = .ok (t', id)) : t'.Recorded log := by
  obtain ⟨-, -, rfl⟩ | ⟨-, above, -, inserted⟩ := addParsed_eq_ok e
  · exact plantRoot t kind tag log
  · exact h.insert inserted

theorem clear (t : Tree) (log : Chronicle) : t.clear.Recorded log := by
  unfold Recorded Tree.entries
  rw [nodes_clear]
  nofun

theorem reset (t : Tree) (log : Chronicle) : t.reset.Recorded log := by
  obtain ⟨t', id, added, reset⟩ | reset := t.reset_cases
  · exact reset ▸ ((plantRoot _ _ _ log).add added).congr (entries_setSelection _ _)
  · exact reset ▸ plantRoot _ _ _ log

/-- One entry changes, and what is created is noted. -/
theorem map {f : Entry → Entry} (h : t.Recorded log) (more : List String)
    (same : t'.entries = t.entries.map fun e => if e.id = id then f e else e)
    (fixed : ∀ e, (f e).id = e.id)
    (changed : ∀ e ∈ t.entries, e.id = id → (f e).Follows (log.at id ++ more)) :
    t'.Recorded (log ++ more.map (id, ·)) := by
  intro x hx
  rw [same] at hx
  obtain ⟨e, he, rfl⟩ := List.mem_map.mp hx
  split
  · rename_i here
    rw [fixed, here, Chronicle.at_append_self]
    exact changed e he here
  · rename_i other
    rw [Chronicle.at_append_of_ne log (Ne.symm other)]
    exact h e he

end Recorded

/-! ## Edits of attributes -/

theorem namesAt_of_mem {n : Node} (hn : t.node? id = some n) : t.namesAt id = n.names := by
  rw [namesAt, hn]
  rfl

theorem created_of_same {e : Edit} (same : t.edit e = t) : t.created e = none := by
  rw [created, same, Option.filter_eq_none_iff]
  intro place _
  simp

theorem created_of_mem {e : Edit} (slot : e.slot? = some (id, name)) (present : name ∈ t.namesAt id) :
    t.created e = none := by
  rw [created, slot]
  simp [present]

theorem node?_alter_self {n : Node} {f : Node → Node} (named : ∀ n, (f n).id = n.id)
    (hn : t.node? id = some n) : (t.alter id f).node? id = some (f n) := by
  rw [node?_alter named, hn, Option.map_some, if_pos (node?_eq_some hn).2]

theorem namesAt_createAttribute {n : Node} (hn : t.node? id = some n) (name value : String) :
    name ∈ (t.createAttribute id name value).namesAt id := by
  have same := map_node?_congr (names_writeSlot t id name value).nodes id
  rw [hn] at same
  obtain ⟨m, hm, -⟩ := Option.map_eq_some_iff.mp same
  have made : (t.createAttribute id name value).node? id = some (m.insertAttribute name) :=
    node?_alter_self (f := fun n => n.insertAttribute name) (fun _ => rfl) hm
  rw [namesAt_of_mem made]
  exact List.mem_map.mpr ⟨_, Attribute.mem_insertInto.mpr (.inl rfl), Attribute.name_create _ _ _⟩

/-- What an edit of an attribute creates is noted. -/
theorem Recorded.edit_slot (h : t.Recorded log) (nd : t.ids.Nodup) {e : Edit}
    (slot : e.slot? = some (id, name)) : (t.edit e).Recorded (log ++ (t.created e).toList) := by
  cases hn : t.node? id with
  | none =>
    rw [created_of_same (edit_slot_of_none slot hn), edit_slot_of_none slot hn, Option.toList_none,
      List.append_nil]
    exact h
  | some n =>
    have only (x : Entry) (hx : x ∈ t.entries) (here : x.id = id) : x.names = n.names := by
      obtain ⟨there, rfl⟩ := node?_eq_some hn
      rw [entry_eq_of_id nd there x hx here]
      exact Node.names_entry n
    -- nothing happens, a value is overwritten, an attribute comes, or one goes
    rcases edit_slot_cases slot hn with ⟨same, -⟩ | ⟨-, present, value, made⟩ | ⟨-, absent, value, made⟩ |
      ⟨-, present, made⟩
    · rw [created_of_same same, same, Option.toList_none, List.append_nil]
      exact h
    · rw [created_of_mem slot (namesAt_of_mem hn ▸ present), made]
      refine h.map [] (entries_writeSlot nd id name value) (fun _ => rfl) fun x hx here => ?_
      have there : name ∈ x.names := only x hx here ▸ present
      have assigned := (h x hx).assign_of_mem value there
      rw [Entry.assign_of_mem there] at assigned
      rw [List.append_nil, ← here]
      exact assigned
    · have out : name ∉ n.names := attribute?_eq_none.mp absent
      have noted : t.created e = some (id, name) := by
        rw [created, slot, made]
        simp [namesAt_of_mem hn, out, namesAt_createAttribute hn]
      rw [noted, made]
      refine h.map [name] (entries_createAttribute nd id name value) (fun _ => rfl)
        fun x hx here => ?_
      have absent : name ∉ x.names := only x hx here ▸ out
      have assigned := (h x hx).assign_of_not_mem value absent
      rw [Entry.assign_of_not_mem absent] at assigned
      rw [← here]
      exact assigned
    · rw [created_of_mem slot (namesAt_of_mem hn ▸ present), made]
      refine h.map [] (entries_discard nd id name) (fun _ => rfl) fun x hx here => ?_
      rw [List.append_nil, ← here]
      exact (h x hx).discard name

/-- Edits that are not about attributes create none. -/
theorem Recorded.edit_other (h : t.Recorded log) {e : Edit} (other : e.slot? = none) :
    (t.edit e).Recorded log := by
  cases t.edit_outcome e with
  | same same =>
    rw [same]
    exact h
  | clear _ made => exact made ▸ clear t log
  | reset _ made => exact made ▸ reset t log
  | add _ made => exact h.add made
  | addParsed _ made => exact h.addParsed made
  | remove _ made => exact fun x hx => h x (entries_remove made hx)
  | toggle _ made => exact h.congr (entries_toggle made)
  | select _ _ made => exact made ▸ h.congr (entries_setSelection t _)
  | resolve _ made =>
    have kept : Keeps Node.entry t _ := resolve_keeps_of (fun _ _ => rfl) made
    exact h.congr kept.nodes
  | insert asked => obtain rfl | rfl := asked <;> cases other
  | discard asked | write asked =>
    subst asked
    cases other

/-- Every edit keeps to the chronicle. -/
theorem Recorded.edit (h : t.Recorded log) (nd : t.ids.Nodup) (e : Edit) :
    (t.edit e).Recorded (if e.replaces then [] else log ++ (t.created e).toList) := by
  cases slot : e.slot? with
  | some place =>
    have goesOn : e.replaces = false := by
      cases e <;> first | rfl | cases slot
    rw [goesOn]
    exact h.edit_slot nd slot
  | none =>
    have none : t.created e = none := by
      rw [created, slot]
      rfl
    rw [none, Option.toList_none, List.append_nil]
    cases replaced : e.replaces with
    | true =>
      cases e with
      | clear => exact clear t []
      | reset => exact reset t []
      | _ => cases replaced
    | false =>
      exact h.edit_other slot

theorem Dated.recorded (h : Dated desk t log) : t.Recorded log := by
  suffices both : t.Sound ∧ t.Recorded log from both.2
  induction h with
  | new => exact ⟨sound_new desk, nofun⟩
  | edit e _ ih => exact ⟨sound_invariant.edit _ e ih.1, ih.2.edit ih.1.nodup e⟩
  | @setSpan t _ id span _ ih =>
    have kept : Keeps Node.entry t (t.setSpan id span) := keeps_alter t id _ fun _ => rfl
    exact ⟨sound_invariant.setSpan _ id span ih.1, ih.2.congr kept.nodes⟩
  | setAttributeSpan id name span _ ih =>
    exact ⟨sound_invariant.setAttributeSpan _ id name span ih.1,
      ih.2.congr (entries_setAttributeSpan _ id name span)⟩

end Tree

end QueryMarkup
