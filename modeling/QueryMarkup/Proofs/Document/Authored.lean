import QueryMarkup.Proofs.Document.Filling
import QueryMarkup.Proofs.Document.Soundness
import QueryMarkup.Proofs.Tree.Rewiring
import QueryMarkup.Proofs.Tree.Sketch

/-!
# Trees made by hand

A host makes a tree by adding, removing and toggling nodes and by setting and removing
attributes. Where it keeps to the known kinds and to names that markup has, and puts no
blanks at the ends of a text, every entry of the tree can be written and read again.
-/
namespace QueryMarkup

/-! ## What a host may ask for -/

/-- A node of this kind may be given this attribute: the name is declared or can be written,
and a text has no blanks at its ends. -/
def Kind.Admits (kind : Kind) (name value : String) : Prop :=
  ((kind.attribute? name).isSome = true ∨ Markup.isName name.toList = true) ∧
    (name = contentName → Text.trimmed value = value)

/-- A change that keeps a tree to what markup can say. -/
def Tree.Admits (t : Tree) : Edit → Prop
  | .add kind _ => kind ≠ .unknown
  | .remove _ | .toggle _ | .removeAttribute _ _ => True
  | .setAttribute id name value => ∀ n ∈ t.node? id, n.kind.Admits name value
  | _ => False

instance (kind : Kind) (name value : String) : Decidable (kind.Admits name value) :=
  inferInstanceAs (Decidable (_ ∧ _))

instance (t : Tree) (edit : Edit) : Decidable (t.Admits edit) :=
  match edit with
  | .add kind _ => inferInstanceAs (Decidable (kind ≠ .unknown))
  | .remove _ | .toggle _ | .removeAttribute _ _ => inferInstanceAs (Decidable True)
  | .setAttribute id name value =>
    inferInstanceAs (Decidable (∀ n ∈ t.node? id, n.kind.Admits name value))
  | .clear | .reset | .addParsed _ _ _ | .select _ | .insertParsed _ _ _ | .writeAttribute _ _ _
  | .resolve _ _ => inferInstanceAs (Decidable False)

/-- The trees that a host makes out of the default document. -/
inductive Tree.Authored (desk : Option Desk) : Tree → Prop where
  | start : Authored desk (Tree.new desk).reset
  | edit {t : Tree} (edit : Edit) : Authored desk t → t.Admits edit → Authored desk (t.edit edit)

theorem Tree.Authored.reached {desk : Option Desk} {t : Tree} (h : Authored desk t) :
    Reached desk t := by
  induction h with
  | start => exact .edit .reset .new
  | edit edit _ _ ih => exact ih.edit edit

/-! ## Entries that can be written -/

/-- The element is known, its attributes have names, and its text has no blanks at its ends. -/
structure Entry.Presentable (e : Entry) : Prop where
  tag : e.kind.tag? = some e.tag
  named : ∀ a ∈ e.attributes, Markup.isName a.name.toList = true ∨
    a.name = contentName ∧ e.kind.acceptsContent = true
  tight : Text.Tight (e.value contentName).toList

/-- There is a node, and all nodes can be written. -/
structure Tree.Presentable (t : Tree) : Prop where
  nonempty : t.entries ≠ []
  entries : ∀ e ∈ t.entries, e.Presentable

theorem Kind.tag?_getD {kind : Kind} (h : kind ≠ .unknown) : kind.tag? = some (kind.tag?.getD "") := by
  cases kind <;> first | rfl | exact absurd rfl h

theorem Kind.mandatoryChild?_ne_unknown {kind child : Kind} (h : kind.mandatoryChild? = some child) :
    child ≠ .unknown := by
  cases kind <;> cases h <;> decide

theorem Kind.isName_of_mem (kind : Kind) : ∀ spec ∈ kind.attributes,
    Markup.isName spec.name.toList = true ∨ spec.name = contentName := by
  cases kind <;> decide

theorem tight_empty : Text.Tight "".toList := ⟨by simp, by simp⟩

namespace Entry.Presentable

variable {e : Entry} {name value : String}

theorem assign (h : e.Presentable) (admits : e.kind.Admits name value) :
    (e.assign name value).Presentable := by
  obtain ⟨names, trimmed⟩ := admits
  have named : Markup.isName name.toList = true ∨ name = contentName ∧ e.kind.acceptsContent = true := by
    rcases names with declared | named
    · obtain ⟨spec, hs⟩ := Option.isSome_iff_exists.mp declared
      obtain ⟨hm, rfl⟩ := Kind.attribute?_eq_some hs
      rcases e.kind.isName_of_mem spec hm with named | content
      · exact .inl named
      · rw [content] at declared ⊢
        exact .inr ⟨rfl, declared⟩
    · exact .inl named
  refine ⟨h.tag, ?_, ?_⟩
  · intro a ha
    unfold Entry.assign at ha
    dsimp only at ha
    split at ha
    · exact h.named a ha
    · rcases Attribute.mem_insertInto.mp ha with rfl | ha
      · rwa [Kind.name_bareAttribute]
      · exact h.named a ha
  · unfold Entry.assign
    dsimp only
    split
    · rename_i content
      have same := congrArg String.toList (trimmed content.symm)
      rw [Text.trimmed, String.toList_ofList] at same
      exact Text.trim_eq_self_iff.mp same
    · exact h.tight

end Entry.Presentable

/-- An entry without one of its attributes. -/
def Entry.discard (name : String) (e : Entry) : Entry :=
  { e with
    value := fun x => if x = name then "" else e.value x
    attributes := e.attributes.filter fun a => a.name ≠ name }

theorem Entry.Presentable.discard {e : Entry} (h : e.Presentable) (name : String) :
    (e.discard name).Presentable := by
  refine ⟨h.tag, fun a ha => h.named a (List.mem_of_mem_filter ha), ?_⟩
  unfold Entry.discard
  dsimp only
  split
  · exact tight_empty
  · exact h.tight

namespace Tree

variable {t t' : Tree} {id : NodeId} {name value : String}

/-! ## What changes do to entries -/

theorem entries_setSelection (t : Tree) (selection : Option NodeId) :
    (t.setSelection selection).entries = t.entries := by
  rw [entries, nodes_setSelection, entries]

theorem entry_eraseAttribute (n : Node) (name : String) : (n.eraseAttribute name).entry =
    { n.entry with attributes := n.entry.attributes.filter fun a => a.name ≠ name } := by
  have own : (n.eraseAttribute name).value = n.value := Node.value_eraseAttribute n name
  have attributes : (n.eraseAttribute name).attributes.map Attribute.base =
      (n.attributes.map Attribute.base).filter fun a => a.name ≠ name := by
    rw [List.filter_map]
    rfl
  simp only [Node.entry, FullEntry.entry, Node.fullEntry, own, attributes]
  rfl

/-- An attribute that goes is taken out of one entry. -/
theorem entries_discard (nd : t.ids.Nodup) (id : NodeId) (name : String) :
    ((t.writeSlot id name "").alter id fun n => n.eraseAttribute name).touch.entries =
      t.entries.map fun x => if x.id = id then x.discard name else x := by
  have erased : ((t.writeSlot id name "").alter id fun n => n.eraseAttribute name).entries = _ :=
    entries_alter _ id _ (fun x => { x with
      attributes := x.attributes.filter fun a => a.name ≠ name })
      fun n => entry_eraseAttribute n name
  refine erased.trans ?_
  rw [entries_writeSlot nd, List.map_map]
  refine List.map_congr_left fun x _ => ?_
  by_cases hid : x.id = id
  · simp only [Function.comp_apply, if_pos hid, Entry.discard]
  · simp only [Function.comp_apply, if_neg hid]

theorem entries_toggle (e : t.toggle id = .ok t') : t'.entries = t.entries := by
  have flipped : Keeps Node.entry t (t.flip id) := flip_keeps (fun _ _ _ => rfl) t id
  obtain rfl | ⟨n, -, -, rfl | rfl⟩ := toggle_eq_ok e
  · rfl
  · exact flipped.nodes
  · exact (entries_setSelection _ _).trans flipped.nodes

theorem entries_remove (e : t.remove id = .ok t') : t'.entries ⊆ t.entries :=
  @map_remove_subset t _ Node.entry _ _
    (Node.view_recheckRule fun n => congrArg FullEntry.entry n.fullEntry_unchecked)
    (fun _ _ _ => rfl) (fun n gone => congrArg FullEntry.entry (n.fullEntry_forget gone)) e

theorem entries_insert {kind : Kind} {tag : String} {parent : NodeId}
    (e : t.insert kind tag parent = .ok (t', id)) : t'.entries ≠ [] ∧
      ∀ x ∈ t'.entries, x ∈ t.entries ∨ ∃ above, x = (t.fresh kind tag (some above)).entry := by
  obtain ⟨above, -, all⟩ := @mem_map_insert t _ Node.entry _ _ _ _ _
    (fun n => congrArg FullEntry.entry n.fullEntry_unchecked)
    (fun n name watcher => congrArg FullEntry.entry (n.fullEntry_watch name watcher))
    (fun _ _ _ _ _ => rfl) e
  constructor
  · exact List.ne_nil_of_mem ((all _).mpr (.inl rfl))
  · intro x hx
    rcases (all x).mp hx with new | old
    · exact .inr ⟨above, new⟩
    · exact .inl old

/-! ## Changes keep entries presentable -/

namespace Presentable

theorem congr (h : t.Presentable) (e : t'.entries = t.entries) : t'.Presentable :=
  ⟨e ▸ h.nonempty, e ▸ h.entries⟩

theorem map (h : t.Presentable) {f : Entry → Entry} (e : t'.entries = t.entries.map f)
    (keeps : ∀ x ∈ t.entries, (f x).Presentable) : t'.Presentable := by
  refine ⟨?_, ?_⟩
  · rw [e, Ne, List.map_eq_nil_iff]
    exact h.nonempty
  · intro y hy
    rw [e] at hy
    obtain ⟨x, hx, rfl⟩ := List.mem_map.mp hy
    exact keeps x hx

theorem insert {kind : Kind} {tag : String} {parent : NodeId} (known : kind.tag? = some tag)
    (h : ∀ x ∈ t.entries, x.Presentable) (e : t.insert kind tag parent = .ok (t', id)) :
    t'.Presentable := by
  obtain ⟨nonempty, source⟩ := entries_insert e
  refine ⟨nonempty, fun x hx => ?_⟩
  rcases source x hx with hx | ⟨above, rfl⟩
  · exact h x hx
  · rw [entry_fresh]
    exact ⟨known, by simp, tight_empty⟩

theorem add {kind : Kind} {parent : Option NodeId} (known : kind ≠ .unknown)
    (h : ∀ x ∈ t.entries, x.Presentable) (e : t.add kind parent = .ok (t', id)) : t'.Presentable := by
  obtain ⟨above, one, -, inserted, rest⟩ := add_eq_ok e
  have added := Presentable.insert (Kind.tag?_getD known) h inserted
  obtain rfl | ⟨child, both, other, mandatory, inserted', rfl⟩ := rest
  · exact added.congr (entries_setSelection _ _)
  · have child := Kind.tag?_getD (Kind.mandatoryChild?_ne_unknown mandatory)
    exact (Presentable.insert child added.entries inserted').congr (entries_setSelection _ _)

theorem reset (t : Tree) : t.reset.Presentable := by
  have planted : (t.clear.plantRoot .fetch "fetch").Presentable := by
    have kept : Keeps Node.entry { t.clear with
        nodes := [t.clear.fresh .fetch "fetch" none], issued := t.clear.issued + 1 }
          (t.clear.plantRoot .fetch "fetch") := (wire_keeps _ _).entry
    have root : (t.clear.plantRoot .fetch "fetch").entries =
        [(t.clear.fresh .fetch "fetch" none).entry] := kept.nodes
    refine ⟨by simp [root], fun x hx => ?_⟩
    rw [root, List.mem_singleton, entry_fresh] at hx
    rw [hx]
    exact ⟨rfl, by simp, tight_empty⟩
  obtain ⟨t', id, added, reset⟩ | reset := t.reset_cases
  · exact reset ▸ (Presentable.add (by decide) planted.entries added).congr (entries_setSelection _ _)
  · exact reset ▸ planted

/-- An admitted change keeps a tree presentable. -/
theorem edit (h : t.Presentable) (sound : t.Sound) {edit : Edit} (admits : t.Admits edit) :
    (t.edit edit).Presentable := by
  cases t.edit_outcome edit with
  | same same =>
    rw [same]
    exact h
  | add asked made =>
    subst asked
    exact Presentable.add admits h.entries made
  | remove _ made =>
    refine ⟨?_, fun x hx => h.entries x (entries_remove made hx)⟩
    obtain ⟨before, last, n, run, rest, parent, -, -, -, -, -, shapes, -⟩ := shapes_remove sound.nodup made
    intro none
    have empty : (t.edit edit).nodes = [] := List.map_eq_nil_iff.mp none
    rw [Tree.shapes, empty] at shapes
    simp at shapes
  | toggle _ made => exact h.congr (entries_toggle made)
  | insert asked made =>
    obtain rfl | rfl := asked
    · refine h.map (entries_insertParsed sound.nodup made).1 fun x hx => ?_
      split
      · rename_i hid
        obtain ⟨n, hn, rfl⟩ := List.mem_map.mp hx
        exact (h.entries _ hx).assign (admits n (hid ▸ node?_of_mem sound.nodup hn))
      · exact h.entries x hx
    · exact admits.elim
  | @discard id name _ _ _ _ made =>
    refine h.map (made ▸ entries_discard sound.nodup id name) fun x hx => ?_
    split
    · exact (h.entries x hx).discard name
    · exact h.entries x hx
  | clear asked | reset asked | addParsed asked | select asked | write asked | resolve asked =>
    subst asked
    exact admits.elim

end Presentable

theorem Authored.presentable {desk : Option Desk} (h : Authored desk t) : t.Presentable := by
  induction h with
  | start => exact Presentable.reset _
  | edit edit before admits ih => exact ih.edit before.reached.sound admits

end Tree

end QueryMarkup
