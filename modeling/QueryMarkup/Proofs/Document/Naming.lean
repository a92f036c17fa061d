import QueryMarkup.Proofs.Document.Replies
import QueryMarkup.Proofs.Tree.Audience
import QueryMarkup.Proofs.Tree.Lasting

/-!
# Names of nodes

As long as one document is edited, a new node gets a name that none had before, and a name that is
kept denotes the node that it was given to or none. Another document is numbered from the start again,
so names that were kept from before it come to denote its nodes.
-/
namespace QueryMarkup.Tree

variable {t t' : Tree} {desk : Option Desk} {d : Deed} {deeds : List Deed}

/-! ## The first name -/

/-- The first node is the one that was named first. -/
def Numbered (t : Tree) : Prop := t.ids.head? = if t.issued = 0 then none else some ⟨0⟩

theorem Numbered.of_keeps (h : t.Numbered) (k : Keeps Node.id t t') : t'.Numbered := by
  unfold Numbered
  rw [ids, k.nodes, k.issued]
  exact h

theorem Numbered.setSelection (h : t.Numbered) (selection : Option NodeId) :
    (t.setSelection selection).Numbered := by
  unfold Numbered
  rw [ids, nodes_setSelection, issued_setSelection]
  exact h

theorem insert_numbered {kind : Kind} {tag : String} {parent id : NodeId} (h : t.Numbered)
    (e : t.insert kind tag parent = .ok (t', id)) : t'.Numbered := by
  obtain ⟨before, above, after, cut, -⟩ := insert_eq_ok e
  obtain ⟨nodes, -, -⟩ := splitAt_eq_some cut
  have first : t'.ids.head? = t.ids.head? := by
    rw [(insert_keeps cut e).2.ids_of_entry, ids, ids, nodes, placed]
    cases before <;> rfl
  have live : t.ids.head? ≠ none := by
    rw [ids, nodes]
    simp
  unfold Numbered at h ⊢
  rw [first, h, (insert_issued e).2, if_neg (Nat.succ_ne_zero _), if_neg]
  intro none
  rw [if_pos none] at h
  exact live h

theorem Change.numbered (c : Change t t') (sound : t.Sound) (h : t.Numbered) : t'.Numbered := by
  cases c with
  | touch => exact h.of_keeps (keeps_touch _ t)
  | clear =>
    have cleared : t.clear.issued = 0 := issued_setSelection _ _
    unfold Numbered
    rw [ids, nodes_clear, cleared]
    rfl
  | plant kind tag empty =>
    have first : t.issued = 0 := by
      refine of_not_not fun other => ?_
      unfold Numbered at h
      rw [ids, empty, if_neg other] at h
      cases h
    have wired : Keeps Node.entry { t with nodes := [t.fresh kind tag none], issued := t.issued + 1 }
        (t.plantRoot kind tag) := (wire_keeps _ _).entry
    unfold Numbered
    rw [wired.ids_of_entry, wired.issued, if_neg (Nat.succ_ne_zero _)]
    exact congrArg (fun i => some (NodeId.mk i)) first
  | insert e => exact insert_numbered h e
  | remove e =>
    unfold Numbered
    rw [head?_ids_remove sound.nodup e, issued_remove e]
    exact h
  | flip _ => exact h.of_keeps (flip_keeps (fun _ _ _ => rfl) t _)
  | select live => exact h.setSelection _
  | write id name value =>
    exact h.of_keeps (writeSlot_keeps (fun _ => rfl) (fun _ _ _ => rfl) t id name value)
  | @create id _ name value _ _ =>
    have written : Keeps Node.id t (t.writeSlot id name value) :=
      writeSlot_keeps (fun _ => rfl) (fun _ _ _ => rfl) t id name value
    exact h.of_keeps (written.trans (createAttribute_keeps (fun _ _ => rfl) t id name value))
  | discard id name =>
    have written : Keeps Node.id t (t.writeSlot id name "") :=
      writeSlot_keeps (fun _ => rfl) (fun _ _ _ => rfl) t id name ""
    exact h.of_keeps (written.trans (keeps_alter _ id _ fun _ => rfl))
  | resolve e => exact h.of_keeps (resolve_keeps_of (fun _ _ => rfl) e)

theorem numbered_invariant : Invariant fun t => t.Sound ∧ t.Numbered where
  change c h := ⟨c.sound h.1, c.numbered h.1 h.2⟩
  setSpan t id span h :=
    ⟨sound_invariant.setSpan t id span h.1, h.2.of_keeps (keeps_alter t id _ fun _ => rfl)⟩
  setAttributeSpan t id name span h :=
    ⟨sound_invariant.setAttributeSpan t id name span h.1, h.2.of_keeps (keeps_alter t id _ fun _ => rfl)⟩

/-- The root of every tree is called `0`. -/
theorem Reached.numbered (h : Reached desk t) : t.Numbered :=
  (numbered_invariant.of_reached ⟨sound_new desk, rfl⟩ h).2

/-! ## New nodes -/

/-- The names that a deed leaves to the nodes that had them. Another document has none of the nodes
before it. -/
def retained (t : Tree) : Deed → List NodeId
  | .edit e => if e.replaces then [] else t.ids
  | .parse _ _ => []

/-- The names that a deed gives to new nodes. -/
def creates (t : Tree) (d : Deed) : List NodeId := (t.after d).ids.filter fun id => id ∉ t.retained d

/-- The names that deeds give to new nodes, one deed after the other. -/
def creations (t : Tree) : List Deed → List NodeId
  | [] => []
  | d :: deeds => t.creates d ++ (t.after d).creations deeds

theorem Reached.after (h : Reached desk t) (d : Deed) : Reached desk (t.after d) := by
  cases d with
  | edit e => exact h.edit e
  | parse source settings => exact h.parse source settings

theorem retained_of_replaces (other : d.Replaces) : t.retained d = [] := by
  cases d with
  | edit e => cases e <;> first | rfl | cases other
  | parse source settings => rfl

/-- A deed that works on the document is an edit that goes on with it. -/
theorem exists_edit_of_not_replaces (goesOn : ¬ d.Replaces) :
    ∃ e, d = .edit e ∧ e.replaces = false := by
  cases d with
  | edit e =>
    refine ⟨e, rfl, ?_⟩
    cases e <;> first | rfl | exact absurd trivial goesOn
  | parse source settings => exact absurd trivial goesOn

theorem continues_after (goesOn : ¬ d.Replaces) : t.Continues (t.after d) := by
  obtain ⟨e, rfl, lasting⟩ := exists_edit_of_not_replaces goesOn
  exact t.continues_edit lasting

theorem continues_run (goesOn : ∀ d ∈ deeds, ¬ d.Replaces) : t.Continues (deeds.foldl after t) := by
  induction deeds generalizing t with
  | nil => exact .refl t
  | cons d deeds ih =>
    rw [List.forall_mem_cons] at goesOn
    exact (continues_after goesOn.1).trans (ih goesOn.2)

/-- A name that is given while a document is worked on was not given before. -/
theorem le_index_of_mem_creates (goesOn : ¬ d.Replaces) {id : NodeId} (new : id ∈ t.creates d) :
    t.issued ≤ id.index := by
  obtain ⟨live, fresh⟩ := List.mem_filter.mp new
  obtain ⟨n', hn', rfl⟩ := List.mem_map.mp live
  obtain ⟨e, rfl, lasting⟩ := exists_edit_of_not_replaces goesOn
  have other : n'.id ∉ t.ids := by
    rw [retained, lasting] at fresh
    simpa using fresh
  -- a node with an older name would be one that was there
  refine Nat.not_lt.mp fun old => ?_
  obtain ⟨n, hn, lasts⟩ := (t.continues_edit lasting).nodes n' hn' old
  have same : n'.id = n.id := lasts.id
  exact other (same ▸ List.mem_map_of_mem hn)

theorem le_index_of_mem_creations (goesOn : ∀ d ∈ deeds, ¬ d.Replaces) {id : NodeId}
    (new : id ∈ t.creations deeds) : t.issued ≤ id.index := by
  induction deeds generalizing t with
  | nil => cases new
  | cons d deeds ih =>
    rw [List.forall_mem_cons] at goesOn
    rcases List.mem_append.mp new with first | later
    · exact le_index_of_mem_creates goesOn.1 first
    · exact (continues_after goesOn.1).issued.trans (ih goesOn.2 later)

theorem Reached.nodup_creates (h : Reached desk t) (d : Deed) : (t.creates d).Nodup :=
  (h.after d).sound.nodup.filter _

theorem Reached.index_lt_of_mem_creates (h : Reached desk t) {id : NodeId} (new : id ∈ t.creates d) :
    id.index < (t.after d).issued :=
  (h.after d).sound.index_lt (List.mem_of_mem_filter new)

/-- Only the first of the deeds may put another document in place. -/
theorem Reached.nodup_creations (h : Reached desk t) (d : Deed) (goesOn : ∀ d ∈ deeds, ¬ d.Replaces) :
    (t.creations (d :: deeds)).Nodup := by
  induction deeds generalizing t d with
  | nil =>
    rw [creations, creations, List.append_nil]
    exact h.nodup_creates d
  | cons e deeds ih =>
    refine List.nodup_append.mpr
      ⟨h.nodup_creates d, ih (h.after d) e (List.forall_mem_cons.mp goesOn).2, ?_⟩
    rintro id first _ later rfl
    exact Nat.not_lt.mpr (le_index_of_mem_creations goesOn later) (h.index_lt_of_mem_creates first)

/-- From when a document is put in place until it is replaced, no two nodes get the same name, none
gets one that was given before if the document was there already, and a name goes on to denote the
node that it was given to, or none. Every document that has a node gives the name `0` again. -/
theorem reached_creations (h : Reached desk t) (d : Deed) (goesOn : ∀ d ∈ deeds, ¬ d.Replaces) :
    (t.creations (d :: deeds)).Nodup ∧
      (¬ d.Replaces → ∀ id ∈ t.creations (d :: deeds), t.issued ≤ id.index) ∧
      (t.after d).Continues (deeds.foldl after (t.after d)) ∧
      (d.Replaces → t.creates d ≠ [] → ⟨0⟩ ∈ t.creates d) := by
  refine ⟨h.nodup_creations d goesOn, fun lasting id new => ?_, continues_run goesOn,
    fun other some => ?_⟩
  · exact le_index_of_mem_creations (List.forall_mem_cons.mpr ⟨lasting, goesOn⟩) new
  · have all : t.creates d = (t.after d).ids := by
      rw [creates, retained_of_replaces other]
      simp
    rw [all] at some ⊢
    have first := (h.after d).numbered
    unfold Numbered at first
    split at first
    · exact absurd (List.head?_eq_none_iff.mp first) some
    · exact List.mem_of_mem_head? first

/-- A text is read, its entity goes, and a filter comes that gets a name of its own. -/
theorem reached_creations_run :
    let t : Tree := .new none
    let read : Deed := .parse "<fetch><entity/><entity/></fetch>" {}
    let edits : List Deed := [.edit (.remove ⟨2⟩), .edit (.add .filter (some ⟨1⟩))]
    Reached none t ∧ (∀ d ∈ edits, ¬ d.Replaces) ∧
      t.creations (read :: edits) = [⟨0⟩, ⟨1⟩, ⟨2⟩, ⟨3⟩, ⟨4⟩] ∧ (t.creations (read :: edits)).Nodup := by
  intro t read edits
  have goesOn : ∀ d ∈ edits, ¬ d.Replaces := by simp [edits, Deed.Replaces]
  exact ⟨.new, goesOn, by decide +kernel, (reached_creations .new read goesOn).1⟩

/-- The default document is put in place twice, and names its root `0` twice. -/
theorem creations_repeat : ¬ ∀ deeds, ((new none).creations deeds).Nodup := fun distinct =>
  absurd (distinct [.edit .reset, .edit .reset]) (by decide +kernel)

end QueryMarkup.Tree
