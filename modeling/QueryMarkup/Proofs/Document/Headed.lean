import QueryMarkup.Proofs.Document.Settling

/-!
# Trees with a root

What a session offers its host never takes the root away or gives it another tag. The markup
of a tree whose root has a name starts with the root's start tag, so it is not blank.
-/
namespace QueryMarkup

/-- What a session lets its host ask for. Emptying the tree and placing what was read is left
to the reading of a text. -/
def Edit.isOffered : Edit → Bool
  | .clear | .addParsed .. | .insertParsed .. => false
  | _ => true

/-- There is a root, and its tag is a name. -/
structure Tree.Headed (t : Tree) : Prop where
  nonempty : t.nodes ≠ []
  named : ∀ n ∈ t.nodes, n.level = 0 → Markup.isName n.tag.toList = true

namespace Tree

/-- The level and the tag of a node, which are settled when it is made. -/
def title (n : Node) : Nat × String := (n.level, n.tag)

variable {t t' : Tree}

/-! ## Edits -/

theorem Headed.of_titles (h : t.Headed) (nonempty : t'.nodes ≠ [])
    (source : ∀ m ∈ t'.nodes, m.level ≠ 0 ∨ ∃ n ∈ t.nodes, title m = title n) : t'.Headed := by
  constructor
  · exact nonempty
  · intro m hm top
    rcases source m hm with deep | ⟨n, hn, same⟩
    · exact absurd top deep
    · obtain ⟨level, tag⟩ := Prod.mk.inj same
      rw [tag]
      exact h.named n hn (level ▸ top)

theorem Headed.of_keeps (h : t.Headed) (kept : Keeps title t t') : t'.Headed := by
  apply h.of_titles
  · intro none
    apply h.nonempty
    have nodes := kept.nodes
    rw [none] at nodes
    exact List.map_eq_nil_iff.mp nodes.symm
  · intro m hm
    have hm' := List.mem_map_of_mem (f := title) hm
    rw [kept.nodes] at hm'
    obtain ⟨n, hn, same⟩ := List.mem_map.mp hm'
    exact .inr ⟨n, hn, same.symm⟩

theorem Headed.of_nodes (h : t.Headed) (same : t'.nodes = t.nodes) : t'.Headed :=
  ⟨same ▸ h.nonempty, same ▸ h.named⟩

theorem Headed.of_entries (h : t.Headed) (nonempty : t'.nodes ≠ [])
    (source : ∀ x ∈ t'.entries, x.level ≠ 0 ∨ x ∈ t.entries) : t'.Headed := by
  apply h.of_titles nonempty
  intro m hm
  rcases source m.entry (List.mem_map_of_mem hm) with deep | old
  · exact .inl deep
  · obtain ⟨n, hn, same⟩ := List.mem_map.mp old
    exact .inr ⟨n, hn, Prod.ext (congrArg Entry.level same.symm) (congrArg Entry.tag same.symm)⟩

theorem Headed.insert {kind : Kind} {tag : String} {parent id : NodeId} (h : t.Headed)
    (e : t.insert kind tag parent = .ok (t', id)) : t'.Headed := by
  obtain ⟨nonempty, source⟩ := entries_insert e
  apply h.of_entries
  · intro none
    exact nonempty (List.map_eq_nil_iff.mpr none)
  · intro x hx
    rcases source x hx with old | ⟨above, rfl⟩
    · exact .inr old
    · exact .inl (Nat.succ_ne_zero above.level)

theorem Headed.add {kind : Kind} {parent : Option NodeId} {id : NodeId} (h : t.Headed)
    (e : t.add kind parent = .ok (t', id)) : t'.Headed := by
  obtain ⟨above, one, -, inserted, rfl | ⟨child, both, other, -, inserted', rfl⟩⟩ := add_eq_ok e
  · exact (h.insert inserted).of_nodes (nodes_setSelection _ _)
  · exact ((h.insert inserted).insert inserted').of_nodes (nodes_setSelection _ _)

theorem Headed.toggle {id : NodeId} (h : t.Headed) (e : t.toggle id = .ok t') : t'.Headed := by
  have entries := entries_toggle e
  apply h.of_entries
  · intro none
    apply h.nonempty
    rw [Tree.entries, none] at entries
    exact List.map_eq_nil_iff.mp entries.symm
  · exact fun x hx => .inr (entries ▸ hx)

theorem Headed.remove {id : NodeId} (h : t.Headed) (sound : t.Sound)
    (e : t.remove id = .ok t') : t'.Headed := by
  apply h.of_entries
  · obtain ⟨before, last, n, run, rest, parent, -, -, -, -, -, shapes, -⟩ :=
      shapes_remove sound.nodup e
    intro none
    rw [Tree.shapes, none] at shapes
    simp at shapes
  · exact fun x hx => .inr (entries_remove e hx)

theorem Headed.writeSlot (h : t.Headed) (id : NodeId) (name value : String) :
    (t.writeSlot id name value).Headed :=
  h.of_keeps (writeSlot_keeps (fun _ => rfl) (fun _ _ _ => rfl) t id name value)

theorem Headed.insertParsed {id : NodeId} {name value : String} {issues : List StructuralIssue}
    (h : t.Headed) (e : t.insertParsed id name value = .ok (t', issues)) : t'.Headed := by
  obtain ⟨-, -, ⟨-, rfl, -⟩ | ⟨-, rfl, -⟩⟩ := insertParsed_eq_ok e
  · exact h.writeSlot id name value
  · exact (h.writeSlot id name value).of_keeps (createAttribute_keeps (fun _ _ => rfl) t id name value)

theorem Headed.resolve {number : Nat} {verdict : Verdict} {late : Bool} (h : t.Headed)
    (e : t.resolve number verdict = some (t', late)) : t'.Headed :=
  h.of_keeps ((resolve_keeps e).map title)

theorem headed_reset (t : Tree) : t.reset.Headed := by
  have entries := t.entries_reset
  constructor
  · intro none
    rw [Tree.entries, none] at entries
    cases entries
  · intro n hn top
    have hn' : n.entry ∈ t.reset.entries := List.mem_map_of_mem hn
    rw [entries] at hn'
    rcases List.mem_pair.mp hn' with root | child
    · have tag : n.tag = "fetch" := congrArg Entry.tag root
      rw [tag]
      decide
    · have deep : n.level = 1 := congrArg Entry.level child
      omega

/-- What a session offers leaves the tree its root. -/
theorem Headed.edit (h : t.Headed) (sound : t.Sound) {edit : Edit} (offered : edit.isOffered = true) :
    (t.edit edit).Headed := by
  cases t.edit_outcome edit with
  | same same =>
    rw [same]
    exact h
  | reset _ made => exact made ▸ headed_reset t
  | add _ made => exact h.add made
  | remove _ made => exact h.remove sound made
  | toggle _ made => exact h.toggle made
  | select _ _ made => exact made ▸ h.of_nodes (nodes_setSelection _ _)
  | insert _ made => exact h.insertParsed made
  | discard _ _ _ made =>
    rw [made]
    exact (h.writeSlot _ _ "").of_keeps (eraseAttribute_keeps (fun _ _ => rfl) _ _ _)
  | write _ _ _ made => exact made ▸ h.writeSlot _ _ _
  | resolve _ made => exact h.resolve made
  | clear asked | addParsed asked =>
    rw [asked] at offered
    cases offered

/-- Without a root there is nothing to change but to put the default document in place. -/
theorem edit_of_empty (empty : t.nodes = []) {edit : Edit} (offered : edit.isOffered = true) :
    edit = .reset ∨ (t.edit edit).nodes = [] ∧ (t.edit edit).revision = t.revision := by
  have absent {id : NodeId} {n : Node} (found : t.node? id = some n) : False := by
    simp [node?, empty] at found
  have uncut {id : NodeId} {cut : List Node × Node × List Node}
      (split : splitAt id t.nodes = some cut) : False := by
    simp [empty, splitAt] at split
  cases t.edit_outcome edit with
  | reset asked => exact .inl asked
  | clear asked | addParsed asked =>
    rw [asked] at offered
    cases offered
  | same same => exact .inr ⟨same.symm ▸ empty, congrArg revision same⟩
  | add _ made =>
    obtain ⟨_, _, -, inserted, -⟩ := add_eq_ok made
    obtain ⟨_, _, _, split, -⟩ := insert_eq_ok inserted
    exact (uncut split).elim
  | remove _ made =>
    unfold Tree.remove at made
    simp [empty, splitAt] at made
  | toggle _ made =>
    obtain same | ⟨n, hn, -⟩ := toggle_eq_ok made
    · exact .inr ⟨same.symm ▸ empty, congrArg revision same⟩
    · rw [empty] at hn
      cases hn
  | select _ _ made =>
    rw [made]
    refine .inr ⟨(nodes_setSelection t _).trans empty, ?_⟩
    unfold Tree.setSelection
    split <;> rfl
  | insert _ made =>
    obtain ⟨_, found, -⟩ := insertParsed_eq_ok made
    exact (absent found).elim
  | discard _ found => exact (absent found).elim
  | write _ found => exact (absent found).elim
  | resolve _ made =>
    obtain ⟨desk, request, -, -, -, answered⟩ := resolve_eq_some made
    rw [answered]
    right
    split
    · exact ⟨empty, rfl⟩
    · simp [answerCheck, empty]

end Tree

/-- What was read has a named root, if it has any. -/
theorem Recovered.headed {limit : Nat} {stack : List OpenElement} {ds : List Diagnostic} {t : Tree}
    (h : Recovered limit stack ds t) (nonempty : t.nodes ≠ []) : t.Headed :=
  ⟨nonempty, fun n hn _ => (h.lettered n.entry (List.mem_map_of_mem hn)).tag⟩

/-! ## Writing -/

namespace Document

open Markup

/-- A text that starts with a start tag is not blank. -/
theorem not_isBlankText {source : String} {c : Char} {rest : List Char}
    (starts : source.toList = '<' :: c :: rest) (named : isNameStart c = true) :
    isBlankText (lex source) source = false := by
  have first : ∃ more, words source = ⟨.startTag, ['<']⟩ :: more := by
    rw [words_eq, starts, lexemes, lexemesFrom_startTag named, joinErrors]
    split
    · rw [if_neg (by simp)]
      exact ⟨_, rfl⟩
    · exact ⟨_, rfl⟩
  obtain ⟨more, first⟩ := first
  obtain ⟨token, tokens, tokenized, here, -⟩ := List.map_eq_cons_iff.mp first
  have kind : token.kind = .startTag := congrArg Lexeme.kind here
  have chars : (Text.slice source token.span).toList = ['<'] := congrArg Lexeme.chars here
  rw [isBlankText, tokenized, List.all_cons, kind, chars]
  rfl

/-- The markup of a tree with a named root is not blank. -/
theorem not_isBlankText_render {t : Tree} (sound : t.Sound) (h : t.Headed) (width : Nat) :
    isBlankText (lex (render t width).text) (render t width).text = false := by
  cases hn : t.nodes with
  | nil => exact absurd hn h.nonempty
  | cons root rest =>
    have top : root.level = 0 := by
      have nested := sound.arranged.nested
      rw [Tree.shapes, hn] at nested
      exact nested.1
    have named := h.named root (hn ▸ List.mem_cons_self) top
    cases tag : root.tag.toList with
    | nil =>
      rw [tag] at named
      cases named
    | cons c cs =>
      rw [tag] at named
      simp only [isName, Bool.and_eq_true] at named
      have level : (elementLine root).level = 0 := top
      have line : ∃ more, pieceChars (elementLine root).pieces = '<' :: c :: more := by
        simp [elementLine, pieceChars, tag]
      obtain ⟨more, line⟩ := line
      have starts : ∃ more, (render t width).text.toList = '<' :: c :: more := by
        rw [toList_text, lines, hn, linesFrom, List.takeWhile_nil, List.map_nil, List.nil_append,
          pieceChars_join, level, line, Nat.zero_mul]
        exact ⟨_, rfl⟩
      obtain ⟨more, starts⟩ := starts
      exact not_isBlankText starts named.1

end Document

end QueryMarkup
