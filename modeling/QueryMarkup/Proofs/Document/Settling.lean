import QueryMarkup.Proofs.Document.Authored
import QueryMarkup.Proofs.Document.Recovery

/-!
# Reading settles

Whatever a text says, writing what was read of it gives a text about which there is nothing to
be said but what is wrong with single elements. Reading that text takes the blanks at the ends
of texts away, and from then on writing and reading change nothing any more.
-/
namespace QueryMarkup

open Markup

/-! ## The default document -/

/-- The default document is a root with one entity, whatever was there before. -/
theorem Tree.entries_reset (t : Tree) : t.reset.entries =
    [⟨⟨0⟩, .fetch, "fetch", 0, none, [], fun _ => ""⟩,
      ⟨⟨1⟩, .entity, "entity", 1, some ⟨0⟩, [], fun _ => ""⟩] := by
  have cleared : t.clear.issued = 0 := issued_setSelection _ _
  have kept : Keeps Node.entry { t.clear with
      nodes := [t.clear.fresh .fetch "fetch" none], issued := t.clear.issued + 1 }
        (t.clear.plantRoot .fetch "fetch") := (wire_keeps _ _).entry
  unfold reset
  dsimp only
  generalize t.clear.plantRoot .fetch "fetch" = planted at kept
  have entries : planted.entries = [⟨⟨0⟩, .fetch, "fetch", 0, none, [], fun _ => ""⟩] := by
    refine kept.nodes.trans ?_
    rw [List.map_singleton, entry_fresh, cleared]
    rfl
  have issued : planted.issued = 1 := by rw [kept.issued, cleared]
  obtain ⟨root, nodes, entry⟩ := List.map_eq_singleton_iff.mp entries
  have id : root.id = ⟨0⟩ := congrArg Entry.id entry
  have level : root.level = 0 := congrArg Entry.level entry
  have nd : planted.ids.Nodup := by
    rw [ids, nodes]
    exact List.nodup_singleton _
  obtain ⟨t1, added, new, -⟩ := @addParsed_child planted .entity "entity" [] [] root nodes nd
  have live : planted.isEmpty = false := by simp [isEmpty, nodes]
  unfold addParsed at added
  rw [live, id, issued] at added
  have inserted : planted.insert .entity "entity" ⟨0⟩ = .ok (t1, ⟨1⟩) := added
  have made : planted.add .entity (some ⟨0⟩) = .ok (t1.setSelection (some ⟨1⟩), ⟨1⟩) := by
    unfold add
    rw [Option.some_or]
    simp only [bind, Except.bind, Kind.tag?, Option.getD_some, inserted]
    rfl
  rw [made]
  dsimp only
  rw [entries_setSelection, entries_setSelection, new, issued, id, level]
  simp [entry]

theorem Tree.proper_reset (t : Tree) : t.reset.Proper := by
  unfold Tree.Proper
  rw [t.entries_reset]
  refine List.forall_mem_cons.mpr ⟨?_, List.forall_mem_singleton.mpr ?_⟩
  · exact ⟨⟨none, .inl ⟨rfl, rfl⟩, by decide⟩, by simp⟩
  · refine ⟨⟨some .fetch, .inr ?_, by decide⟩, by simp⟩
    exact ⟨_, List.mem_cons_self, rfl, rfl⟩

/-- The default document might have been read, where two elements may be open. -/
theorem Recovered.reset {t : Tree} (sound : t.Sound) (ds : List Diagnostic) :
    Recovered 2 [] ds t.reset := by
  refine ⟨Tree.sound_invariant.edit t .reset sound, ?_, ?_, trivial, fun _ => t.proper_reset⟩
  · rw [t.entries_reset]
    refine List.forall_mem_cons.mpr ⟨⟨by decide, by decide, by simp⟩, ?_⟩
    exact List.forall_mem_singleton.mpr ⟨by decide, by decide, by simp⟩
  · rw [t.entries_reset]
    exact List.forall_mem_cons.mpr ⟨by decide, List.forall_mem_singleton.mpr (by decide)⟩

/-- The default document takes the place of what was read, if that has no node. -/
theorem Recovered.orDefault {limit : Nat} {ds : List Diagnostic} {t : Tree}
    (h : Recovered limit [] ds t) (current : t.Current) :
    Recovered (max limit 2) [] ds (Document.orDefault t) ∧ (Document.orDefault t).Current ∧
      (Document.orDefault t).nodes ≠ [] := by
  unfold Document.orDefault
  split
  · have kept := Tree.current_invariant.edit t .reset ⟨h.sound, current⟩
    refine ⟨(Recovered.reset h.sound ds).raise (Nat.le_max_right limit 2), kept.2, fun none => ?_⟩
    have entries := t.entries_reset
    rw [Tree.entries, none] at entries
    cases entries
  · rename_i live
    refine ⟨h.raise (Nat.le_max_left limit 2), current, fun none => live ?_⟩
    rw [Tree.isEmpty, none]
    rfl

/-! ## Whole texts -/

theorem Recovered.writable {limit : Nat} {stack : List OpenElement} {ds : List Diagnostic} {t : Tree}
    (h : Recovered limit stack ds t) (current : t.Current) (nonempty : t.nodes ≠ []) :
    t.Writable ∧ ∀ x ∈ t.sketches, x.level < limit := by
  refine ⟨⟨h.sound, current, ?_, nonempty⟩, ?_⟩
  · intro x hx
    obtain ⟨n, hn, rfl⟩ := List.mem_map.mp hx
    obtain ⟨tag, kind, named⟩ := h.lettered n.entry (List.mem_map_of_mem hn)
    exact (current.fitted n hn).legible tag kind fun a ha => named a.base (List.mem_map_of_mem ha)
  · intro x hx
    obtain ⟨n, hn, rfl⟩ := List.mem_map.mp hx
    exact h.levels n.entry (List.mem_map_of_mem hn)

theorem Sketch.Faulty.kind {xs : List Sketch} {kind : DiagnosticKind} (h : Faulty xs kind) :
    kind = .unknownTag ∨ kind = .invalidParent ∨ kind = .unknownAttribute := by
  obtain ⟨before, x, after, -, misplaced | ⟨undeclared, -⟩⟩ := h
  · obtain ⟨i, hi, rfl⟩ := List.mem_map.mp misplaced
    rcases Builder.kind_of_checkPlacement i hi with ⟨unknown, -⟩ | place
    · exact .inl unknown
    · exact .inr (.inl place)
  · exact .inr (.inr undeclared)

namespace Document

section
variable (t : Tree) (source : String) (settings : Settings)

/-- Whatever the text says, its elements are as markup can say them, within the limit, and
proper where no error is reported. -/
theorem recovered_readTokens : let read := readTokens t (lex source) source settings
    Recovered settings.nestingLimit [] read.2 read.1 ∧ read.1.Current := by
  have start : Builder.Recovering settings.nestingLimit
      ({ limit := settings.nestingLimit }, t.clear) := by
    have none : t.clear.entries = [] := List.map_eq_nil_iff.mpr t.nodes_clear
    refine ⟨rfl, by simp, Tree.clear_sound t, ?_, ?_, trivial, fun _ => ?_⟩
    · simp [none]
    · simp [none]
    · simp [Tree.Proper, none]
  have last := start.readAll (@fits_of_mem_lex source)
  refine ⟨?_, (Tree.current_invariant.readTokens (lex source) source settings
    ⟨Tree.clear_sound t, Tree.clear_current t⟩).2⟩
  rw [readTokens_eq]
  generalize Builder.readAll source ({ limit := settings.nestingLimit }, t.clear) (lex source) = s at last
  obtain ⟨b, t'⟩ := s
  dsimp only
  rw [Builder.finish_tree, Builder.finish_fst]
  have closed : Recovered settings.nestingLimit [] (b.abandon t').1.diagnostics (b.abandon t').2 :=
    last.abandon.tree.reopen trivial
  have kept := @Builder.grows_foldl OpenElement
    (fun (b : Builder) e => b.report .unclosedTag e.span e.tag) (fun b e => Builder.grows_report b _ _ _)
  exact closed.report (kept { (b.abandon t').1 with stack := [] } _)

/-- What is read of a text can be written. -/
theorem recovered_parse : let read := parse t source settings
    Recovered (max settings.nestingLimit 2) [] read.2 read.1 ∧ read.1.Writable ∧
      ∀ x ∈ read.1.sketches, x.level < max settings.nestingLimit 2 := by
  obtain ⟨recovered, current⟩ := recovered_readTokens t source settings
  obtain ⟨kept, current, nonempty⟩ := recovered.orDefault current
  exact ⟨kept, kept.writable current nonempty⟩

/-- Whatever the text says, where at least the default document fits into the limit: about the
markup of what was read, and about the markup of what is read of that, there is nothing to be
said but what is wrong with the tag, the place or a name of an element, and reading and
writing once more gives the same markup. -/
theorem parse_settles (room : 2 ≤ settings.nestingLimit) (width : Nat) :
    let first := parse t source settings
    let second := parse first.1 (render first.1 width).text settings
    let third := parse second.1 (render second.1 width).text settings
    (∀ d ∈ second.2 ++ third.2,
        d.kind = .unknownTag ∨ d.kind = .invalidParent ∨ d.kind = .unknownAttribute) ∧
      (render third.1 width).text = (render second.1 width).text := by
  intro first second third
  obtain ⟨-, writable, levels⟩ := recovered_parse t source settings
  rw [Nat.max_eq_left room] at levels
  obtain ⟨writable', sketches, faults⟩ := parse_again writable width settings levels first.1
  have levels' : ∀ y ∈ second.1.sketches, y.level < settings.nestingLimit :=
    sketches ▸ Sketch.levels_trimmed levels
  obtain ⟨writable'', sketches', faults'⟩ := parse_again writable' width settings levels' second.1
  constructor
  · intro d hd
    rcases List.mem_append.mp hd with hd | hd
    · exact (faults d hd).kind
    · exact (faults' d hd).kind
  · refine render_eq writable'' writable' (sketches'.trans ?_) width
    rw [sketches, Sketch.map_trimmed_trimmed]

end

/-- A text in which nearly everything is wrong. -/
theorem parse_settles_run :
    let source := "x</y><fetch a a='1' a=2><b>&#32;t<entity 'q'/><value>&#32;&lt;u"
    let settings : Settings := { nestingLimit := 3 }
    2 ≤ settings.nestingLimit ∧
      let first := parse .empty source settings
      let second := parse first.1 (render first.1 2).text settings
      let third := parse second.1 (render second.1 2).text settings
      (∀ d ∈ second.2 ++ third.2,
          d.kind = .unknownTag ∨ d.kind = .invalidParent ∨ d.kind = .unknownAttribute) ∧
        (render third.1 2).text = (render second.1 2).text := by
  intro source settings
  have room : 2 ≤ settings.nestingLimit := by decide
  exact ⟨room, parse_settles .empty source settings room 2⟩

end Document

end QueryMarkup
