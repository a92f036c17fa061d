import QueryMarkup.Proofs.Document.Placed
import QueryMarkup.Proofs.Document.Recovery

/-!
# Reports about elements that are not placed

Two kinds of findings say that an element is not placed. All other reports leave them as they are,
also those that a start tag gets once it has a place, with or without values of its attributes.
-/
namespace QueryMarkup

/-- The findings about elements that cannot be placed. -/
def refusing : List DiagnosticKind := [.nestingTooDeep, .multipleRoots]

def refusals (ds : List Diagnostic) : List Diagnostic := ds.filter (·.kind ∈ refusing)

theorem refusals_append {ds ds' : List Diagnostic} (mild : ∀ d ∈ ds', d.kind ∉ refusing) :
    refusals (ds ++ ds') = refusals ds := by
  have none : ds'.filter (·.kind ∈ refusing) = [] :=
    List.filter_eq_nil_iff.mpr fun d hd => by simpa using mild d hd
  rw [refusals, List.filter_append, none, List.append_nil]
  rfl

/-- What is said about an element that is not placed is a finding of these kinds. -/
theorem Fate.mem_refusing {limit : Nat} {start : StagedElement} {fate : Fate} {said : DiagnosticKind × String}
    (h : fate.finding? limit start = some said) : said.1 ∈ refusing := by
  cases fate with
  | placed | inside => cases h
  | tooDeep | secondRoot =>
    obtain rfl := Option.some.inj h
    simp [refusing]

theorem Entry.map_assignAll_nil (id : NodeId) (xs : List Entry) :
    xs.map (fun x => if x.id = id then x.assignAll [] else x) = xs :=
  (List.map_congr_left fun x _ => ite_self x).trans (List.map_id xs)

namespace Builder

variable {id : NodeId} {b : Builder} {t : Tree}

theorem refusals_report (b : Builder) {kind : DiagnosticKind} (mild : kind ∉ refusing) (span : Text.Range)
    (detail : Option String) :
    refusals (b.report kind span detail).diagnostics = refusals b.diagnostics :=
  refusals_append (List.forall_mem_singleton.mpr mild)

theorem refusals_refusing (b : Builder) {kind : DiagnosticKind} (grave : kind ∈ refusing) (span : Text.Range)
    (detail : Option String) : refusals (b.report kind span detail).diagnostics =
      refusals b.diagnostics ++ [.report kind span detail] := by
  refine (List.filter_append _ _).trans (congrArg (refusals b.diagnostics ++ ·) ?_)
  exact List.filter_eq_self.mpr (List.forall_mem_singleton.mpr (decide_eq_true grave))

/-- Of a text at most this is said, that it is in a place without text. -/
theorem readText_mild (b : Builder) (t : Tree) (span : Text.Range) (chars : List Char) :
    let b' := (b.readText t span chars).1
    b'.silent = b.silent ∧ refusals b'.diagnostics = refusals b.diagnostics := by
  cases b.readText_outcome t span chars with
  | ignored read => exact read ▸ ⟨rfl, rfl⟩
  | unexpected read => exact read ▸ ⟨rfl, b.refusals_report (by decide) _ none⟩
  | stored _ _ _ read => exact read ▸ ⟨rfl, rfl⟩

/-! ## The attributes of a start tag -/

/-- An attribute is assigned if it has a value. -/
theorem readAttribute_takes {s : Builder × Tree × List String} (live : id ∈ s.2.1.ids)
    (nd : s.2.1.ids.Nodup) (a : StagedAttribute) : let s' := readAttribute id s a
    s'.2.1.entries = s.2.1.entries.map (fun x => if x.id = id then x.assignAll a.pair?.toList else x) ∧
      s'.2.1.issued = s.2.1.issued ∧ refusals s'.1.diagnostics = refusals s.1.diagnostics := by
  obtain ⟨b, t, seen⟩ := s
  obtain ⟨name, span, value⟩ := a
  cases value with
  | none =>
    refine ⟨(Entry.map_assignAll_nil id t.entries).symm, rfl, (refusals_report _ (by decide) _ _).trans ?_⟩
    split
    · exact refusals_report _ (by decide) _ _
    · rfl
  | some value =>
    obtain ⟨b', t', read, entries, issued, -, ds, reports, kinds⟩ :=
      readAttribute_value (b := b) live nd seen name span value
    rw [read]
    refine ⟨entries, issued, ?_⟩
    dsimp only
    rw [reports]
    refine refusals_append fun d hd => ?_
    rcases kinds d hd with ⟨kind, -⟩ | ⟨kind, -⟩
    · rw [kind]
      decide
    · rw [kind]
      decide

/-- All attributes that have a value are assigned, one after the other. -/
theorem readAttributes_take {attributes : List StagedAttribute} {s : Builder × Tree × List String}
    (live : id ∈ s.2.1.ids) (nd : s.2.1.ids.Nodup) : let s' := attributes.foldl (readAttribute id) s
    s'.2.1.entries = s.2.1.entries.map
        (fun x => if x.id = id then x.assignAll (attributes.filterMap (·.pair?)) else x) ∧
      s'.2.1.issued = s.2.1.issued ∧ refusals s'.1.diagnostics = refusals s.1.diagnostics := by
  induction attributes generalizing s with
  | nil => exact ⟨(Entry.map_assignAll_nil id s.2.1.entries).symm, rfl, rfl⟩
  | cons a attributes ih =>
    obtain ⟨entries, issued, said⟩ := readAttribute_takes live nd a
    have ids : (readAttribute id s a).2.1.ids = s.2.1.ids :=
      Tree.ids_of_altered (fun x => (x.assignAll_fixed _).1) entries
    obtain ⟨entries', issued', said'⟩ := ih (ids ▸ live) (ids ▸ nd)
    refine ⟨?_, issued'.trans issued, said'.trans said⟩
    rw [List.foldl_cons, entries', entries, List.map_map]
    refine List.map_congr_left fun x _ => ?_
    rw [Function.comp_apply]
    by_cases here : x.id = id
    · have fixed := (x.assignAll_fixed a.pair?.toList).1
      rw [if_pos here, if_pos here, if_pos (fixed.trans here), List.filterMap_cons]
      cases a.pair? <;> rfl
    · rw [if_neg here, if_neg here, if_neg here]

/-- An element that is not refused is one entry more. -/
theorem finalize_placed {e : StagedElement} (selfClosing : Bool) {t1 : Tree} {x : Entry} {l r : List Entry}
    (accepted : b.refusal e = none)
    (added : t.addParsed (.ofTag e.tag) e.tag (b.stack.head?.bind (·.node)) = .ok (t1, x.id))
    (old : t.entries = l ++ r) (new : t1.entries = l ++ x :: r) (nd : t.ids.Nodup) (unseen : x.id ∉ t.ids) :
    let s := b.finalize t e selfClosing
    s.2.entries = l ++ x.assignAll e.pairs :: r ∧ s.2.issued = t1.issued ∧
      s.1.silent = ({ b with sawRoot := true }.push ⟨some x.id, e.tag, e.span⟩ selfClosing).silent ∧
      refusals s.1.diagnostics = refusals b.diagnostics := by
  obtain ⟨live, distinct, -, alter⟩ := Tree.alter_new old new nd unseen
  have spanned : (t1.setSpan x.id (some e.span)).ids = t1.ids := by
    rw [Tree.ids_eq_entries, Tree.entries_setSpan, ← Tree.ids_eq_entries]
  rw [finalize_added accepted added, placing, foldl_report]
  dsimp only
  generalize placed : checkPlacement (.ofTag e.tag) e.tag (b.parentKind t) = issues
  generalize start : (({ b with
      sawRoot := true
      diagnostics := b.diagnostics ++ issues.map fun i => .report i.kind e.span (some i.detail) } : Builder),
    t1.setSpan x.id (some e.span), ([] : List String)) = s
  have tree : s.2.1 = t1.setSpan x.id (some e.span) := start ▸ rfl
  obtain ⟨entries, issued, said⟩ := @readAttributes_take x.id e.attributes s
    (tree ▸ spanned ▸ live) (tree ▸ spanned ▸ distinct)
  refine ⟨?_, ?_, ?_, ?_⟩
  · rw [entries, tree, Tree.entries_setSpan]
    exact alter _
  · rw [issued, tree]
    rfl
  · rw [silent_push, silent_readAttributes, silent_push, ← start]
    rfl
  · rw [diagnostics_push, said, ← start]
    refine refusals_append fun d hd => ?_
    obtain ⟨i, hi, rfl⟩ := List.mem_map.mp hd
    rcases kind_of_checkPlacement i (placed ▸ hi) with ⟨unknown, -⟩ | misplaced
    · rw [show (Diagnostic.report i.kind e.span (some i.detail)).kind = i.kind from rfl, unknown]
      decide
    · rw [show (Diagnostic.report i.kind e.span (some i.detail)).kind = i.kind from rfl, misplaced]
      decide

/-- A value that no attribute waits for is only reported. -/
theorem readValue_cases {e : StagedElement} (staged : b.staged = some e) (span : Text.Range) (raw : String) :
    b.readValue span raw = { b with staged := some (e.takeValue raw) } ∨ e.takeValue raw = e ∧
      b.readValue span raw = b.report .syntaxError span "value without an attribute name" := by
  unfold readValue StagedElement.takeValue
  rw [staged]
  dsimp only
  cases e.attributes.getLast? with
  | none => exact .inr ⟨rfl, rfl⟩
  | some a =>
    obtain ⟨name, nameSpan, value⟩ := a
    cases value with
    | none => exact .inl rfl
    | some value => exact .inr ⟨rfl, rfl⟩

/-- The tag that is read is the same. -/
def SameTag (b b' : Builder) : Prop :=
  b'.phase = b.phase ∧ b'.tagOpen = b.tagOpen ∧ b'.staged = b.staged

/-- What a builder is after an element, but for its reports. -/
theorem kept_of_pushed {b' : Builder} {root selfClosing : Bool} {o : OpenElement}
    (silent : b'.silent = ({ b with sawRoot := root }.push o selfClosing).silent) :
    b'.limit = b.limit ∧ b'.sawRoot = root ∧
      b'.stack = (if selfClosing then b.stack else o :: b.stack) ∧ b.SameTag b' := by
  have kept : b'.silent.limit = b.limit ∧ b'.silent.sawRoot = root ∧
      b'.silent.stack = (if selfClosing then b.stack else o :: b.stack) ∧ b.SameTag b'.silent := by
    rw [silent]
    cases selfClosing <;> exact ⟨rfl, rfl, rfl, rfl, rfl, rfl⟩
  exact kept

end Builder

end QueryMarkup
