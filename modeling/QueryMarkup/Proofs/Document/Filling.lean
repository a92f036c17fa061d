import Mathlib.Data.List.Induction
import QueryMarkup.Proofs.Document.Reports
import QueryMarkup.Proofs.Markup.Items
import QueryMarkup.Proofs.Text.Reference
import QueryMarkup.Proofs.Tree.Entries
import QueryMarkup.Proofs.Tree.Sound

/-!
# New elements, their attributes and their texts

What reading a start tag does to the entries of a tree: one new entry, and then one
assignment for each attribute with a value. A text is put behind what an entry holds. The
builder only reports meanwhile.
-/
namespace QueryMarkup

namespace Entry

/-- An entry after assignments, the earliest first. -/
def assignAll (pairs : List (String × String)) (e : Entry) : Entry :=
  pairs.foldl (fun e p => e.assign p.1 p.2) e

/-- The value that was assigned last to a name. -/
def lastValue? (pairs : List (String × String)) (name : String) : Option String :=
  ((pairs.filter fun p => p.1 == name).getLast?).map (·.2)

/-- An entry with one more text. -/
def addText (text : String) (e : Entry) : Entry :=
  e.assign contentName
    (if (e.value contentName).isEmpty then text else e.value contentName ++ " " ++ text)

@[simp] theorem id_assign (name value : String) (e : Entry) : (e.assign name value).id = e.id := rfl

theorem Has.assignAll {e : Entry} {names : List String} (h : e.Has names)
    (pairs : List (String × String)) : (e.assignAll pairs).Has (names ++ pairs.map (·.1)) := by
  induction pairs generalizing e names with
  | nil => simpa [Entry.assignAll] using h
  | cons p pairs ih =>
    have := ih (h.assign p.1 p.2)
    rwa [List.append_assoc] at this

theorem lastValue?_append (pairs : List (String × String)) (p : String × String) (name : String) :
    lastValue? (pairs ++ [p]) name = if p.1 = name then some p.2 else lastValue? pairs name := by
  by_cases h : p.1 = name <;> simp [lastValue?, h]

theorem value_assignAll (pairs : List (String × String)) (e : Entry) (name : String) :
    (e.assignAll pairs).value name = (lastValue? pairs name).getD (e.value name) := by
  induction pairs using List.reverseRecOn with
  | nil => rfl
  | append_singleton pairs p ih =>
    have step : e.assignAll (pairs ++ [p]) = (e.assignAll pairs).assign p.1 p.2 := by
      simp [assignAll]
    rw [step, lastValue?_append, Entry.assign]
    dsimp only
    by_cases h : name = p.1
    · rw [if_pos h, if_pos h.symm]
      rfl
    · rw [if_neg h, if_neg (Ne.symm h), ih]

theorem lastValue?_of_not_mem {pairs : List (String × String)} {name : String}
    (h : name ∉ pairs.map (·.1)) : lastValue? pairs name = none := by
  have none : pairs.filter (fun p => p.1 == name) = [] := by
    apply List.filter_eq_nil_iff.mpr
    intro p hp named
    exact h (List.mem_map.mpr ⟨p, hp, eq_of_beq named⟩)
  rw [lastValue?, none]
  rfl

theorem assignAll_fixed (pairs : List (String × String)) (e : Entry) :
    (e.assignAll pairs).id = e.id ∧ (e.assignAll pairs).kind = e.kind ∧
      (e.assignAll pairs).tag = e.tag ∧ (e.assignAll pairs).level = e.level ∧
      (e.assignAll pairs).parent = e.parent := by
  induction pairs generalizing e with
  | nil => exact ⟨rfl, rfl, rfl, rfl, rfl⟩
  | cons p pairs ih => exact ih (e.assign p.1 p.2)

end Entry

/-- A name is reported where the kind does not declare it. -/
theorem Attribute.mem_nameIssues {kind : Kind} {name : String} {issue : StructuralIssue} :
    issue ∈ nameIssues kind name ↔
      kind.attribute? name = none ∧ issue = ⟨.unknownAttribute, name⟩ := by
  unfold nameIssues
  cases kind.attribute? name <;> simp

/-! ## A new entry -/

namespace Tree

variable {t t' : Tree}

theorem addParsed_root (kind : Kind) (tag : String) (parent : Option NodeId) (empty : t.nodes = []) :
    ∃ t', t.addParsed kind tag parent = .ok (t', ⟨t.issued⟩) ∧
      t'.entries = [⟨⟨t.issued⟩, kind, tag, 0, none, [], fun _ => ""⟩] ∧ t'.issued = t.issued + 1 := by
  have planted : Keeps Node.entry { t with nodes := [t.fresh kind tag none], issued := t.issued + 1 }
      (t.plantRoot kind tag) := (wire_keeps _ _).entry
  refine ⟨(t.plantRoot kind tag).touch, ?_, planted.nodes, planted.issued⟩
  have none : t.isEmpty = true := by simp [isEmpty, empty]
  simp [addParsed, none]

/-- A node goes behind its parent and the nodes that it passes there. -/
theorem addParsed_child (kind : Kind) (tag : String) {before after : List Node} {above : Node}
    (split : t.nodes = before ++ above :: after) (nd : t.ids.Nodup) :
    ∃ t', t.addParsed kind tag (some above.id) = .ok (t', ⟨t.issued⟩) ∧
      t'.entries =
        (before ++ above :: after.takeWhile (passes (above.level + 1) kind.rank)).map Node.entry ++
          ⟨⟨t.issued⟩, kind, tag, above.level + 1, some above.id, [], fun _ => ""⟩ ::
            (after.dropWhile (passes (above.level + 1) kind.rank)).map Node.entry ∧
      t'.issued = t.issued + 1 := by
  have first : ∀ m ∈ before, m.id ≠ above.id := by
    rw [ids, split, List.map_append, List.map_cons, List.nodup_append] at nd
    exact fun m hm => nd.2.2 _ (List.mem_map_of_mem hm) _ List.mem_cons_self
  have cut : splitAt above.id t.nodes = some (before, above, after) :=
    split ▸ splitAt_append rfl first
  have live : t.isEmpty = false := by simp [isEmpty, split]
  have inserted : t.insert kind tag above.id = _ := insert_eq cut
  obtain ⟨-, kept⟩ := insert_keeps cut inserted
  refine ⟨_, ?_, kept.nodes.trans ?_, kept.issued⟩
  · rw [addParsed, live]
    exact inserted
  · rw [placed, ← List.cons_append, ← List.append_assoc, List.map_append, List.map_cons, entry_fresh]
    rfl

/-- Changes of entries that keep their names keep those of the tree. -/
theorem ids_of_altered {id : NodeId} {f : Entry → Entry} (named : ∀ x, (f x).id = x.id)
    (altered : t'.entries = t.entries.map fun x => if x.id = id then f x else x) : t'.ids = t.ids := by
  rw [ids_eq_entries, ids_eq_entries, altered, List.map_map]
  refine List.map_congr_left fun x _ => ?_
  rw [Function.comp_apply]
  split
  · exact named x
  · rfl

/-- One more entry is the only one with its name. -/
theorem alter_new {x : Entry} {l r : List Entry} (old : t.entries = l ++ r) (new : t'.entries = l ++ x :: r)
    (nd : t.ids.Nodup) (unseen : x.id ∉ t.ids) : x.id ∈ t'.ids ∧ t'.ids.Nodup ∧
      (∀ y ∈ t'.entries, y.id = x.id → y = x) ∧ ∀ f : Entry → Entry,
        t'.entries.map (fun y => if y.id = x.id then f y else y) = l ++ f x :: r := by
  rw [ids_eq_entries, old] at nd unseen
  have perm : (t'.entries.map Entry.id).Perm (x.id :: (l ++ r).map Entry.id) := by
    rw [new]
    exact (List.perm_middle).map Entry.id
  have distinct : (t'.entries.map Entry.id).Nodup := perm.nodup_iff.mpr (List.nodup_cons.mpr ⟨unseen, nd⟩)
  refine ⟨?_, ids_eq_entries t' ▸ distinct, fun y hy same => ?_, fun f => ?_⟩
  · rw [ids_eq_entries]
    exact perm.mem_iff.mpr List.mem_cons_self
  · exact List.inj_on_of_nodup_map distinct hy (new ▸ by simp) same
  · have others : ∀ ys ⊆ l ++ r, ys.map (fun y => if y.id = x.id then f y else y) = ys := by
      intro ys sub
      refine (List.map_congr_left fun y hy => if_neg ?_).trans (List.map_id ys)
      intro same
      exact unseen (same ▸ List.mem_map_of_mem (sub hy))
    rw [new, List.map_append, List.map_cons, others l (List.subset_append_left l r),
      others r (List.subset_append_right l r), if_pos rfl]

theorem entries_setSpan (t : Tree) (id : NodeId) (span : Option Text.Range) :
    (t.setSpan id span).entries = t.entries := by
  have kept : Keeps Node.entry t (t.setSpan id span) :=
    keeps_alter t id (fun n => { n with span }) fun _ => rfl
  exact kept.nodes

theorem entries_setAttributeSpan (t : Tree) (id : NodeId) (name : String)
    (span : Option Text.Range) : (t.setAttributeSpan id name span).entries = t.entries := by
  suffices kept : Keeps Node.entry t (t.setAttributeSpan id name span) from kept.nodes
  refine keeps_alter t id _ fun n => ?_
  have attributes : (n.alterAttribute name fun a => { a with span }).attributes.map Attribute.base =
      n.attributes.map Attribute.base := by
    rw [Node.alterAttribute, List.map_map]
    refine List.map_congr_left fun a _ => ?_
    rw [Function.comp_apply]
    split <;> rfl
  simp only [Node.entry, FullEntry.entry, Node.fullEntry, attributes]
  rfl

/-- All that is said about a stored attribute is that its name is not declared. -/
theorem insertParsed_issues {id : NodeId} {name value : String} {issues : List StructuralIssue}
    (e : t.insertParsed id name value = .ok (t', issues)) : ∀ i ∈ issues,
      i.kind = .unknownAttribute ∧ ∃ e ∈ t.entries, e.id = id ∧ e.kind.attribute? name = none := by
  obtain ⟨n, found, ⟨-, -, rfl⟩ | ⟨-, -, rfl⟩⟩ := insertParsed_eq_ok e
  · simp
  · intro i hi
    obtain ⟨hm, id⟩ := node?_eq_some found
    obtain ⟨undeclared, rfl⟩ := Attribute.mem_nameIssues.mp hi
    exact ⟨rfl, n.entry, List.mem_map_of_mem hm, id, undeclared⟩

theorem insertParsed_ok {id : NodeId} (live : id ∈ t.ids) (name value : String) :
    ∃ t' issues, t.insertParsed id name value = .ok (t', issues) ∧
      ∀ i ∈ issues, i.kind = .unknownAttribute ∧
        ∃ e ∈ t.entries, e.id = id ∧ e.kind.attribute? name = none := by
  obtain ⟨t', issues, e⟩ := exists_insertParsed live name value
  exact ⟨t', issues, e, insertParsed_issues e⟩

end Tree

/-! ## The attributes of a start tag -/

namespace Builder

/-- A builder without its reports. -/
def silent (b : Builder) : Builder := { b with diagnostics := [] }

variable {id : NodeId} {b : Builder} {t : Tree}

/-- An attribute with a value is assigned. -/
theorem readAttribute_value (live : id ∈ t.ids) (nd : t.ids.Nodup) (seen : List String) (name : String)
    (span : Text.Range) (value : String) :
    ∃ b' t', readAttribute id (b, t, seen) ⟨name, span, some value⟩ = (b', t', name :: seen) ∧
      t'.entries = t.entries.map (fun e => if e.id = id then e.assign name value else e) ∧
      t'.issued = t.issued ∧ b'.silent = b.silent ∧
      ∃ ds, b'.diagnostics = b.diagnostics ++ ds ∧ ∀ d ∈ ds,
        (d.kind = .unknownAttribute ∧
          ∃ e ∈ t.entries, e.id = id ∧ e.kind.attribute? name = none) ∨
        d.kind = .duplicateAttribute ∧ name ∈ seen := by
  obtain ⟨t', issues, e, known⟩ := Tree.insertParsed_ok live name value
  obtain ⟨entries, issued⟩ := Tree.entries_insertParsed nd e
  have kinds : ∀ d ∈ issues.map fun i => Diagnostic.report i.kind span (some i.detail),
      d.kind = .unknownAttribute ∧
        ∃ e ∈ t.entries, e.id = id ∧ e.kind.attribute? name = none := by
    intro d hd
    obtain ⟨i, hi, rfl⟩ := List.mem_map.mp hd
    exact known i hi
  rw [readAttribute_stored e, foldl_report]
  refine ⟨_, _, rfl, ?_, issued, ?_, ?_⟩
  · rw [Tree.entries_setAttributeSpan]
    exact entries
  · unfold named
    split <;> rfl
  · unfold named
    split
    · rename_i dup
      refine ⟨.report .duplicateAttribute span name :: _, List.append_assoc _ _ _, ?_⟩
      refine List.forall_mem_cons.mpr ⟨.inr ⟨rfl, by simpa using dup⟩, ?_⟩
      exact fun d hd => .inl (kinds d hd)
    · exact ⟨_, rfl, fun d hd => .inl (kinds d hd)⟩

/-- A missing value is reported. -/
theorem readAttribute_missing (s : Builder × Tree × List String) (name : String) (span : Text.Range) :
    ¬ (readAttribute id s ⟨name, span, none⟩).1.Clean :=
  not_clean_report (by decide)

/-- Names and values of staged attributes that all have a value. -/
def pairsOf (attributes : List StagedAttribute) : List (String × String) :=
  attributes.map fun a => (a.name, a.value.getD "")

theorem value_of_clean {attributes : List StagedAttribute} {s : Builder × Tree × List String}
    (clean : (attributes.foldl (readAttribute id) s).1.Clean) :
    ∀ a ∈ attributes, a.value.isSome = true := by
  induction attributes generalizing s with
  | nil => simp
  | cons a attributes ih =>
    refine List.forall_mem_cons.mpr ⟨?_, ih clean⟩
    obtain ⟨name, span, value⟩ := a
    cases value with
    | some value => rfl
    | none =>
      exact absurd (clean.of_grows (grows_readAttributes id _ attributes))
        (readAttribute_missing s name span)

theorem seen_readAttribute (s : Builder × Tree × List String) (a : StagedAttribute) :
    (readAttribute id s a).2.2 = a.name :: s.2.2 := by
  cases readAttribute_outcome id s.1 s.2.1 s.2.2 a with
  | missing _ read => exact congrArg (·.2.2) read
  | lost _ _ read => exact congrArg (·.2.2) read
  | stored _ _ read => exact congrArg (·.2.2) read

theorem readAttribute_twice {s : Builder × Tree × List String} {a : StagedAttribute}
    (h : a.name ∈ s.2.2) :
    ∃ d ∈ (readAttribute id s a).1.diagnostics, d.kind = .duplicateAttribute := by
  have first : s.1.named s.2.2 a = s.1.report .duplicateAttribute a.span a.name :=
    if_pos (by simpa using h)
  have reported : (s.1.named s.2.2 a).Grows (readAttribute id s a).1 := by
    cases readAttribute_outcome id s.1 s.2.1 s.2.2 a with
    | missing _ read => exact read ▸ grows_report _ _ _ _
    | lost _ _ read => exact read ▸ .refl _
    | stored _ _ read => exact read ▸ grows_foldl (fun b i => grows_report b _ _ _) _ _
  rw [first] at reported
  exact ⟨_, reported (List.mem_append_right _ List.mem_cons_self), rfl⟩

/-- A name that is seen a second time is reported. -/
theorem readAttributes_twice (attributes : List StagedAttribute) (s : Builder × Tree × List String) :
    ((attributes.map (·.name)).Nodup ∧ ∀ name ∈ attributes.map (·.name), name ∉ s.2.2) ∨
      ∃ d ∈ (attributes.foldl (readAttribute id) s).1.diagnostics, d.kind = .duplicateAttribute := by
  induction attributes generalizing s with
  | nil => exact .inl ⟨List.nodup_nil, by simp⟩
  | cons a attributes ih =>
    rcases ih (readAttribute id s a) with ⟨distinct, new⟩ | twice
    · simp only [seen_readAttribute, List.mem_cons, not_or] at new
      by_cases seen : a.name ∈ s.2.2
      · obtain ⟨d, hd, kind⟩ := @readAttribute_twice id _ _ seen
        exact .inr ⟨d, grows_readAttributes id _ attributes hd, kind⟩
      · exact .inl ⟨List.nodup_cons.mpr ⟨fun hm => (new _ hm).1 rfl, distinct⟩,
          List.forall_mem_cons.mpr ⟨seen, fun name hm => (new name hm).2⟩⟩
    · exact .inr twice

/-- Attributes with values are assigned one after the other. -/
theorem readAttributes_values {attributes : List StagedAttribute} (live : id ∈ t.ids)
    (nd : t.ids.Nodup) (seen : List String) (values : ∀ a ∈ attributes, a.value.isSome = true) :
    ∃ b' t' seen', attributes.foldl (readAttribute id) (b, t, seen) = (b', t', seen') ∧
      t'.entries = t.entries.map (fun e =>
        if e.id = id then e.assignAll (pairsOf attributes) else e) ∧
      t'.issued = t.issued ∧ b'.silent = b.silent ∧
      ∃ ds, b'.diagnostics = b.diagnostics ++ ds ∧ ∀ d ∈ ds,
        (d.kind = .unknownAttribute ∧ ∃ a ∈ attributes,
          ∃ e ∈ t.entries, e.id = id ∧ e.kind.attribute? a.name = none) ∨
        d.kind = .duplicateAttribute ∧ ¬ (seen.reverse ++ attributes.map (·.name)).Nodup := by
  induction attributes generalizing b t seen with
  | nil =>
    refine ⟨b, t, seen, rfl, ?_, rfl, rfl, [], by simp, by simp⟩
    simp [pairsOf, Entry.assignAll]
  | cons a attributes ih =>
    obtain ⟨here, later⟩ := List.forall_mem_cons.mp values
    obtain ⟨name, span, value⟩ := a
    obtain ⟨value, rfl⟩ := Option.isSome_iff_exists.mp here
    obtain ⟨b1, t1, read, entries1, issued1, silent1, ds1, reports1, kinds1⟩ :=
      readAttribute_value (b := b) live nd seen name span value
    have ids : t1.ids = t.ids := Tree.ids_of_altered (f := Entry.assign name value) (fun _ => rfl) entries1
    obtain ⟨b2, t2, seen2, reads, entries2, issued2, silent2, ds2, reports2, kinds2⟩ :=
      ih (b := b1) (ids ▸ live) (ids ▸ nd) (name :: seen) later
    refine ⟨b2, t2, seen2, ?_, ?_, issued2.trans issued1, silent2.trans silent1, ds1 ++ ds2, ?_, ?_⟩
    · rw [List.foldl_cons, read, reads]
    · rw [entries2, entries1, List.map_map]
      refine List.map_congr_left fun e _ => ?_
      by_cases h : e.id = id
      · simp [h, pairsOf, Entry.assignAll]
      · simp [h]
    · rw [reports2, reports1, List.append_assoc]
    · intro d hd
      rcases List.mem_append.mp hd with hd | hd
      · rcases kinds1 d hd with ⟨h, undeclared⟩ | ⟨h, dup⟩
        · exact .inl ⟨h, _, List.mem_cons_self, undeclared⟩
        · refine .inr ⟨h, fun nd => ?_⟩
          exact (List.nodup_append.mp nd).2.2 name (List.mem_reverse.mpr dup) name
            List.mem_cons_self rfl
      · rcases kinds2 d hd with ⟨h, a, ha, e, he, hid, undeclared⟩ | ⟨h, dup⟩
        · obtain ⟨x, hx, rfl⟩ := List.mem_map.mp (entries1 ▸ he)
          refine .inl ⟨h, a, List.mem_cons_of_mem _ ha, x, hx, ?_⟩
          by_cases here : x.id = id
          · rw [if_pos here] at undeclared
            exact ⟨here, undeclared⟩
          · rw [if_neg here] at hid
            exact absurd hid here
        · refine .inr ⟨h, fun nd => dup ?_⟩
          simpa using nd

/-! ## Open elements -/

section
variable {stack : List Nat} {k : Nat} {tag : String} {span : Text.Range} {selfClosing : Bool}

/-- The innermost open element is the first. -/
theorem top_of_opened (opened : b.stack.map (·.node) = (k :: stack).map fun k => some ⟨k⟩) :
    ∃ o rest, b.stack = o :: rest ∧ o.node = some ⟨k⟩ ∧
      rest.map (·.node) = stack.map fun k => some ⟨k⟩ := by
  rw [List.map_cons] at opened
  exact List.map_eq_cons_iff.mp opened

theorem parent_of_opened (opened : b.stack.map (·.node) = stack.map fun k => some ⟨k⟩) :
    b.stack.head?.bind (·.node) = stack.head?.map NodeId.mk := by
  cases stack with
  | nil =>
    rw [List.map_eq_nil_iff.mp opened]
    rfl
  | cons k stack =>
    obtain ⟨o, rest, top, node, -⟩ := top_of_opened opened
    rw [top]
    exact node

/-- What cannot be placed is reported: too many elements are open, or there is a root. -/
theorem refusal_cases (opened : b.stack.map (·.node) = stack.map fun k => some ⟨k⟩)
    (e : StagedElement) :
    b.refusal e = none ∧ (stack = [] → b.sawRoot = false) ∨
      ∃ kind detail, b.refusal e = some (some (kind, detail)) ∧ kind ∈ obscuring ∧
        (b.limit ≤ stack.length ∨ stack = [] ∧ b.sawRoot = true) := by
  have length := congrArg List.length opened
  rw [List.length_map, List.length_map] at length
  have empty : b.stack.isEmpty = true ↔ stack = [] := by
    rw [List.isEmpty_iff, ← List.length_eq_zero_iff, length, List.length_eq_zero_iff]
  unfold refusal
  split
  · -- a skipped element is not among the open ones
    rename_i top
    rw [top] at opened
    cases stack with
    | nil => cases opened
    | cons k stack => cases (List.cons.inj opened).1
  · split
    · rename_i deep
      right
      exact ⟨_, _, rfl, by decide, .inl (length ▸ deep)⟩
    · split
      · rename_i second
        rw [Bool.and_eq_true, empty] at second
        right
        exact ⟨_, _, rfl, by decide, .inr second⟩
      · rename_i first
        rw [Bool.and_eq_true, empty] at first
        left
        refine ⟨rfl, fun none => ?_⟩
        simpa [none] using first

theorem diagnostics_push (b : Builder) (element : OpenElement) (selfClosing : Bool) :
    (b.push element selfClosing).diagnostics = b.diagnostics := by
  unfold push
  split <;> rfl

/-- Leaving an element open is not a report. -/
theorem silent_push (b : Builder) (element : OpenElement) (selfClosing : Bool) :
    (b.push element selfClosing).silent = b.silent.push element selfClosing := by
  unfold push
  split <;> rfl

/-- What a new element leaves of the builder: it is open unless it closed itself. -/
theorem opened_of_silent {b' : Builder}
    (opened : b.stack.map (·.node) = stack.map fun k => some ⟨k⟩)
    (silent : b'.silent =
      ({ b with sawRoot := true }.push ⟨some ⟨k⟩, tag, span⟩ selfClosing).silent) :
    b'.limit = b.limit ∧ b'.staged = b.staged ∧ b'.sawRoot = true ∧
      b'.stack.map (·.node) =
        (if selfClosing then stack else k :: stack).map fun k => some ⟨k⟩ := by
  have kept : b'.silent.limit = b.limit ∧ b'.silent.staged = b.staged ∧
      b'.silent.sawRoot = true ∧ b'.silent.stack.map (·.node) =
        (if selfClosing then stack else k :: stack).map fun k => some ⟨k⟩ := by
    rw [silent, push]
    cases selfClosing with
    | true => exact ⟨rfl, rfl, rfl, opened⟩
    | false => exact ⟨rfl, rfl, rfl, congrArg (_ :: ·) opened⟩
  exact kept

end

/-! ## A start tag becomes an element -/

/-- What can be wrong with the tag or the place of an element. -/
theorem kind_of_checkPlacement {kind : Kind} {tag : String} {parent : Option Kind} :
    ∀ i ∈ checkPlacement kind tag parent,
      i.kind = .unknownTag ∧ kind = .unknown ∨ i.kind = .invalidParent := by
  intro i hi
  unfold checkPlacement at hi
  split at hi
  · rename_i unknown
    cases List.mem_singleton.mp hi
    exact .inl ⟨rfl, unknown⟩
  · split at hi
    · cases hi
    · right
      split at hi <;> cases List.mem_singleton.mp hi <;> rfl

/-- Findings of this kind are reported about the tag or the place of an element. -/
def Misplaced (b : Builder) (t : Tree) (e : StagedElement) (kind : DiagnosticKind) : Prop :=
  kind ∈ (checkPlacement (.ofTag e.tag) e.tag (b.parentKind t)).map (·.kind)

/-- An element that is not refused is added, filled and left open if it has to be. -/
theorem finalize_accepted {e : StagedElement} (selfClosing : Bool) {t1 : Tree}
    (accepted : b.refusal e = none) (values : ∀ a ∈ e.attributes, a.value.isSome = true)
    (added : t.addParsed (.ofTag e.tag) e.tag (b.stack.head?.bind (·.node)) = .ok (t1, id))
    (live : id ∈ t1.ids) (nd : t1.ids.Nodup) :
    ∃ b' t', b.finalize t e selfClosing = (b', t') ∧
      t'.entries = t1.entries.map (fun x =>
        if x.id = id then x.assignAll (pairsOf e.attributes) else x) ∧
      t'.issued = t1.issued ∧
      b'.silent = ({ b with sawRoot := true }.push ⟨some id, e.tag, e.span⟩ selfClosing).silent ∧
      ∃ ds, b'.diagnostics = b.diagnostics ++ ds ∧ ∀ d ∈ ds,
        b.Misplaced t e d.kind ∨
          (d.kind = .unknownAttribute ∧ ∃ a ∈ e.attributes,
            ∃ x ∈ t1.entries, x.id = id ∧ x.kind.attribute? a.name = none) ∨
          d.kind = .duplicateAttribute ∧ ¬ (e.attributes.map (·.name)).Nodup := by
  have spanned : (t1.setSpan id (some e.span)).ids = t1.ids := by
    rw [Tree.ids_eq_entries, Tree.entries_setSpan, ← Tree.ids_eq_entries]
  generalize hi : checkPlacement (.ofTag e.tag) e.tag (b.parentKind t) = issues
  obtain ⟨b2, t2, seen, reads, entries, issued, silent, ds, reports, kinds⟩ :=
    readAttributes_values (b := { b with
      sawRoot := true
      diagnostics := b.diagnostics ++ issues.map fun i => .report i.kind e.span (some i.detail) })
      (spanned ▸ live) (spanned ▸ nd) [] values
  refine ⟨b2.push ⟨some id, e.tag, e.span⟩ selfClosing, t2, ?_, ?_, issued, ?_,
    (issues.map fun i => .report i.kind e.span (some i.detail)) ++ ds, ?_, ?_⟩
  · rw [finalize_added accepted added, placing, foldl_report, hi]
    dsimp only
    rw [reads]
  · rw [entries, Tree.entries_setSpan]
  · rw [silent_push, silent, silent_push]
    rfl
  · rw [diagnostics_push, reports, List.append_assoc]
  · intro d hd
    rcases List.mem_append.mp hd with hd | hd
    · obtain ⟨i, hm, rfl⟩ := List.mem_map.mp hd
      exact .inl (List.mem_map.mpr ⟨i, hi ▸ hm, rfl⟩)
    · rcases kinds d hd with ⟨h, a, ha, x, hx, undeclared⟩ | ⟨h, dup⟩
      · rw [Tree.entries_setSpan] at hx
        exact .inr (.inl ⟨h, a, ha, x, hx, undeclared⟩)
      · exact .inr (.inr ⟨h, by simpa using dup⟩)

/-- A new element has the one new entry, where the tree puts it, with its attributes. -/
theorem finalize_entries {e : StagedElement} (selfClosing : Bool) {t1 : Tree} {x : Entry}
    {l r : List Entry} (accepted : b.refusal e = none)
    (values : ∀ a ∈ e.attributes, a.value.isSome = true)
    (added : t.addParsed (.ofTag e.tag) e.tag (b.stack.head?.bind (·.node)) = .ok (t1, x.id))
    (old : t.entries = l ++ r) (new : t1.entries = l ++ x :: r) (nd : t.ids.Nodup)
    (unseen : x.id ∉ t.ids) :
    ∃ b' t', b.finalize t e selfClosing = (b', t') ∧
      t'.entries = l ++ x.assignAll (pairsOf e.attributes) :: r ∧
      t'.issued = t1.issued ∧
      b'.silent = ({ b with sawRoot := true }.push ⟨some x.id, e.tag, e.span⟩ selfClosing).silent ∧
      ∃ ds, b'.diagnostics = b.diagnostics ++ ds ∧ ∀ d ∈ ds,
        b.Misplaced t e d.kind ∨
          (d.kind = .unknownAttribute ∧ ∃ a ∈ e.attributes, x.kind.attribute? a.name = none) ∨
          d.kind = .duplicateAttribute ∧ ¬ (e.attributes.map (·.name)).Nodup := by
  obtain ⟨live, distinct, only, alter⟩ := Tree.alter_new old new nd unseen
  obtain ⟨b', t', final, entries, issued, silent, ds, reports, kinds⟩ :=
    finalize_accepted selfClosing accepted values added live distinct
  refine ⟨b', t', final, entries.trans (alter _), issued, silent, ds, reports, fun d hd => ?_⟩
  rcases kinds d hd with misplaced | ⟨kind, a, ha, y, hy, hid, undeclared⟩ | twice
  · exact .inl misplaced
  · exact .inr (.inl ⟨kind, a, ha, only y hy hid ▸ undeclared⟩)
  · exact .inr (.inr twice)

/-! ## A text becomes content -/

section
variable {chars : List Char}

/-- A text changes nothing where the innermost open element may not hold it. -/
theorem readText_refused (nd : t.ids.Nodup) (refused : ∀ o ∈ b.stack.head?,
      ∃ n ∈ t.nodes, o.node = some n.id ∧ n.kind.acceptsContent = false)
    (shown : Text.isAllBlank chars = false) (span : Text.Range) :
    ∃ b', b.readText t span chars = (b', t) ∧ b'.silent = b.silent := by
  unfold readText
  simp only [Text.isEmpty_trim shown, Bool.false_eq_true, ↓reduceIte]
  cases top : b.stack.head? with
  | none => exact ⟨_, rfl, rfl⟩
  | some o =>
    obtain ⟨n, hn, node, declines⟩ := refused o top
    obtain ⟨_, tag, place⟩ := o
    obtain rfl : _ = some n.id := node
    simp only [Tree.node?_of_mem nd hn, declines, Bool.false_eq_true, ↓reduceIte]
    exact ⟨_, rfl, rfl⟩

/-- A text is put behind what the innermost open element holds, if that may hold text. -/
theorem readText_accepted {o : OpenElement} {n : Node} (nd : t.ids.Nodup)
    (top : b.stack.head? = some o) (node : o.node = some n.id) (hn : n ∈ t.nodes)
    (accepts : n.kind.acceptsContent = true) (shown : Text.isAllBlank chars = false)
    (span : Text.Range) :
    ∃ t', b.readText t span chars = (b, t') ∧ t'.issued = t.issued ∧
      t'.entries = t.entries.map fun e =>
        if e.id = n.id then e.addText (Markup.textOf chars) else e := by
  generalize hv : (if (n.value contentName).isEmpty then Markup.textOf chars
    else n.value contentName ++ " " ++ Markup.textOf chars) = value
  obtain ⟨t', issues, inserted, -⟩ :=
    Tree.insertParsed_ok (List.mem_map_of_mem hn) contentName value
  obtain ⟨entries, issued⟩ := Tree.entries_insertParsed nd inserted
  refine ⟨t', ?_, issued, ?_⟩
  · obtain ⟨_, tag, place⟩ := o
    obtain rfl : _ = some n.id := node
    unfold Markup.textOf at hv
    unfold readText
    simp only [Text.isEmpty_trim shown, Bool.false_eq_true, ↓reduceIte, top,
      Tree.node?_of_mem nd hn, accepts, hv, inserted]
  · rw [entries]
    apply List.map_congr_left
    intro e he
    split
    · rename_i same
      rw [Tree.entry_eq_of_id nd hn e he same]
      rw [← hv]
      rfl
    · rfl

end

end Builder

end QueryMarkup
