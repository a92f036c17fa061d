import QueryMarkup.Proofs.Document.Writable
import QueryMarkup.Proofs.Tree.Proper

/-!
# Recovery

Whatever a text says, what reading makes of it can be written: tags and names are taken from
words that the lexer found to be names, elements stand as deep as the open elements around
them, and no more elements are open than the limit allows. Where no error was reported
all elements are proper. Every token keeps this.
-/
namespace QueryMarkup

open Markup

/-! ## Entries -/

namespace Entry

variable {e : Entry} {name value : String}

/-- An assignment brings in at most the attribute of its name. -/
theorem mem_assign {a : Attribute} (h : a ∈ (e.assign name value).attributes) :
    a ∈ e.attributes ∨ a.name = name ∧ name ∉ e.attributes.map (·.name) := by
  unfold assign at h
  dsimp only at h
  split at h
  · exact .inl h
  · rename_i new
    rcases Attribute.mem_insertInto.mp h with rfl | h
    · exact .inr ⟨Kind.name_bareAttribute _ _, new⟩
    · exact .inl h

theorem Lettered.assign (h : e.Lettered) (value : String)
    (named : isName name.toList = true ∨ name = contentName ∧ e.kind.acceptsContent = true) :
    (e.assign name value).Lettered where
  tag := h.tag
  kind := h.kind
  named := by
    intro a ha
    rcases mem_assign ha with old | ⟨rfl, -⟩
    · exact h.named a old
    · exact named

theorem Proper.assign {xs : List Entry} (h : Proper xs e) (value : String)
    (known : name ∈ e.attributes.map (·.name) ∨ (e.kind.attribute? name).isSome = true) :
    Proper xs (e.assign name value) where
  placed := h.placed
  declared := by
    intro a ha
    rcases mem_assign ha with old | ⟨rfl, new⟩
    · exact h.declared a old
    · exact known.resolve_left new

/-- An entry after a value was assigned to the entry with a number. -/
def assignAt (id : NodeId) (name value : String) (e : Entry) : Entry :=
  if e.id = id then e.assign name value else e

theorem assignAt_fixed (id : NodeId) (name value : String) (e : Entry) :
    (e.assignAt id name value).id = e.id ∧ (e.assignAt id name value).kind = e.kind ∧
      (e.assignAt id name value).level = e.level := by
  unfold assignAt
  split <;> exact ⟨rfl, rfl, rfl⟩

theorem Lettered.assignAt {id : NodeId} (h : e.Lettered) (value : String) (named : e.id = id →
      isName name.toList = true ∨ name = contentName ∧ e.kind.acceptsContent = true) :
    (e.assignAt id name value).Lettered := by
  unfold Entry.assignAt
  split
  · rename_i same
    exact h.assign value (named same)
  · exact h

theorem Proper.assignAt {xs : List Entry} {id : NodeId} (h : Proper xs e) (value : String)
    (known : e.id = id →
      name ∈ e.attributes.map (·.name) ∨ (e.kind.attribute? name).isSome = true) :
    Proper (xs.map (Entry.assignAt id name value)) (e.assignAt id name value) := by
  have kept : Proper xs (e.assignAt id name value) := by
    unfold Entry.assignAt
    split
    · rename_i same
      exact h.assign value (known same)
    · exact h
  obtain ⟨around, inside, fits⟩ := kept.placed
  refine ⟨⟨around, inside.map fun x => ?_, fits⟩, kept.declared⟩
  exact ⟨(x.assignAt_fixed id name value).1, (x.assignAt_fixed id name value).2.1⟩

end Entry

/-- A name about which nothing is reported was there before or is declared. -/
theorem Tree.insertParsed_silent {t t' : Tree} {id : NodeId} {name value : String} (nd : t.ids.Nodup)
    (e : t.insertParsed id name value = .ok (t', [])) : ∀ x ∈ t.entries, x.id = id →
      name ∈ x.attributes.map (·.name) ∨ (x.kind.attribute? name).isSome = true := by
  intro x hx same
  obtain ⟨n, found, known⟩ := insertParsed_eq_ok e
  obtain ⟨hn, rfl⟩ := node?_eq_some found
  obtain rfl := entry_eq_of_id nd hn x hx same
  obtain ⟨present, -, -⟩ | ⟨-, -, silent⟩ := known
  · left
    rw [Node.names_entry]
    by_contra absent
    rw [attribute?_eq_none.mpr absent] at present
    cases present
  · right
    by_contra undeclared
    change ¬ (n.kind.attribute? name).isSome = true at undeclared
    rw [Attribute.nameIssues, if_neg undeclared] at silent
    cases silent

/-! ## What holds of a tree while it is read -/

/-- No error is among these. -/
def Faultless (ds : List Diagnostic) : Prop := ∀ d ∈ ds, d.isError = false

theorem Faultless.mono {ds ds' : List Diagnostic} (h : Faultless ds') (sub : ds ⊆ ds') :
    Faultless ds := fun d hd => h d (sub hd)

/-- The open elements stand one below the other, the outermost on the level of the root. -/
def Deepening (t : Tree) : List OpenElement → Prop
  | [] => True
  | o :: rest => (∀ id ∈ o.node, ∃ e ∈ t.entries, e.id = id ∧ e.level = rest.length) ∧
      Deepening t rest

/-- A tree while a text is read into it, with the open elements and the reports so far. -/
structure Recovered (limit : Nat) (stack : List OpenElement) (ds : List Diagnostic) (t : Tree) :
    Prop where
  sound : t.Sound
  lettered : ∀ e ∈ t.entries, e.Lettered
  levels : ∀ e ∈ t.entries, e.level < limit
  opened : Deepening t stack
  proper : Faultless ds → t.Proper

section
variable {limit : Nat} {stack : List OpenElement} {ds ds' : List Diagnostic} {t t' : Tree}

theorem Deepening.keep (h : Deepening t stack) (keeps : ∀ e ∈ t.entries,
    ∃ e' ∈ t'.entries, e'.id = e.id ∧ e'.level = e.level) : Deepening t' stack := by
  induction stack with
  | nil => trivial
  | cons o rest ih =>
    obtain ⟨here, below⟩ := h
    refine ⟨fun id hid => ?_, ih below⟩
    obtain ⟨e, he, named, level⟩ := here id hid
    obtain ⟨e', he', id', level'⟩ := keeps e he
    exact ⟨e', he', id'.trans named, level'.trans level⟩

theorem Deepening.tail (h : Deepening t stack) : Deepening t stack.tail := by
  cases stack with
  | nil => trivial
  | cons o rest => exact h.2

namespace Recovered

theorem report (h : Recovered limit stack ds t) (sub : ds ⊆ ds') : Recovered limit stack ds' t :=
  ⟨h.sound, h.lettered, h.levels, h.opened, fun faultless => h.proper (faultless.mono sub)⟩

theorem reopen (h : Recovered limit stack ds t) {stack' : List OpenElement}
    (opened : Deepening t stack') : Recovered limit stack' ds t :=
  ⟨h.sound, h.lettered, h.levels, opened, h.proper⟩

theorem raise (h : Recovered limit stack ds t) {limit' : Nat} (le : limit ≤ limit') :
    Recovered limit' stack ds t :=
  ⟨h.sound, h.lettered, fun e he => Nat.lt_of_lt_of_le (h.levels e he) le, h.opened, h.proper⟩

theorem skip (h : Recovered limit stack ds t) (tag : String) (span : Text.Range) :
    Recovered limit (⟨none, tag, span⟩ :: stack) ds t :=
  h.reopen ⟨by simp, h.opened⟩

theorem congr (h : Recovered limit stack ds t) (sound : t'.Sound) (entries : t'.entries = t.entries) :
    Recovered limit stack ds t' where
  sound := sound
  lettered := entries ▸ h.lettered
  levels := entries ▸ h.levels
  opened := h.opened.keep fun e he => ⟨e, entries ▸ he, rfl, rfl⟩
  proper := by
    intro faultless
    have proper := h.proper faultless
    rwa [Tree.Proper, ← entries] at proper

/-- A value is stored under a name that markup has, and a name that is not declared is
reported. -/
theorem assign {id : NodeId} {name value : String} {issues : List StructuralIssue}
    (h : Recovered limit stack ds t) (e : t.insertParsed id name value = .ok (t', issues))
    (named : ∀ x ∈ t.entries, x.id = id →
      isName name.toList = true ∨ name = contentName ∧ x.kind.acceptsContent = true)
    (sub : ds ⊆ ds') (said : Faultless ds' → issues = []) : Recovered limit stack ds' t' := by
  have entries : t'.entries = t.entries.map (Entry.assignAt id name value) :=
    (Tree.entries_insertParsed h.sound.nodup e).1
  refine ⟨Tree.sound_invariant.insertParsed h.sound e, ?_, ?_, ?_, ?_⟩
  · intro y hy
    rw [entries] at hy
    obtain ⟨x, hx, rfl⟩ := List.mem_map.mp hy
    exact (h.lettered x hx).assignAt value (named x hx)
  · intro y hy
    rw [entries] at hy
    obtain ⟨x, hx, rfl⟩ := List.mem_map.mp hy
    rw [(x.assignAt_fixed id name value).2.2]
    exact h.levels x hx
  · refine h.opened.keep fun x hx => ⟨_, entries ▸ List.mem_map_of_mem hx, ?_, ?_⟩
    · exact (x.assignAt_fixed id name value).1
    · exact (x.assignAt_fixed id name value).2.2
  · intro faultless y hy
    have proper := h.proper (faultless.mono sub)
    have silent := said faultless
    subst silent
    rw [entries] at hy ⊢
    obtain ⟨x, hx, rfl⟩ := List.mem_map.mp hy
    exact (proper x hx).assignAt value (Tree.insertParsed_silent h.sound.nodup e x hx)

end Recovered

/-! ## A new element -/

/-- A new element is one entry more. It stands as deep as there are open elements, and
the innermost of them is around it. -/
theorem Deepening.addParsed {kind : Kind} {tag : String} {id : NodeId} (h : Deepening t stack)
    (nd : t.ids.Nodup) (top : ∀ o ∈ stack.head?, o.node.isSome = true)
    (e : t.addParsed kind tag (stack.head?.bind (·.node)) = .ok (t', id)) :
    ∃ l r x, t.entries = l ++ r ∧ t'.entries = l ++ x :: r ∧ x.id = id ∧ x.kind = kind ∧
      x.tag = tag ∧ x.level = stack.length ∧ x.attributes = [] ∧
      x.Inside t.entries (((stack.head?.bind (·.node)).bind t.node?).map (·.kind)) := by
  cases stack with
  | nil =>
    -- only a tree without a node takes in an element that is in no other
    have empty : t.nodes = [] := by
      by_contra live
      have filled : t.isEmpty = false := by simpa [Tree.isEmpty] using live
      unfold Tree.addParsed at e
      rw [filled] at e
      cases e
    obtain ⟨t1, added, entries, -⟩ := Tree.addParsed_root kind tag none empty
    obtain ⟨rfl, rfl⟩ := Prod.mk.inj (Except.ok.inj (added.symm.trans e))
    refine ⟨[], [], _, ?_, entries, rfl, rfl, rfl, rfl, rfl, .inl ⟨rfl, rfl⟩⟩
    simp [Tree.entries, empty]
  | cons o rest =>
    obtain ⟨above, named⟩ := Option.isSome_iff_exists.mp (top o rfl)
    obtain ⟨x, hx, rfl, level⟩ := h.1 above named
    obtain ⟨n, hn, rfl⟩ := List.mem_map.mp hx
    have parent : (o :: rest).head?.bind (·.node) = some n.id := named
    rw [parent] at e ⊢
    obtain ⟨before, after, split⟩ := List.append_of_mem hn
    obtain ⟨t1, added, entries, -⟩ := Tree.addParsed_child kind tag split nd
    obtain ⟨rfl, rfl⟩ := Prod.mk.inj (Except.ok.inj (added.symm.trans e))
    refine ⟨_, (after.dropWhile (Tree.passes (n.level + 1) kind.rank)).map Node.entry, _, ?_,
      entries, rfl, rfl, rfl, ?_, rfl, .inr ⟨n.entry, hx, rfl, ?_⟩⟩
    · rw [← List.map_append, List.append_assoc, List.cons_append, List.takeWhile_append_dropWhile,
        ← split]
      rfl
    · exact congrArg (· + 1) level
    · rw [Option.bind_some, Tree.node?_of_mem nd hn]
      rfl

/-- A new element, whose tag is a name, stays within the limit, and where nothing is said about
its place it is proper. -/
theorem Recovered.add {tag : String} {id : NodeId} (h : Recovered limit stack ds t)
    (top : ∀ o ∈ stack.head?, o.node.isSome = true) (depth : stack.length < limit)
    (name : isName tag.toList = true)
    (e : t.addParsed (.ofTag tag) tag (stack.head?.bind (·.node)) = .ok (t', id)) (sub : ds ⊆ ds')
    (said : Faultless ds' → checkPlacement (.ofTag tag) tag
      (((stack.head?.bind (·.node)).bind t.node?).map (·.kind)) = []) (span : Text.Range) :
    Recovered limit (⟨some id, tag, span⟩ :: stack) ds' t' := by
  obtain ⟨l, r, x, old, new, named, kind, tag', level, bare, inside⟩ :=
    h.opened.addParsed h.sound.nodup top e
  have all : ∀ y ∈ t'.entries, y = x ∨ y ∈ t.entries := by
    intro y hy
    rw [new] at hy
    rw [old]
    simpa [or_left_comm] using hy
  have more : t.entries ⊆ t'.entries := by
    rw [old, new]
    intro y hy
    rcases List.mem_append.mp hy with hy | hy <;> simp [hy]
  refine ⟨Tree.sound_invariant.addParsed h.sound e, ?_, ?_, ⟨?_, ?_⟩, ?_⟩
  · intro y hy
    rcases all y hy with rfl | old
    · exact ⟨tag' ▸ name, by rw [tag', kind], by simp [bare]⟩
    · exact h.lettered y old
  · intro y hy
    rcases all y hy with rfl | old
    · omega
    · exact h.levels y old
  · rintro _ ⟨⟩
    exact ⟨x, new ▸ by simp, named, level⟩
  · exact h.opened.keep fun y hy => ⟨y, more hy, rfl, rfl⟩
  · intro faultless y hy
    rcases all y hy with rfl | old
    · refine ⟨⟨_, inside.mono more, ?_⟩, by simp [bare]⟩
      rw [kind, tag']
      exact said faultless
    · exact (h.proper (faultless.mono sub) y old).mono more

end

/-! ## What a token keeps -/

/-- Where nothing but errors would be said and no error is among the reports, nothing is said. -/
theorem Faultless.issues {ds : List Diagnostic} {span : Text.Range} {issues : List StructuralIssue}
    (h : Faultless (ds ++ issues.map fun i => .report i.kind span (some i.detail)))
    (errors : ∀ i ∈ issues, i.kind.severity = .error) : issues = [] := by
  refine List.eq_nil_iff_forall_not_mem.mpr fun i hi => ?_
  have mild := h (.report i.kind span (some i.detail))
    (List.mem_append_right _ (List.mem_map_of_mem hi))
  have error : (Diagnostic.report i.kind span (some i.detail)).severity = .error := errors i hi
  rw [Diagnostic.isError, error] at mild
  cases mild

/-- The tag and the names of a start tag are names. -/
structure StagedElement.Lettered (e : StagedElement) : Prop where
  tag : isName e.tag.toList = true
  named : ∀ a ∈ e.attributes, isName a.name.toList = true

/-- The words that name tags and attributes are names. -/
theorem Markup.isName_slice {source : String} {token : Token} (fits : (lexemeOf source token).Fits)
    (kind : token.kind = .tagName ∨ token.kind = .attributeName) :
    isName (Text.slice source token.span).toList = true := by
  rcases kind with kind | kind <;> rwa [lexemeOf, Lexeme.Fits, kind] at fits

/-- One more attribute, whose name is a name. -/
theorem StagedElement.Lettered.extend {e : StagedElement} (h : e.Lettered) {a : StagedAttribute}
    (named : isName a.name.toList = true) : { e with attributes := e.attributes ++ [a] }.Lettered :=
  ⟨h.tag, List.forall_mem_append.mpr ⟨h.named, List.forall_mem_singleton.mpr named⟩⟩

/-- A value for the last attribute. -/
theorem StagedElement.Lettered.takeValue {e : StagedElement} (h : e.Lettered) {a : StagedAttribute}
    (last : e.attributes.getLast? = some a) (value : Option String) :
    { e with attributes := e.attributes.dropLast ++ [{ a with value }] }.Lettered := by
  refine ⟨h.tag, List.forall_mem_append.mpr ⟨?_, List.forall_mem_singleton.mpr ?_⟩⟩
  · exact fun b hb => h.named b (List.dropLast_subset _ hb)
  · exact h.named a (List.mem_of_getLast? last)

namespace Builder

/-- What every token keeps: the tree is as it was recovered so far, and the start tag that is read
has names. -/
structure Recovering (bound : Nat) (s : Builder × Tree) : Prop where
  limit : s.1.limit = bound
  staged : ∀ e ∈ s.1.staged, e.Lettered
  tree : Recovered bound s.1.stack s.1.diagnostics s.2

section
variable {limit : Nat} {b b' : Builder} {t : Tree} {stack : List OpenElement}

theorem kept_of_silent (h : b'.silent = b.silent) :
    b'.limit = b.limit ∧ b'.staged = b.staged ∧ b'.stack = b.stack := by
  have kept : b'.silent.limit = b.silent.limit ∧ b'.silent.staged = b.silent.staged ∧
      b'.silent.stack = b.silent.stack := by rw [h]; exact ⟨rfl, rfl, rfl⟩
  exact kept

/-- An element that is not refused has room: fewer elements are open than the limit allows, and
the innermost of them is not skipped. -/
theorem room_of_refusal {e : StagedElement} (h : b.refusal e = none) :
    b.stack.length < b.limit ∧ ∀ o ∈ b.stack.head?, o.node.isSome = true := by
  unfold refusal at h
  split at h
  · cases h
  · rename_i entered
    split at h
    · cases h
    · rename_i room
      refine ⟨Nat.not_le.mp room, fun o ho => ?_⟩
      obtain ⟨rest, top⟩ := List.head?_eq_some_iff.mp ho
      obtain ⟨node, tag, span⟩ := o
      cases node with
      | none => exact absurd top (entered tag span rest)
      | some id => rfl

/-! ### Attributes -/

theorem silent_readAttribute (id : NodeId) (s : Builder × Tree × List String) (a : StagedAttribute) :
    (readAttribute id s a).1.silent = s.1.silent := by
  obtain ⟨b, t, seen⟩ := s
  have first : (b.named seen a).silent = b.silent := by
    unfold named
    split <;> rfl
  cases readAttribute_outcome id b t seen a with
  | missing _ read => exact read ▸ first
  | lost _ _ read => exact read ▸ first
  | stored _ _ read =>
    rw [read, foldl_report]
    exact first

theorem silent_readAttributes (id : NodeId) (s : Builder × Tree × List String)
    (attributes : List StagedAttribute) :
    (attributes.foldl (readAttribute id) s).1.silent = s.1.silent := by
  induction attributes generalizing s with
  | nil => rfl
  | cons a attributes ih => exact (ih _).trans (silent_readAttribute id s a)

theorem recovered_readAttribute {id : NodeId} {s : Builder × Tree × List String} {a : StagedAttribute}
    (h : Recovered limit stack s.1.diagnostics s.2.1) (named : isName a.name.toList = true) :
    Recovered limit stack (readAttribute id s a).1.diagnostics (readAttribute id s a).2.1 := by
  obtain ⟨b, t, seen⟩ := s
  have first := b.grows_named seen a
  cases readAttribute_outcome id b t seen a with
  | missing _ read => exact read ▸ h.report (first.trans (grows_report _ _ _ _))
  | lost _ _ read => exact read ▸ h.report first
  | @stored _ t1 issues _ e read =>
    rw [read, foldl_report]
    have errors : ∀ i ∈ issues, i.kind.severity = .error := by
      intro i hi
      rw [(Tree.insertParsed_issues e i hi).1]
      rfl
    have stored : Recovered limit stack ((b.named seen a).diagnostics ++ issues.map fun i =>
        .report i.kind a.span (some i.detail)) t1 :=
      h.assign e (fun _ _ _ => .inl named) (fun d hd => List.mem_append_left _ (first hd))
        fun faultless => faultless.issues errors
    exact stored.congr (Tree.sound_invariant.setAttributeSpan _ _ _ _ stored.sound)
      (Tree.entries_setAttributeSpan _ _ _ _)

theorem recovered_readAttributes {id : NodeId} {s : Builder × Tree × List String}
    {attributes : List StagedAttribute} (h : Recovered limit stack s.1.diagnostics s.2.1)
    (named : ∀ a ∈ attributes, isName a.name.toList = true) :
    Recovered limit stack (attributes.foldl (readAttribute id) s).1.diagnostics
      (attributes.foldl (readAttribute id) s).2.1 := by
  induction attributes generalizing s with
  | nil => exact h
  | cons a attributes ih =>
    obtain ⟨here, later⟩ := List.forall_mem_cons.mp named
    exact ih (recovered_readAttribute h here) later

/-! ### Start tags -/

namespace Recovering

theorem report (h : Recovering limit (b, t)) (kind : DiagnosticKind) (span : Text.Range)
    (detail : Option String) : Recovering limit (b.report kind span detail, t) :=
  ⟨h.limit, h.staged, h.tree.report (grows_report b kind span detail)⟩

theorem push {o : OpenElement} (limit' : b.limit = limit) (staged : ∀ e ∈ b.staged, e.Lettered)
    (h : Recovered limit (o :: b.stack) b.diagnostics t) (selfClosing : Bool) :
    Recovering limit (b.push o selfClosing, t) := by
  cases selfClosing with
  | false => exact ⟨limit', staged, h⟩
  | true => exact ⟨limit', staged, h.reopen h.opened.tail⟩

theorem skip (h : Recovering limit (b, t)) (tag : String) (span : Text.Range) (selfClosing : Bool) :
    Recovering limit (b.push ⟨none, tag, span⟩ selfClosing, t) :=
  push h.limit h.staged (h.tree.skip tag span) selfClosing

/-- A start tag that has ended becomes an element or is skipped. -/
theorem finalize (h : Recovering limit (b, t)) {e : StagedElement} (lettered : e.Lettered)
    (selfClosing : Bool) : Recovering limit (b.finalize t e selfClosing) := by
  generalize placed : checkPlacement (.ofTag e.tag) e.tag (b.parentKind t) = issues
  generalize reports : b.diagnostics ++ issues.map
    (fun i => Diagnostic.report i.kind e.span (some i.detail)) = ds
  have placing : b.placing t e = { b with diagnostics := ds } := by
    rw [Builder.placing, foldl_report, placed, reports]
  have sub : b.diagnostics ⊆ ds := reports ▸ List.subset_append_left _ _
  have told : Recovering limit ({ b with diagnostics := ds }, t) := ⟨h.limit, h.staged, h.tree.report sub⟩
  cases b.finalize_outcome t e selfClosing with
  | skipped _ made => exact made ▸ h.skip e.tag e.span selfClosing
  | refused _ made => exact made ▸ (h.report _ e.span _).skip e.tag e.span selfClosing
  | lost _ _ made =>
    rw [placing] at made
    exact made ▸ told.skip e.tag e.span selfClosing
  | @added t1 id accepted added made =>
    rw [made, placing]
    obtain ⟨room, entered⟩ := room_of_refusal accepted
    have said : Faultless ds → issues = [] := by
      rintro faultless
      subst reports
      refine faultless.issues fun i hi => ?_
      rcases kind_of_checkPlacement i (placed ▸ hi) with ⟨unknown, -⟩ | misplaced
      · rw [unknown]
        rfl
      · rw [misplaced]
        rfl
    have one := h.tree.add entered (h.limit ▸ room) lettered.tag added sub
      (fun faultless => placed.trans (said faultless)) e.span
    have named : Recovered limit (⟨some id, e.tag, e.span⟩ :: b.stack) ds
        (t1.setSpan id (some e.span)) :=
      one.congr (Tree.sound_invariant.setSpan _ _ _ one.sound) (Tree.entries_setSpan _ _ _)
    -- the element counts as open while its attributes are stored, so its entry stays
    have filled := @recovered_readAttributes limit (⟨some id, e.tag, e.span⟩ :: b.stack) id
      ({ b with diagnostics := ds, sawRoot := true }, t1.setSpan id (some e.span), [])
      e.attributes named lettered.named
    obtain ⟨limit', staged', stack'⟩ := kept_of_silent (silent_readAttributes id
      ({ b with diagnostics := ds, sawRoot := true }, t1.setSpan id (some e.span), []) e.attributes)
    refine push (limit'.trans h.limit) ?_ ?_ selfClosing
    · rw [staged']
      exact h.staged
    · rw [stack']
      exact filled

theorem abandon (h : Recovering limit (b, t)) : Recovering limit (b.abandon t) := by
  have closed : Recovering limit ({ b with tagOpen := none, staged := none }, t) :=
    ⟨h.limit, by simp, h.tree⟩
  cases b.abandon_outcome t with
  | element staged broken => exact broken ▸ (closed.report _ _ _).finalize (h.staged _ staged) true
  | nothing _ _ broken => exact broken ▸ closed
  | nameless _ _ _ broken => exact broken ▸ closed.report _ _ _

/-! ### The other tokens -/

theorem close (h : Recovering limit (b, t)) (stop : Text.Range) :
    Recovering limit (b.close stop, t) := by
  cases stack : b.stack with
  | nil => exact close_nil stack stop ▸ h.report _ _ _
  | cons o outer =>
    have opened := h.tree.opened
    rw [stack] at opened
    exact close_cons stack stop ▸ ⟨h.limit, h.staged, h.tree.reopen opened.2⟩

theorem past {s : Builder × Tree} (h : Recovering limit s) (selfClosing : Bool) :
    Recovering limit (s.1.past selfClosing, s.2) := ⟨h.limit, h.staged, h.tree⟩

theorem endTag (h : Recovering limit (b, t)) (span : Text.Range) (selfClosing : Bool) :
    Recovering limit (b.endTag t span selfClosing) := by
  cases b.endTag_outcome t span selfClosing with
  | close _ ended => exact ended ▸ (h.close span).past selfClosing
  | element _ staged ended =>
    have unstaged : Recovering limit ({ b with staged := none }, t) := ⟨h.limit, by simp, h.tree⟩
    exact ended ▸ (unstaged.finalize (h.staged _ staged) selfClosing).past selfClosing
  | nameless _ _ _ ended => exact ended ▸ (h.report _ _ _).past selfClosing
  | nothing _ _ _ ended => exact ended ▸ h.past selfClosing

/-- Only the start tag that is read changes. -/
theorem stage (h : Recovering limit (b, t)) {e : StagedElement} (lettered : e.Lettered) :
    Recovering limit ({ b with staged := some e }, t) := by
  refine ⟨h.limit, ?_, h.tree⟩
  rintro _ ⟨⟩
  exact lettered

theorem readValue (h : Recovering limit (b, t)) (span : Text.Range) (raw : String) :
    Recovering limit (b.readValue span raw, t) := by
  cases b.readValue_outcome span raw with
  | unstaged _ read => exact read.symm ▸ h
  | taken staged last read => exact read ▸ h.stage ((h.staged _ staged).takeValue last _)
  | stray _ read => exact read ▸ h.report _ _ _

/-- A text is stored in an element that may hold text. -/
theorem readText (h : Recovering limit (b, t)) (span : Text.Range) (text : List Char) :
    Recovering limit (b.readText t span text) := by
  cases b.readText_outcome t span text with
  | ignored read => exact read ▸ h
  | unexpected read => exact read ▸ h.report _ _ _
  | @stored _ n _ t1 issues found accepts e read =>
    rw [read]
    obtain ⟨hn, rfl⟩ := Tree.node?_eq_some found
    have only := Tree.entry_eq_of_id h.tree.sound.nodup hn
    have declared : issues = [] := by
      refine List.eq_nil_iff_forall_not_mem.mpr fun i hi => ?_
      obtain ⟨-, x, hx, same, undeclared⟩ := Tree.insertParsed_issues e i hi
      rw [only x hx same] at undeclared
      have known : (n.kind.attribute? contentName).isSome = true := accepts
      rw [show n.kind.attribute? contentName = none from undeclared] at known
      cases known
    refine ⟨h.limit, h.staged, h.tree.assign e (fun x hx same => .inr ⟨rfl, ?_⟩)
      (List.Subset.refl _) fun _ => declared⟩
    rw [only x hx same]
    exact accepts

/-- A token whose characters are as its kind says. -/
theorem feed {source : String} {token : Token} (h : Recovering limit (b, t))
    (fits : (lexemeOf source token).Fits) :
    Recovering limit (b.feed t ⟨.textToTree⟩ source token) := by
  cases b.feed_outcome t source token with
  | starts _ fed =>
    have broken := h.abandon
    exact fed ▸ ⟨broken.limit, broken.staged, broken.tree⟩
  | tagName kind _ _ fed => exact fed ▸ h.stage ⟨isName_slice fits (.inl kind), by simp⟩
  | attributeName kind staged fed =>
    exact fed ▸ h.stage ((h.staged _ staged).extend (isName_slice fits (.inr kind)))
  | attributeValue fed => exact fed ▸ h.readValue _ _
  | ends _ fed => exact fed ▸ h.endTag _ _
  | text fed => exact fed ▸ h.readText _ _
  | error _ fed => exact fed ▸ h.report _ _ _
  | passed fed => exact fed ▸ h

theorem readAll {source : String} {tokens : List Token} {s : Builder × Tree} (h : Recovering limit s)
    (fits : ∀ token ∈ tokens, (lexemeOf source token).Fits) :
    Recovering limit (Builder.readAll source s tokens) :=
  List.foldlRecOn tokens _ h fun _ kept token mem => kept.feed (fits token mem)

end Recovering

end

end Builder

end QueryMarkup
