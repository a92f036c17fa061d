import QueryMarkup.Proofs.Document.Assigned
import QueryMarkup.Proofs.Document.Chunks
import QueryMarkup.Proofs.Document.Staging

/-!
# A tree is drawn again

Reading the chunks of a tree makes its nodes one after the other: every element comes
behind all that was read before it, with the same attributes, and the stack of the builder
holds the elements whose close tags are owed.
-/
namespace QueryMarkup

open Markup

/-- The elements with these places are open: each is one level below the next, and all that
comes behind it is deeper. -/
def Held (levels : List Nat) : List Nat → Prop
  | [] => True
  | k :: stack => (∃ before after, levels = before ++ stack.length :: after ∧ before.length = k ∧
      ∀ level ∈ after, stack.length < level) ∧ Held levels stack

theorem Held.append {levels stack : List Nat} (h : Held levels stack) {level : Nat}
    (le : stack.length ≤ level) : Held (levels ++ [level]) stack := by
  induction stack with
  | nil => trivial
  | cons k stack ih =>
    obtain ⟨⟨before, after, rfl, length, deep⟩, rest⟩ := h
    rw [List.length_cons] at le
    refine ⟨⟨before, after ++ [level], by simp, length, ?_⟩, ih rest (by omega)⟩
    intro l hl
    rcases List.mem_append.mp hl with hl | hl
    · exact deep l hl
    · cases List.mem_singleton.mp hl
      omega

/-- The next element, on the level of the stack, may be opened. -/
theorem Held.push {levels stack : List Nat} (h : Held levels stack) :
    Held (levels ++ [stack.length]) (levels.length :: stack) :=
  ⟨⟨levels, [], rfl, rfl, by simp⟩, h.append (Nat.le_refl _)⟩

/-- After some elements the tree has their sketches, in the order in which they were read, and
those with the places on the stack are open. What is reported is about these elements. -/
structure Drawn (limit : Nat) (done : List Sketch) (stack : List Nat) (s : Builder × Tree) : Prop where
  limit : s.1.limit = limit
  root : done = [] → s.1.sawRoot = false
  issued : s.2.issued = done.length
  ids : s.2.ids = (List.range done.length).map NodeId.mk
  sketches : s.2.sketches = done
  opened : s.1.stack.map (·.node) = stack.map fun k => some ⟨k⟩
  held : Held (done.map (·.level)) stack
  faults : ∀ d ∈ s.1.diagnostics, Sketch.Faulty (done.map Sketch.bare) d.kind

/-- An element may come next: it fits under the open elements, and no element that would be
a sibling comes after it. -/
structure Follows (limit : Nat) (done : List Sketch) (stack : List Nat) (x : Sketch) : Prop where
  level : x.level = stack.length
  fits : x.level < limit
  first : stack = [] → done = []
  ranked : ∀ before z after, done = before ++ z :: after → (∀ y ∈ after, z.level ≤ y.level) →
    x.level = z.level → z.kind.rank ≤ x.kind.rank

section
variable {limit : Nat} {done : List Sketch} {stack : List Nat} {x : Sketch} {b : Builder} {t : Tree}

theorem Drawn.congr (h : Drawn limit done stack (b, t)) {b' : Builder} (limit' : b'.limit = b.limit)
    (root : b'.sawRoot = b.sawRoot) (opened : b'.stack = b.stack)
    (reports : b'.diagnostics = b.diagnostics) : Drawn limit done stack (b', t) where
  limit := limit'.trans h.limit
  root e := root.trans (h.root e)
  issued := h.issued
  ids := h.ids
  sketches := h.sketches
  opened := (congrArg (List.map (·.node)) opened).trans h.opened
  held := h.held
  faults := by
    have same : b'.diagnostics = b.diagnostics := reports
    rw [same]
    exact h.faults

theorem drawn_start (limit : Nat) (h : t.nodes = []) (issued : t.issued = 0) :
    Drawn limit [] [] ({ limit }, t) where
  limit := rfl
  root _ := rfl
  issued := issued
  ids := by simp [Tree.ids, h]
  sketches := by simp [Tree.sketches, h]
  opened := rfl
  held := trivial
  faults := by simp

theorem Drawn.nodup (h : Drawn limit done stack (b, t)) : t.ids.Nodup := by
  rw [h.ids]
  refine List.nodup_range.map fun i j e => ?_
  exact NodeId.mk.inj e

/-- The number of the next element is not in use. -/
theorem Drawn.unseen (h : Drawn limit done stack (b, t)) : (⟨done.length⟩ : NodeId) ∉ t.ids := by
  rw [h.ids]
  intro hm
  obtain ⟨j, hj, e⟩ := List.mem_map.mp hm
  rw [NodeId.mk.inj e] at hj
  exact Nat.lt_irrefl _ (List.mem_range.mp hj)

/-- What may come next is not refused. -/
theorem Drawn.refusal_eq_none (h : Drawn limit done stack (b, t))
    (follows : Follows limit done stack x) (e : StagedElement) : b.refusal e = none := by
  rcases Builder.refusal_cases h.opened e with
    ⟨accepted, -⟩ | ⟨kind, detail, -, -, deep | ⟨empty, second⟩⟩
  · exact accepted
  · rw [h.limit, ← follows.level] at deep
    exact absurd follows.fits (Nat.not_lt.mpr deep)
  · rw [h.root (follows.first empty)] at second
    cases second

/-- All that comes behind the innermost open element is deeper. -/
theorem Drawn.innermost {k : Nat} (h : Drawn limit done (k :: stack) (b, t)) :
    ∃ front above back, t.nodes = front ++ above :: back ∧ above.id = ⟨k⟩ ∧
      above.level = stack.length ∧ ∀ n ∈ back, stack.length < n.level := by
  obtain ⟨⟨before, after, levels, length, deep⟩, -⟩ := h.held
  rw [← h.sketches, Tree.sketches, List.map_map] at levels
  obtain ⟨front, tail, nodes, rfl, ht⟩ := List.map_eq_append_iff.mp levels
  obtain ⟨above, back, rfl, level, rfl⟩ := List.map_eq_cons_iff.mp ht
  rw [List.length_map] at length
  refine ⟨front, above, back, nodes, ?_, level, ?_⟩
  · have ids := h.ids
    rw [Tree.ids, nodes, List.map_append, List.map_cons] at ids
    have here : (front.map (·.id) ++ above.id :: back.map (·.id))[k]? = some above.id := by
      simp [← length]
    rw [ids, List.getElem?_map] at here
    obtain ⟨j, hj, e⟩ := Option.map_eq_some_iff.mp here
    obtain ⟨_, rfl⟩ := List.getElem?_eq_some_iff.mp hj
    rw [← e, List.getElem_range]
  · intro n hn
    exact deep n.level (List.mem_map_of_mem hn)

/-- What comes behind the innermost open element stays before the next element. -/
theorem Follows.passes {k : Nat} {front back : List Node} {above : Node}
    (follows : Follows limit done (k :: stack) x)
    (drawn : (front ++ above :: back).map Node.sketch = done) (level : above.level = stack.length)
    (deep : ∀ n ∈ back, stack.length < n.level) :
    ∀ n ∈ back, Tree.passes (above.level + 1) x.kind.rank n = true := by
  intro n hn
  have below := deep n hn
  rw [Tree.passes_iff, level]
  by_cases sibling : n.level = stack.length + 1
  · right
    refine ⟨sibling, ?_⟩
    obtain ⟨l, r, rfl⟩ := List.append_of_mem hn
    apply follows.ranked (front.map Node.sketch ++ above.sketch :: l.map Node.sketch) n.sketch
      (r.map Node.sketch)
    · rw [← drawn]
      simp
    · intro y hy
      obtain ⟨m, hm, rfl⟩ := List.mem_map.mp hy
      have deeper := deep m (List.mem_append_right l (List.mem_cons_of_mem n hm))
      change n.level ≤ m.level
      omega
    · rw [follows.level]
      exact sibling.symm
  · left
    exact Nat.lt_of_le_of_ne below (Ne.symm sibling)

/-- A new element comes behind all others. -/
theorem Drawn.addParsed (h : Drawn limit done stack (b, t))
    (follows : Follows limit done stack x) :
    ∃ t1 parent,
      t.addParsed x.kind x.tag (b.stack.head?.bind (·.node)) = .ok (t1, ⟨done.length⟩) ∧
      t1.entries =
        t.entries ++ [⟨⟨done.length⟩, x.kind, x.tag, x.level, parent, [], fun _ => ""⟩] ∧
      t1.issued = done.length + 1 := by
  rw [Builder.parent_of_opened h.opened, ← h.issued]
  cases stack with
  | nil =>
    have empty : t.nodes = [] := by
      have sketches := h.sketches
      rw [follows.first rfl] at sketches
      exact List.map_eq_nil_iff.mp sketches
    obtain ⟨t1, added, entries, issued⟩ := Tree.addParsed_root x.kind x.tag none empty
    refine ⟨t1, none, added, ?_, issued⟩
    rw [entries, follows.level, Tree.entries, empty]
    rfl
  | cons k stack =>
    obtain ⟨front, above, back, nodes, id, level, deep⟩ := h.innermost
    have drawn : (front ++ above :: back).map Node.sketch = done := nodes ▸ h.sketches
    have passes := follows.passes drawn level deep
    obtain ⟨t1, added, entries, issued⟩ := Tree.addParsed_child x.kind x.tag nodes h.nodup
    rw [id] at added
    refine ⟨t1, some above.id, added, ?_, issued⟩
    rw [entries, List.takeWhile_eq_self_iff.mpr passes, List.dropWhile_eq_nil_iff.mpr passes,
      Tree.entries, nodes, level, follows.level]
    rfl

/-- What a start tag adds, given the entry that it makes. -/
theorem Drawn.add_element {b' : Builder} {t' : Tree} {e : Entry} {y : Sketch}
    (selfClosing : Bool) (h : Drawn limit done stack (b, t)) (limit' : b'.limit = b.limit)
    (issued : t'.issued = done.length + 1) (entries : t'.entries = t.entries ++ [e])
    (id : e.id = ⟨done.length⟩) (sketch : e.sketch = y) (level : y.level = stack.length)
    (opened : b'.stack.map (·.node) =
      (if selfClosing then stack else done.length :: stack).map fun k => some ⟨k⟩)
    (faults : ∀ d ∈ b'.diagnostics, Sketch.Faulty ((done ++ [y]).map Sketch.bare) d.kind) :
    Drawn limit (done ++ [y]) (if selfClosing then stack else done.length :: stack) (b', t') := by
  refine ⟨limit'.trans h.limit, by simp, ?_, ?_, ?_, opened, ?_, faults⟩
  · rw [issued, List.length_append]
    rfl
  · rw [Tree.ids_eq_entries, entries, List.map_append, ← Tree.ids_eq_entries, h.ids,
      List.map_singleton, id, List.length_append, List.length_singleton, List.range_succ,
      List.map_append]
    rfl
  · rw [Tree.sketches_eq_entries, entries, List.map_append, ← Tree.sketches_eq_entries, h.sketches,
      List.map_singleton, sketch]
  · rw [List.map_append, List.map_singleton, level]
    cases selfClosing with
    | true => exact h.held.append (Nat.le_refl _)
    | false =>
      have pushed := h.held.push
      rwa [List.length_map] at pushed

/-! ## A start tag -/

/-- The last entry has no text yet. -/
def Tree.Textless (t : Tree) : Prop :=
  ∀ e ∈ t.entries.getLast?, e.value contentName = "" ∧ ∃ names, e.Lists names ∧ contentName ∉ names

theorem pairsOf_eq {attributes : List StagedAttribute} {pairs : List (String × String)}
    (h : Builder.StagedPairs attributes pairs) :
    Builder.pairsOf attributes = pairs ∧ ∀ a ∈ attributes, a.value.isSome = true := by
  constructor
  · have := congrArg (List.map fun q : String × Option String => (q.1, q.2.getD "")) h
    rw [List.map_map, List.map_map] at this
    exact this.trans (List.map_id pairs)
  · intro a ha
    have hm : (a.name, a.value) ∈ pairs.map fun p => (p.1, some p.2) :=
      h ▸ List.mem_map.mpr ⟨a, ha, rfl⟩
    obtain ⟨p, -, e⟩ := List.mem_map.mp hm
    rw [← (Prod.mk.inj e).2]
    rfl

theorem Sketch.Legible.plain (h : x.Legible) : (x.plain.map (·.1)).Nodup ∧
    (∀ p ∈ x.plain, p.2 ≠ "") ∧ x.plain.Pairwise fun p q =>
      (x.kind.bareAttribute p.1).order ≤ (x.kind.bareAttribute q.1).order :=
  ⟨h.distinct.sublist (List.filter_sublist.map _),
    fun p hp => h.filled p (List.mem_of_mem_filter hp), h.sorted.sublist List.filter_sublist⟩

/-- The names of a staged element are those of its pairs. -/
theorem names_staged {attributes : List StagedAttribute} {pairs : List (String × String)}
    (h : Builder.StagedPairs attributes pairs) : attributes.map (·.name) = pairs.map (·.1) := by
  rw [← (pairsOf_eq h).1, Builder.pairsOf, List.map_map]
  rfl

/-- The element around the next one is the innermost open element. -/
theorem Drawn.parentKind_eq (h : Drawn limit done stack (b, t)) (follows : Follows limit done stack x) :
    b.parentKind t = Sketch.parentKind (done.map Sketch.bare) x.level := by
  rw [Builder.parentKind, Builder.parent_of_opened h.opened, Sketch.parentKind]
  cases stack with
  | nil =>
    rw [follows.first rfl]
    rfl
  | cons k stack =>
    obtain ⟨front, above, back, nodes, id, level, deep⟩ := h.innermost
    have found : t.node? ⟨k⟩ = some above := id ▸ Tree.node?_of_mem h.nodup (nodes ▸ by simp)
    have drawn : done.map Sketch.bare =
        front.map (Sketch.bare ∘ Node.sketch) ++ above.sketch.bare ::
          back.map (Sketch.bare ∘ Node.sketch) := by
      rw [← h.sketches, Tree.sketches, nodes, List.map_map, List.map_append, List.map_cons]
      rfl
    have below : ∀ y ∈ (back.map (Sketch.bare ∘ Node.sketch)).reverse, ¬ y.level < x.level := by
      intro y hy
      obtain ⟨n, hn, rfl⟩ := List.mem_map.mp (List.mem_reverse.mp hy)
      have deeper := deep n hn
      have here : x.level = stack.length + 1 := follows.level
      change ¬ n.level < x.level
      omega
    have inside : above.sketch.bare.level < x.level := by
      have here : x.level = stack.length + 1 := follows.level
      change above.level < x.level
      omega
    rw [drawn, List.reverse_append, List.reverse_cons, List.append_assoc, List.find?_append,
      List.find?_eq_none.mpr (by simpa using below)]
    simp only [List.head?_cons, Option.map_some, Option.bind_some, found, List.singleton_append,
      Option.none_or, List.find?_cons, inside, decide_true]
    rfl

/-- What is reported of a legible element is about its tag, its place or a name. -/
theorem Drawn.blamed (h : Drawn limit done stack (b, t)) (follows : Follows limit done stack x)
    (legible : x.Legible) {e : StagedElement} (tag : e.tag = x.tag)
    (staged : Builder.StagedPairs e.attributes x.plain) {kind : DiagnosticKind}
    (reported : b.Misplaced t e kind ∨
      (kind = .unknownAttribute ∧ ∃ a ∈ e.attributes, x.kind.attribute? a.name = none) ∨
      kind = .duplicateAttribute ∧ ¬ (e.attributes.map (·.name)).Nodup) :
    Sketch.Blamed (done.map Sketch.bare) x.bare kind := by
  have names := names_staged staged
  rcases reported with misplaced | ⟨undeclared, a, ha, none⟩ | ⟨-, twice⟩
  · left
    rwa [Builder.Misplaced, tag, legible.kind, h.parentKind_eq follows] at misplaced
  · right
    obtain ⟨p, hp, name⟩ := List.mem_map.mp (names ▸ List.mem_map_of_mem ha)
    exact ⟨undeclared, p, by rwa [Sketch.plain_bare], by rwa [name]⟩
  · rw [names] at twice
    exact absurd legible.plain.1 twice

/-- A start tag that has ended is drawn behind all others. -/
theorem Drawn.finalize (h : Drawn limit done stack (b, t)) (follows : Follows limit done stack x)
    (legible : x.Legible) {e : StagedElement} (tag : e.tag = x.tag)
    (staged : Builder.StagedPairs e.attributes x.plain) (selfClosing : Bool) :
    ∃ b' t', b.finalize t e selfClosing = (b', t') ∧ b'.staged = b.staged ∧ t'.Textless ∧
      Drawn limit (done ++ [x.bare]) (if selfClosing then stack else done.length :: stack)
        (b', t') := by
  obtain ⟨pairs, values⟩ := pairsOf_eq staged
  obtain ⟨distinct, filled, sorted⟩ := legible.plain
  obtain ⟨t1, parent, added, entries1, issued1⟩ := h.addParsed follows
  generalize hx : (⟨⟨done.length⟩, x.kind, x.tag, x.level, parent, [], fun _ => ""⟩ : Entry) = blank
    at entries1
  have id : blank.id = ⟨done.length⟩ := by rw [← hx]
  have kind := legible.kind
  rw [← kind, ← tag, ← id] at added
  obtain ⟨b', t', final, entries, issued, silent, ds, reports, kinds⟩ :=
    Builder.finalize_entries selfClosing (h.refusal_eq_none follows e) values added
      (List.append_nil _).symm entries1 h.nodup (id ▸ h.unseen)
  rw [pairs] at entries
  rw [id] at silent
  obtain ⟨limit', staged', -, opened⟩ := Builder.opened_of_silent h.opened silent
  have bare : blank.Lists [] := by rw [← hx]; rfl
  obtain ⟨lists, sketch⟩ := @Entry.sketch_assignAll blank x.plain bare distinct filled
    (by rw [← hx]; exact sorted)
  have said : (blank.assignAll x.plain).sketch = x.bare := by rw [sketch, ← hx]; rfl
  refine ⟨b', t', final, staged', ?_, ?_⟩
  · intro y hy
    rw [entries, List.getLast?_concat] at hy
    cases hy
    have absent : contentName ∉ x.plain.map (·.1) := by
      intro hm
      obtain ⟨p, hp, e⟩ := List.mem_map.mp hm
      exact (Sketch.mem_plain.mp hp).2 e
    refine ⟨?_, _, lists, absent⟩
    rw [Entry.value_assignAll, Entry.lastValue?_of_not_mem absent, ← hx]
    rfl
  · refine h.add_element selfClosing limit' (issued.trans issued1) entries ?_ said follows.level
      opened ?_
    · rw [(Entry.assignAll_fixed _ _).1, id]
    · intro d hd
      rw [reports] at hd
      rw [List.map_append]
      rcases List.mem_append.mp hd with hd | hd
      · exact (h.faults d hd).append _
      · have same : blank.kind = x.kind := by rw [← hx]
        have reported := kinds d hd
        rw [same] at reported
        exact ⟨_, x.bare, [], by simp, h.blamed follows legible tag staged reported⟩

/-! ## The text of an element -/

/-- No tag is being read, and the tree is drawn so far. -/
def Idle (limit : Nat) (done : List Sketch) (stack : List Nat) (s : Builder × Tree) : Prop :=
  s.1.AtRest ∧ Drawn limit done stack s

/-- Once this text and any blanks behind it have been read, the tree is drawn so far. -/
def Awaits (source : String) (limit : Nat) (done : List Sketch) (stack : List Nat) (run : List Char)
    (s : Builder × Tree) : Prop :=
  ∀ blanks, (∀ c ∈ blanks, Text.isBlank c = true) →
    Builder.Reads source (runWords (run ++ blanks)) s (Idle limit done stack)

theorem Idle.awaits {source : String} {s : Builder × Tree} (h : Idle limit done stack s) :
    Awaits source limit done stack [] s :=
  fun _ blank => Builder.reads_blank blank h

/-- The last node is that of the element that was read last. -/
theorem Drawn.last_node (h : Drawn limit (done ++ [x]) stack (b, t)) :
    ∃ init n, t.nodes = init ++ [n] ∧ n.sketch = x ∧ n.id = ⟨done.length⟩ ∧
      init.map Node.sketch = done := by
  obtain ⟨init, tail, nodes, hi, ht⟩ := List.map_eq_append_iff.mp h.sketches
  obtain ⟨n, rfl, hn⟩ := List.map_eq_singleton_iff.mp ht
  refine ⟨init, n, nodes, hn, ?_, hi⟩
  have ids := h.ids
  rw [Tree.ids, nodes, List.map_append, List.length_append, List.length_singleton, List.range_succ,
    List.map_append] at ids
  exact List.singleton_inj.mp (List.append_inj_right' ids rfl)

/-- What a text adds to the element that was read last, given what it does to the entries. -/
theorem Drawn.add_text {k : Nat} {t' : Tree} {v : String}
    (h : Drawn limit (done ++ [x.bare]) (k :: stack) (b, t)) (textless : t.Textless)
    (accepts : x.kind.acceptsContent = true) (content : x.content? = some v) (issued : t'.issued = t.issued)
    (entries : t'.entries = t.entries.map fun e =>
      if e.id = ⟨done.length⟩ then e.addText v else e) :
    Drawn limit (done ++ [x.trimmed]) (k :: stack) (b, t') := by
  have hv := Sketch.ne_empty_of_content? content
  have pairs : x.trimmed.pairs = (contentName, v) :: x.plain := by
    rw [Sketch.trimmed, content]
    rfl
  obtain ⟨init, n, nodes, sketch, id, front⟩ := h.last_node
  have old : t.entries = init.map Node.entry ++ [n.entry] := by
    rw [Tree.entries, nodes, List.map_append]
    rfl
  obtain ⟨empty, names, lists, absent⟩ := textless n.entry (by rw [old, List.getLast?_concat]; rfl)
  have filled : n.entry.addText v = n.entry.assign contentName v := by
    rw [Entry.addText, empty]
    rfl
  have new : t'.entries = init.map Node.entry ++ [n.entry.assign contentName v] := by
    have nodup := h.nodup
    rw [Tree.ids, nodes, List.map_append, List.nodup_append] at nodup
    rw [entries, old, List.map_append, ← id, ← filled]
    congr 1
    · refine (List.map_congr_left fun y hy => if_neg ?_).trans (List.map_id _)
      obtain ⟨m, hm, rfl⟩ := List.mem_map.mp hy
      exact nodup.2.2 _ (List.mem_map_of_mem hm) _ (by simp)
    · exact congrArg (fun e => [e]) (if_pos rfl)
  have said : (n.entry.assign contentName v).sketch = x.trimmed := by
    have bare : n.entry.sketch = x.bare := n.sketch_entry.trans sketch
    have kind : n.entry.kind = x.kind := congrArg Sketch.kind bare
    have tag : n.entry.tag = x.tag := congrArg Sketch.tag bare
    have level : n.entry.level = x.level := congrArg Sketch.level bare
    rw [Entry.sketch_assign_content lists absent (kind ▸ accepts) hv, bare, kind, tag, level]
    exact congrArg (Sketch.mk x.kind x.tag x.level) pairs.symm
  refine ⟨h.limit, by simp, ?_, ?_, ?_, h.opened, ?_, ?_⟩
  · rw [issued, h.issued, List.length_append, List.length_append]
    rfl
  · have ids : t'.ids = t.ids := by
      rw [Tree.ids_eq_entries, Tree.ids_eq_entries, new, old, List.map_append, List.map_append]
      rfl
    rw [ids, h.ids, List.length_append, List.length_append]
    rfl
  · rw [Tree.sketches_eq_entries, new, List.map_append, List.map_singleton, said, ← front,
      List.map_map]
    congr 1
    exact List.map_congr_left fun m _ => m.sketch_entry
  · have held := h.held
    rw [List.map_append] at held ⊢
    exact held
  · have faults := h.faults
    rw [List.map_append, List.map_singleton, Sketch.bare_bare] at faults
    rw [List.map_append, List.map_singleton, Sketch.bare_trimmed]
    exact faults

/-- The text behind a start tag is what the sketch of its element lacks, but for blanks at
the ends. -/
theorem Drawn.awaits_text {source : String} (rest : b.AtRest)
    (h : Drawn limit (done ++ [x.bare]) (done.length :: stack) (b, t)) (textless : t.Textless)
    (legible : x.Legible) :
    Awaits source limit (done ++ [x.trimmed]) (done.length :: stack) x.text (b, t) := by
  intro blanks blank
  have left := x.trim_text blank
  cases content : x.content? with
  | none =>
    have nothing : Text.isAllBlank (x.text ++ blanks) = true := by
      rw [← Text.trim_eq_nil, left, content]
      rfl
    rw [Sketch.trimmed_eq_bare content]
    exact Builder.reads_blank (List.all_eq_true.mp nothing) ⟨rest, h⟩
  | some v =>
    have hv := Sketch.ne_empty_of_content? content
    have shown : Text.isAllBlank (x.text ++ blanks) = false := by
      rw [Bool.eq_false_iff, Ne, ← Text.trim_eq_nil, left, content, Text.encodeChars_eq_nil]
      simpa using hv
    have text : textOf (x.text ++ blanks) = v := by
      rw [textOf, left, content, Option.getD_some, Text.decodeChars_encodeChars, String.ofList_toList]
    have accepts : x.kind.acceptsContent = true := by
      rcases legible.pairs_eq with ⟨none, -⟩ | ⟨-, -, -, -, accepts⟩
      · rw [Sketch.content?, none] at content
        cases content
      · exact accepts
    have run : x.text ++ blanks ≠ [] := by
      intro e
      rw [e] at shown
      cases shown
    rw [runWords, if_neg run, if_neg (by simp [shown])]
    refine Builder.reads_cons fun token e => Builder.reads_nil ?_
    rw [Builder.feed_text (Builder.kind_of_lexemeOf e), Builder.slice_of_lexemeOf e,
      String.toList_ofList]
    obtain ⟨init, n, nodes, sketch, id, -⟩ := h.last_node
    have kind : n.kind = x.kind := congrArg Sketch.kind sketch
    have hn : n ∈ t.nodes := nodes ▸ List.mem_append_right _ List.mem_cons_self
    obtain ⟨o, others, top, node, -⟩ := Builder.top_of_opened h.opened
    have first : b.stack.head? = Option.some o := by rw [top, List.head?_cons]
    obtain ⟨t', read, issued, entries⟩ := Builder.readText_accepted h.nodup first (id ▸ node) hn
      (kind ▸ accepts) shown token.span
    rw [read]
    rw [text, id] at entries
    exact ⟨rest, h.add_text textless accepts content issued entries⟩

end

end QueryMarkup
