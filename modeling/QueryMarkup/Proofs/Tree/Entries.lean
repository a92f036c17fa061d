import QueryMarkup.Proofs.Tree.Upkeep

/-!
# Entries and assignments

The entries of a tree are its nodes without results, counts and flags. An assignment to
an attribute changes one entry: the value, and the attributes when the name is new. The
attributes of an entry are determined by its kind and the names that were assigned.
-/
namespace QueryMarkup

/-! ## The order of names -/

namespace Kind

/-- Declared names come in the order of the table, all others behind them in the order in
which they occur first. -/
def arrange (kind : Kind) (names : List String) : List String :=
  (kind.attributes.map (·.name)).filter names.contains ++
    names.eraseDups.filter fun name => (kind.attribute? name).isNone

/-- An attribute of this name before any of its results. -/
def bareAttribute (kind : Kind) (name : String) : Attribute := (Attribute.create kind name "").base

theorem attributes_sorted (kind : Kind) :
    kind.attributes.Pairwise fun a b => a.order < b.order := by
  cases kind <;> decide

theorem order_lt (kind : Kind) : ∀ spec ∈ kind.attributes, spec.order < undeclaredOrder := by
  cases kind <;> decide

theorem attribute?_of_mem (kind : Kind) :
    ∀ spec ∈ kind.attributes, kind.attribute? spec.name = some spec := by
  cases kind <;> decide

theorem attribute?_eq_some {kind : Kind} {name : String} {spec : AttributeSpec}
    (h : kind.attribute? name = some spec) : spec ∈ kind.attributes ∧ spec.name = name :=
  ⟨List.mem_of_find?_eq_some h, by simpa using List.find?_some h⟩

@[simp] theorem name_bareAttribute (kind : Kind) (name : String) :
    (kind.bareAttribute name).name = name := Attribute.name_create kind name ""

theorem order_bareAttribute_of_some {kind : Kind} {name : String} {spec : AttributeSpec}
    (h : kind.attribute? name = some spec) : (kind.bareAttribute name).order = spec.order := by
  simp [bareAttribute, Attribute.create, h]

theorem order_bareAttribute_of_none {kind : Kind} {name : String} (h : kind.attribute? name = none) :
    (kind.bareAttribute name).order = undeclaredOrder := by
  simp [bareAttribute, Attribute.create, h]

theorem order_bareAttribute_le (kind : Kind) (name : String) :
    (kind.bareAttribute name).order ≤ undeclaredOrder := by
  cases h : kind.attribute? name with
  | none => rw [order_bareAttribute_of_none h]
  | some spec =>
    rw [order_bareAttribute_of_some h]
    exact Nat.le_of_lt (kind.order_lt spec (attribute?_eq_some h).1)

theorem content_of_mem (kind : Kind) :
    ∀ spec ∈ kind.attributes, spec.content = decide (spec.name = contentName) := by
  cases kind <;> decide

theorem content_bareAttribute (kind : Kind) (name : String) :
    (kind.bareAttribute name).content = (decide (name = contentName) && kind.acceptsContent) := by
  cases h : kind.attribute? name with
  | none =>
    have : (kind.bareAttribute name).content = false := by
      simp [bareAttribute, Attribute.create, h]
    rw [this]
    by_cases e : name = contentName
    · subst e
      simp [acceptsContent, h]
    · simp [e]
  | some spec =>
    obtain ⟨hs, rfl⟩ := attribute?_eq_some h
    have : (kind.bareAttribute spec.name).content = spec.content := by
      simp [bareAttribute, Attribute.create, h]
    rw [this, kind.content_of_mem spec hs]
    by_cases e : spec.name = contentName
    · have accepts : kind.acceptsContent = true := by
        rw [acceptsContent, ← e, h]
        rfl
      simp [e, accepts]
    · simp [e]

theorem mem_arrange {kind : Kind} {names : List String} {name : String} :
    name ∈ kind.arrange names ↔ name ∈ names := by
  simp only [arrange, List.mem_append, List.mem_filter, List.mem_map, List.contains_eq_mem,
    decide_eq_true_eq, List.mem_eraseDups]
  constructor
  · rintro (⟨_, h⟩ | ⟨h, _⟩) <;> exact h
  · intro h
    cases hs : kind.attribute? name with
    | none => exact .inr ⟨h, rfl⟩
    | some spec => exact .inl ⟨⟨spec, attribute?_eq_some hs⟩, h⟩

/-- A name that was there before changes nothing. -/
theorem arrange_of_mem {kind : Kind} {names : List String} {name : String} (h : name ∈ names) :
    kind.arrange (names ++ [name]) = kind.arrange names := by
  have declared : (names ++ [name]).contains = names.contains := by
    funext x
    simp only [List.contains_eq_mem, List.mem_append, List.mem_singleton]
    by_cases hx : x = name <;> simp [hx, h]
  have first : (names ++ [name]).eraseDups = names.eraseDups := by
    simp [List.eraseDups_append, List.removeAll, h]
  rw [arrange, declared, first]
  rfl

end Kind

/-! ## The place of a new attribute -/

/-- An attribute goes behind those that do not come after it. -/
theorem Attribute.insertInto_append {a : Attribute} {l r : List Attribute}
    (hl : ∀ b ∈ l, b.order ≤ a.order) (hr : ∀ b ∈ r.head?, a.order < b.order) :
    a.insertInto (l ++ r) = l ++ a :: r := by
  induction l with
  | nil =>
    cases r with
    | nil => rfl
    | cons b r => simp [insertInto, Nat.not_le.mpr (hr b rfl)]
  | cons b l ih =>
    rw [List.cons_append, insertInto, if_pos (hl b List.mem_cons_self),
      ih fun c hc => hl c (List.mem_cons_of_mem b hc)]
    rfl

theorem Attribute.insertInto_map_base (a : Attribute) (as : List Attribute) :
    (a.insertInto as).map Attribute.base = a.base.insertInto (as.map Attribute.base) := by
  induction as with
  | nil => rfl
  | cons b as ih =>
    rw [insertInto, List.map_cons, insertInto]
    by_cases h : b.order ≤ a.order
    · have h' : b.base.order ≤ a.base.order := h
      rw [if_pos h, if_pos h', List.map_cons, ih]
    · have h' : ¬ b.base.order ≤ a.base.order := h
      rw [if_neg h, if_neg h', List.map_cons, List.map_cons]

namespace Kind

variable {kind : Kind} {names : List String} {name : String}

theorem mem_filter_declared {l : List AttributeSpec} (sub : l ⊆ kind.attributes) {x : String}
    (h : x ∈ (l.map (·.name)).filter names.contains) :
    ∃ s ∈ l, (kind.bareAttribute x).order = s.order := by
  obtain ⟨s, hs, rfl⟩ := List.mem_map.mp (List.mem_of_mem_filter h)
  exact ⟨s, hs, order_bareAttribute_of_some (kind.attribute?_of_mem s (sub hs))⟩

/-- One more name does not matter for the part of the table that does not declare it. -/
theorem filter_declared_append {l : List AttributeSpec} (h : ∀ s ∈ l, s.name ≠ name) :
    (l.map (·.name)).filter (names ++ [name]).contains =
      (l.map (·.name)).filter names.contains := by
  refine List.filter_congr fun x hx => ?_
  obtain ⟨s, hs, rfl⟩ := List.mem_map.mp hx
  simp [h s hs]

theorem eraseDups_append_singleton (h : name ∉ names) :
    (names ++ [name]).eraseDups = names.eraseDups ++ [name] := by
  simp [List.eraseDups_append, List.removeAll, h, List.eraseDups_cons]

/-- An undeclared name goes behind all others. -/
theorem arrange_append_of_none (h : name ∉ names) (undeclared : kind.attribute? name = none) :
    kind.arrange (names ++ [name]) = kind.arrange names ++ [name] := by
  have other : ∀ s ∈ kind.attributes, s.name ≠ name := by
    intro s hs e
    rw [← e, kind.attribute?_of_mem s hs] at undeclared
    cases undeclared
  rw [arrange, filter_declared_append other, eraseDups_append_singleton h, List.filter_append,
    ← List.append_assoc]
  simp [arrange, undeclared]

/-- A declared name goes between those that the table has before it and all others. -/
theorem arrange_append_of_some {spec : AttributeSpec} (h : name ∉ names)
    (declared : kind.attribute? name = some spec) :
    ∃ l r, kind.arrange names = l ++ r ∧ kind.arrange (names ++ [name]) = l ++ name :: r ∧
      (∀ x ∈ l, (kind.bareAttribute x).order ≤ spec.order) ∧
      ∀ x ∈ r, spec.order < (kind.bareAttribute x).order := by
  obtain ⟨hs, rfl⟩ := attribute?_eq_some declared
  obtain ⟨pre, post, table⟩ := List.append_of_mem hs
  have subPre : pre ⊆ kind.attributes := table ▸ List.subset_append_left _ _
  have subPost : post ⊆ kind.attributes := fun s hm => by
    rw [table]
    exact List.mem_append_right _ (List.mem_cons_of_mem _ hm)
  have sorted := kind.attributes_sorted
  rw [table, List.pairwise_append, List.pairwise_cons] at sorted
  obtain ⟨_, ⟨above, _⟩, below⟩ := sorted
  have other {s : AttributeSpec} (hm : s ∈ kind.attributes) (ho : s.order ≠ spec.order) :
      s.name ≠ spec.name := fun e => by
    have := kind.attribute?_of_mem s hm
    rw [e, declared] at this
    exact ho (congrArg AttributeSpec.order (Option.some.inj this).symm)
  refine ⟨(pre.map (·.name)).filter names.contains, (post.map (·.name)).filter names.contains ++
    names.eraseDups.filter (fun x => (kind.attribute? x).isNone), ?_, ?_, ?_, ?_⟩
  · rw [arrange, table]
    simp [h]
  · rw [arrange, table, List.map_append, List.map_cons, List.filter_append, List.filter_cons,
      filter_declared_append fun s hm =>
        other (subPre hm) (Nat.ne_of_lt (below s hm spec List.mem_cons_self)),
      filter_declared_append fun s hm => other (subPost hm) (Nat.ne_of_gt (above s hm)),
      eraseDups_append_singleton h]
    simp [declared]
  · intro x hx
    obtain ⟨s, hm, ho⟩ := mem_filter_declared subPre hx
    rw [ho]
    exact Nat.le_of_lt (below s hm spec List.mem_cons_self)
  · intro x hx
    rcases List.mem_append.mp hx with hx | hx
    · obtain ⟨s, hm, ho⟩ := mem_filter_declared subPost hx
      rw [ho]
      exact above s hm
    · have undeclared := (List.mem_filter.mp hx).2
      rw [order_bareAttribute_of_none (by simpa using undeclared)]
      exact kind.order_lt spec hs

/-- A new attribute goes where its name belongs. -/
theorem insertInto_arrange (h : name ∉ names) :
    (kind.bareAttribute name).insertInto ((kind.arrange names).map kind.bareAttribute) =
      (kind.arrange (names ++ [name])).map kind.bareAttribute := by
  cases declared : kind.attribute? name with
  | none =>
    have last := @Attribute.insertInto_append (kind.bareAttribute name)
      ((kind.arrange names).map kind.bareAttribute) [] (fun b hb => by
        obtain ⟨x, _, rfl⟩ := List.mem_map.mp hb
        rw [order_bareAttribute_of_none declared]
        exact order_bareAttribute_le kind x) (by simp)
    rw [List.append_nil] at last
    rw [last, arrange_append_of_none h declared, List.map_append]
    rfl
  | some spec =>
    obtain ⟨l, r, old, new, hl, hr⟩ := arrange_append_of_some h declared
    rw [old, new, List.map_append, List.map_append, List.map_cons]
    refine Attribute.insertInto_append ?_ ?_
    · intro b hb
      obtain ⟨x, hx, rfl⟩ := List.mem_map.mp hb
      rw [order_bareAttribute_of_some declared]
      exact hl x hx
    · intro b hb
      obtain ⟨x, hx, rfl⟩ := List.mem_map.mp (List.mem_of_mem_head? hb)
      rw [order_bareAttribute_of_some declared]
      exact hr x hx

end Kind

/-! ## Assignments -/

/-- An entry after an attribute has been given a value. -/
def Entry.assign (name value : String) (e : Entry) : Entry :=
  { e with
    value := fun x => if x = name then value else e.value x
    attributes := if name ∈ e.attributes.map (·.name) then e.attributes
      else (e.kind.bareAttribute name).insertInto e.attributes }

/-- The attributes of an entry are those that its kind gives to these names. -/
def Entry.Has (e : Entry) (names : List String) : Prop :=
  e.attributes = (e.kind.arrange names).map e.kind.bareAttribute

theorem Entry.Has.mem_names {e : Entry} {names : List String} (h : e.Has names) {x : String} :
    x ∈ e.attributes.map (·.name) ↔ x ∈ names := by
  rw [h, List.map_map]
  simp [Function.comp_def, Kind.mem_arrange]

theorem Entry.Has.assign {e : Entry} {names : List String} (h : e.Has names) (name value : String) :
    (e.assign name value).Has (names ++ [name]) := by
  have kind : (e.assign name value).kind = e.kind := rfl
  rw [Has, kind, Entry.assign]
  dsimp only
  by_cases hn : name ∈ names
  · rw [if_pos (h.mem_names.mpr hn), Kind.arrange_of_mem hn]
    exact h
  · rw [if_neg fun hm => hn (h.mem_names.mp hm), h]
    exact Kind.insertInto_arrange hn

namespace Tree

variable {t t' : Tree} {id : NodeId} {name value : String}

def entries (t : Tree) : List Entry := t.nodes.map Node.entry

theorem entry_fresh (t : Tree) (kind : Kind) (tag : String) (above : Option Node) :
    (t.fresh kind tag above).entry = ⟨⟨t.issued⟩, kind, tag, (above.map (·.level + 1)).getD 0,
      above.map (·.id), [], fun _ => ""⟩ := rfl

theorem ids_eq_entries (t : Tree) : t.ids = t.entries.map Entry.id := by
  rw [entries, List.map_map]
  rfl

theorem entries_alter (t : Tree) (id : NodeId) (f : Node → Node) (g : Entry → Entry)
    (h : ∀ n, (f n).entry = g n.entry) :
    (t.alter id f).entries = t.entries.map fun e => if e.id = id then g e else e :=
  map_nodes_alter t id f Entry.id g (fun _ => rfl) h

theorem entry_setSlot (n : Node) (name value : String) : (n.setSlot name value).entry =
    { n.entry with value := fun x => if x = name then value else n.entry.value x } := by
  have own : (n.setSlot name value).value = fun x => if x = name then value else n.value x := by
    funext x
    by_cases hx : x = name
    · rw [if_pos hx, hx, Node.value_setSlot_self]
    · rw [if_neg hx, Node.value_setSlot_of_ne hx]
  simp only [Node.entry, FullEntry.entry, Node.fullEntry, own]
  rfl

theorem entry_insertAttribute (n : Node) (name : String) : (n.insertAttribute name).entry =
    { n.entry with
      attributes := (n.kind.bareAttribute name).insertInto n.entry.attributes } := by
  have own : (n.insertAttribute name).value = n.value := Node.value_insertAttribute n name
  have attributes : (n.insertAttribute name).attributes.map Attribute.base =
      (n.kind.bareAttribute name).insertInto (n.attributes.map Attribute.base) := by
    refine (Attribute.insertInto_map_base _ _).trans ?_
    rw [Attribute.base_create n.kind name _ "", Kind.bareAttribute]
  simp only [Node.entry, FullEntry.entry, Node.fullEntry, own, attributes]
  rfl

/-- A write changes one value. -/
theorem entries_writeSlot (nd : t.ids.Nodup) (id : NodeId) (name value : String) :
    (t.writeSlot id name value).entries = t.entries.map fun e =>
      if e.id = id then { e with value := fun x => if x = name then value else e.value x } else e := by
  rcases t.writeSlot_cases id name value with ⟨same, held⟩ | kept
  · rw [same]
    refine ((List.map_congr_left fun e he => ?_).trans (List.map_id _)).symm
    obtain ⟨n, hn, rfl⟩ := List.mem_map.mp he
    split
    · rename_i hid
      have own := held n (hid ▸ node?_of_mem nd hn)
      have values : (fun x => if x = name then value else n.entry.value x) = n.entry.value := by
        funext x
        split
        · rename_i hx
          rw [hx, ← own]
          rfl
        · rfl
      rw [values]
      rfl
    · rfl
  · exact kept.base.fullEntry.entry.nodes.trans
      (entries_alter t id _ _ fun n => entry_setSlot n name value)

theorem entries_createAttribute (nd : t.ids.Nodup) (id : NodeId) (name value : String) :
    (t.createAttribute id name value).entries = t.entries.map fun e =>
      if e.id = id then
        { e with
          value := fun x => if x = name then value else e.value x
          attributes := (e.kind.bareAttribute name).insertInto e.attributes }
      else e := by
  have created : (t.createAttribute id name value).entries =
      ((t.writeSlot id name value).alter id fun n => n.insertAttribute name).entries := rfl
  rw [created, entries_alter _ id _ (fun e => { e with
      attributes := (e.kind.bareAttribute name).insertInto e.attributes })
      fun n => entry_insertAttribute n name, entries_writeSlot nd, List.map_map]
  apply List.map_congr_left
  intro e he
  by_cases hid : e.id = id
  · simp only [Function.comp_apply, if_pos hid]
  · simp only [Function.comp_apply, if_neg hid]

/-- The entry with the name of a node is its entry. -/
theorem entry_eq_of_id {n : Node} (nd : t.ids.Nodup) (hn : n ∈ t.nodes) :
    ∀ e ∈ t.entries, e.id = n.id → e = n.entry := by
  intro e he same
  obtain ⟨m, hm, rfl⟩ := List.mem_map.mp he
  rw [List.inj_on_of_nodup_map nd hm hn same]

theorem Node.names_entry (n : Node) :
    n.entry.attributes.map (·.name) = n.attributes.map (·.name) := by
  simp only [Node.entry, FullEntry.entry, Node.fullEntry, List.map_map]
  rfl

/-- Storing an attribute read from markup is an assignment. -/
theorem entries_insertParsed {issues : List StructuralIssue} (nd : t.ids.Nodup)
    (e : t.insertParsed id name value = .ok (t', issues)) :
    t'.entries = t.entries.map (fun e => if e.id = id then e.assign name value else e) ∧
      t'.issued = t.issued := by
  have kept : Keeps Node.id t (t.writeSlot id name value) :=
    writeSlot_keeps (fun _ => rfl) (fun _ _ _ => rfl) t id name value
  have issued := kept.issued
  obtain ⟨n, found, known⟩ := insertParsed_eq_ok e
  obtain ⟨hn, rfl⟩ := node?_eq_some found
  have only := entry_eq_of_id nd hn
  obtain ⟨present, rfl, -⟩ | ⟨absent, rfl, -⟩ := known
  · refine ⟨?_, issued⟩
    rw [entries_writeSlot nd]
    apply List.map_congr_left
    intro e he
    split
    · rename_i hid
      have has : name ∈ e.attributes.map (·.name) := by
        rw [only e he hid, Node.names_entry]
        by_contra absent
        rw [attribute?_eq_none.mpr absent] at present
        cases present
      simp only [Entry.assign, if_pos has]
    · rfl
  · refine ⟨?_, issued⟩
    rw [entries_createAttribute nd]
    apply List.map_congr_left
    intro e he
    split
    · rename_i hid
      have hasNot : name ∉ e.attributes.map (·.name) := by
        rw [only e he hid, Node.names_entry]
        exact attribute?_eq_none.mp absent
      simp only [Entry.assign, if_neg hasNot]
    · rfl

end Tree

end QueryMarkup
