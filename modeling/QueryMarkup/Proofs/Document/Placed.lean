import QueryMarkup.Proofs.Document.Elements

/-!
# What a tree holds of elements

A tree holds one entry for each element that can be placed, with the attributes of its own start
tag and the texts that stand right in it. Of the other elements it holds nothing.
-/
namespace QueryMarkup

/-- Name and value of an attribute that has a value. -/
def StagedAttribute.pair? (a : StagedAttribute) : Option (String × String) := a.value.map (a.name, ·)

def StagedElement.pairs (e : StagedElement) : List (String × String) := e.attributes.filterMap (·.pair?)

/-- How many elements are placed before the one with a number. -/
def rank (fs : List Fate) (k : Nat) : Nat := (fs.take k).count .placed

/-- The texts right in an element. -/
def textsIn (texts : List (Nat × String)) (k : Nat) : List String :=
  (texts.filter (·.1 = k)).map (·.2)

/-- The entry of a placed element. -/
def Element.entry (fs : List Fate) (texts : List (Nat × String)) (k : Nat) (e : Element) : Entry :=
  let kind := Kind.ofTag e.start.tag
  let bare : Entry := ⟨⟨rank fs k⟩, kind, e.start.tag, e.depth, e.around.map fun j => ⟨rank fs j⟩, [],
    fun _ => ""⟩
  (kind.keeps (textsIn texts k)).foldl (fun x text => x.addText text) (bare.assignAll e.start.pairs)

/-- A tree holds the elements that can be placed and nothing else. -/
structure Holds (limit : Nat) (g : Gathered) (t : Tree) : Prop where
  sound : t.Sound
  issued : t.issued = (fates limit g.elements).count .placed
  size : t.nodes.length = (fates limit g.elements).count .placed
  entries : ∀ x, x ∈ t.entries ↔ ∃ (k : Nat) (e : Element), g.elements[k]? = some e ∧
    (fates limit g.elements)[k]? = some .placed ∧ x = e.entry (fates limit g.elements) g.texts k

section
variable {fs : List Fate} {texts : List (Nat × String)} {k j : Nat} {e : Element}

/-! ## Numbers of nodes -/

theorem rank_append (h : k ≤ fs.length) (f : Fate) : rank (fs ++ [f]) k = rank fs k := by
  rw [rank, List.take_append_of_le_length h, rank]

theorem rank_length (fs : List Fate) : rank fs fs.length = fs.count .placed := by
  rw [rank, List.take_length]

/-- A placed element has a lower number than all after it. -/
theorem rank_lt (placed : fs[j]? = some .placed) (lt : j < k) : rank fs j < rank fs k := by
  obtain ⟨bound, here⟩ := List.getElem?_eq_some_iff.mp placed
  have sub : (fs.take (j + 1)).Sublist (fs.take k) := (List.take_prefix_take_left (by omega)).sublist
  have one : (fs.take (j + 1)).count .placed = rank fs j + 1 := by
    rw [List.take_succ_eq_append_getElem bound, here, List.count_append, rank, List.count_singleton_self]
  have := sub.count_le .placed
  rw [one] at this
  exact this

theorem rank_inj (hk : fs[k]? = some .placed) (hj : fs[j]? = some .placed) :
    rank fs k = rank fs j ↔ k = j := by
  refine ⟨fun same => ?_, fun same => same ▸ rfl⟩
  rcases Nat.lt_trichotomy k j with lt | same | lt
  · have := rank_lt hk lt
    omega
  · exact same
  · have := rank_lt hj lt
    omega

/-! ## Entries -/

theorem addTexts_fixed (texts : List String) (x : Entry) :
    let x' := texts.foldl (fun x text => x.addText text) x
    x'.id = x.id ∧ x'.kind = x.kind ∧ x'.tag = x.tag ∧ x'.level = x.level ∧ x'.parent = x.parent := by
  induction texts generalizing x with
  | nil => exact ⟨rfl, rfl, rfl, rfl, rfl⟩
  | cons text texts ih => exact ih (x.addText text)

theorem Element.entry_fixed (fs : List Fate) (texts : List (Nat × String)) (k : Nat) (e : Element) :
    (e.entry fs texts k).id = ⟨rank fs k⟩ ∧ (e.entry fs texts k).kind = .ofTag e.start.tag ∧
      (e.entry fs texts k).level = e.depth := by
  unfold entry
  dsimp only
  generalize hx : (⟨⟨rank fs k⟩, .ofTag e.start.tag, e.start.tag, e.depth,
    e.around.map fun j => ⟨rank fs j⟩, [], fun _ => ""⟩ : Entry) = bare
  obtain ⟨id, kind, -, level, -⟩ := bare.assignAll_fixed e.start.pairs
  obtain ⟨id', kind', -, level', -⟩ := addTexts_fixed ((Kind.ofTag e.start.tag).keeps (textsIn texts k))
    (bare.assignAll e.start.pairs)
  subst hx
  exact ⟨id'.trans id, kind'.trans kind, level'.trans level⟩

/-- What comes later does not matter to an entry. -/
theorem Element.entry_append (here : k ≤ fs.length) (around : ∀ j ∈ e.around, j ≤ fs.length) (f : Fate) :
    e.entry (fs ++ [f]) texts k = e.entry fs texts k := by
  have parent : (e.around.map fun j => (⟨rank (fs ++ [f]) j⟩ : NodeId)) =
      e.around.map fun j => ⟨rank fs j⟩ :=
    Option.map_congr fun j hj => by rw [rank_append (around j hj)]
  simp only [entry, rank_append here, parent]

theorem textsIn_append (texts : List (Nat × String)) (k j : Nat) (text : String) :
    textsIn (texts ++ [(j, text)]) k = textsIn texts k ++ if j = k then [text] else [] := by
  by_cases same : j = k <;> simp [textsIn, same]

theorem textsIn_eq_nil (h : ∀ p ∈ texts, p.1 < k) : textsIn texts k = [] := by
  rw [textsIn, List.map_eq_nil_iff, List.filter_eq_nil_iff]
  intro p hp
  have := h p hp
  simp
  omega

/-- A text is put behind what the entry of its element holds, if that may hold text. -/
theorem Element.entry_text (fs : List Fate) (texts : List (Nat × String)) (k j : Nat) (text : String)
    (e : Element) : e.entry fs (texts ++ [(j, text)]) k =
      if j = k ∧ (Kind.ofTag e.start.tag).acceptsContent = true then (e.entry fs texts k).addText text
      else e.entry fs texts k := by
  simp only [entry, textsIn_append, Kind.keeps]
  by_cases accepts : (Kind.ofTag e.start.tag).acceptsContent = true
  · by_cases same : j = k <;> simp [accepts, same]
  · simp [accepts]

/-! ## What a tree holds -/

section
variable {limit : Nat} {g : Gathered} {t t' : Tree}

theorem holds_empty (limit : Nat) (sound : t.Sound) (nodes : t.nodes = []) (issued : t.issued = 0) :
    Holds limit {} t where
  sound := sound
  issued := issued
  size := by rw [nodes]; rfl
  entries x := by simp [Tree.entries, nodes]

theorem Holds.congr (h : Holds limit g t) {g' : Gathered} (elements : g'.elements = g.elements)
    (texts : g'.texts = g.texts) : Holds limit g' t := by
  refine ⟨h.sound, elements ▸ h.issued, elements ▸ h.size, ?_⟩
  rw [elements, texts]
  exact h.entries

/-- The element that a start tag makes now. -/
def Gathered.made (g : Gathered) (start : StagedElement) : Element := ⟨start, g.stack.head?, g.stack.length⟩

/-- What becomes of the element that a start tag makes now. -/
def Gathered.fate (limit : Nat) (g : Gathered) (start : StagedElement) : Fate :=
  .of limit (fates limit g.elements) (g.made start)

theorem Gathered.fates_enter (limit : Nat) (g : Gathered) (start : StagedElement) (selfClosing : Bool) :
    fates limit (g.enter start selfClosing).elements =
      fates limit g.elements ++ [g.fate limit start] := fates_append _ _ _

/-- The entries that are due after one more element. -/
theorem Gathered.Laid.due_enter (laid : g.Laid) (start : StagedElement) (selfClosing : Bool) (x : Entry) :
    (∃ (k : Nat) (e : Element), (g.enter start selfClosing).elements[k]? = some e ∧
      (fates limit (g.enter start selfClosing).elements)[k]? = some .placed ∧
      x = e.entry (fates limit (g.enter start selfClosing).elements) g.texts k) ↔
    (g.fate limit start = .placed ∧
      x = (g.made start).entry (fates limit g.elements) g.texts g.elements.length) ∨
    ∃ (k : Nat) (e : Element), g.elements[k]? = some e ∧ (fates limit g.elements)[k]? = some .placed ∧
      x = e.entry (fates limit g.elements) g.texts k := by
  have length := length_fates limit g.elements
  have own : (g.made start).entry (fates limit g.elements ++ [g.fate limit start]) g.texts g.elements.length =
      (g.made start).entry (fates limit g.elements) g.texts g.elements.length :=
    Element.entry_append length.ge (fun j hj => by have := laid.opens.head_lt hj; omega) _
  have old {k : Nat} {e : Element} (here : g.elements[k]? = some e) :
      e.entry (fates limit g.elements ++ [g.fate limit start]) g.texts k =
        e.entry (fates limit g.elements) g.texts k := by
    have bound := (List.getElem?_eq_some_iff.mp here).1
    exact Element.entry_append (by omega) (fun j hj => by have := laid.ordered k e here j hj; omega) _
  rw [fates_enter]
  constructor
  · rintro ⟨k, e, here, placed, rfl⟩
    rw [Gathered.enter, List.getElem?_append] at here
    split at here
    · rename_i bound
      rw [List.getElem?_append_left (by omega)] at placed
      exact .inr ⟨k, e, here, placed, old here⟩
    · rw [List.getElem?_singleton] at here
      split at here
      · obtain rfl : k = g.elements.length := by omega
        obtain rfl : g.made start = e := Option.some.inj here
        rw [List.getElem?_append_right (by omega), length, Nat.sub_self] at placed
        exact .inl ⟨Option.some.inj placed, own⟩
      · cases here
  · rintro (⟨placed, rfl⟩ | ⟨k, e, here, placed, rfl⟩)
    · refine ⟨g.elements.length, g.made start, ?_, ?_, own.symm⟩
      · rw [Gathered.enter, List.getElem?_append_right (Nat.le_refl _), Nat.sub_self]
        rfl
      · rw [List.getElem?_append_right (by omega), length, Nat.sub_self, placed]
        rfl
    · have bound := (List.getElem?_eq_some_iff.mp here).1
      refine ⟨k, e, ?_, ?_, (old here).symm⟩
      · rw [Gathered.enter, List.getElem?_append_left bound, here]
      · rw [List.getElem?_append_left (by omega), placed]

/-- An element that cannot be placed leaves the tree as it is. -/
theorem Holds.refuse (h : Holds limit g t) (laid : g.Laid) {start : StagedElement}
    (refused : g.fate limit start ≠ .placed) (selfClosing : Bool) :
    Holds limit (g.enter start selfClosing) t := by
  have count : (fates limit (g.enter start selfClosing).elements).count .placed =
      (fates limit g.elements).count .placed := by
    rw [g.fates_enter, List.count_append, List.count_singleton, if_neg (by simpa using refused), Nat.add_zero]
  refine ⟨h.sound, h.issued.trans count.symm, h.size.trans count.symm, fun x => (h.entries x).trans ?_⟩
  exact ((laid.due_enter start selfClosing x).trans (or_iff_right fun placed => refused placed.1)).symm

/-- An element that can be placed is one entry more. -/
theorem Holds.place (h : Holds limit g t) (laid : g.Laid) {start : StagedElement}
    (placed : g.fate limit start = .placed) (selfClosing : Bool) {l r : List Entry} {x : Entry}
    (sound : t'.Sound) (issued : t'.issued = t.issued + 1) (old : t.entries = l ++ r)
    (new : t'.entries = l ++ x :: r)
    (made : x = (g.made start).entry (fates limit g.elements) g.texts g.elements.length) :
    Holds limit (g.enter start selfClosing) t' := by
  have count : (fates limit (g.enter start selfClosing).elements).count .placed =
      (fates limit g.elements).count .placed + 1 := by
    rw [g.fates_enter, List.count_append, placed]
    rfl
  have size : t'.entries.length = t.entries.length + 1 := by
    rw [new, old, List.length_append, List.length_append, List.length_cons, Nat.add_assoc]
  rw [Tree.entries, Tree.entries, List.length_map, List.length_map] at size
  refine ⟨sound, by rw [issued, h.issued, count], by rw [size, h.size, count], fun y => ?_⟩
  have there : y ∈ t'.entries ↔ y = x ∨ y ∈ t.entries := by
    rw [new, old]
    simp only [List.mem_append, List.mem_cons]
    exact or_left_comm
  rw [there, h.entries, made]
  exact Iff.trans (or_congr_left (iff_and_self.mpr fun _ => placed)) (laid.due_enter start selfClosing y).symm

/-- A text that no placed element can hold leaves the tree as it is. -/
theorem Holds.ignore (h : Holds limit g t) {k : Nat} (text : String)
    (deaf : ∀ e, g.elements[k]? = some e → (fates limit g.elements)[k]? = some .placed →
      (Kind.ofTag e.start.tag).acceptsContent = false) :
    Holds limit { g with texts := g.texts ++ [(k, text)] } t := by
  refine ⟨h.sound, h.issued, h.size, fun x => (h.entries x).trans ?_⟩
  refine exists_congr fun j => exists_congr fun e => and_congr_right fun here => ?_
  refine and_congr_right fun placed => ?_
  rw [Element.entry_text, if_neg]
  rintro ⟨rfl, accepts⟩
  rw [deaf e here placed] at accepts
  cases accepts

/-- A text goes to the entry of the element that it stands in. -/
theorem Holds.write (h : Holds limit g t) {k : Nat} {e : Element} (text : String)
    (here : g.elements[k]? = some e) (placed : (fates limit g.elements)[k]? = some .placed)
    (accepts : (Kind.ofTag e.start.tag).acceptsContent = true) (sound : t'.Sound)
    (issued : t'.issued = t.issued) (entries : t'.entries = t.entries.map fun x =>
      if x.id = ⟨rank (fates limit g.elements) k⟩ then x.addText text else x) :
    Holds limit { g with texts := g.texts ++ [(k, text)] } t' := by
  have size : t'.entries.length = t.entries.length := by rw [entries, List.length_map]
  rw [Tree.entries, Tree.entries, List.length_map, List.length_map] at size
  have written {j : Nat} {e' : Element} (here' : g.elements[j]? = some e')
      (placed' : (fates limit g.elements)[j]? = some .placed) :
      (if (e'.entry (fates limit g.elements) g.texts j).id = ⟨rank (fates limit g.elements) k⟩ then
        (e'.entry (fates limit g.elements) g.texts j).addText text
      else e'.entry (fates limit g.elements) g.texts j) =
        e'.entry (fates limit g.elements) (g.texts ++ [(k, text)]) j := by
    have named : (e'.entry (fates limit g.elements) g.texts j).id = ⟨rank (fates limit g.elements) k⟩ ↔
        j = k := by
      rw [(Element.entry_fixed _ _ _ _).1, NodeId.mk.injEq, rank_inj placed' placed]
    rw [Element.entry_text]
    by_cases same : j = k
    · subst same
      obtain rfl := Option.some.inj (here.symm.trans here')
      rw [if_pos (named.mpr rfl), if_pos ⟨rfl, accepts⟩]
    · rw [if_neg (mt named.mp same), if_neg fun both => same both.1.symm]
  refine ⟨sound, issued.trans h.issued, size.trans h.size, fun x => ?_⟩
  rw [entries, List.mem_map]
  constructor
  · rintro ⟨y, hy, rfl⟩
    obtain ⟨j, e', here', placed', rfl⟩ := (h.entries y).mp hy
    exact ⟨j, e', here', placed', written here' placed'⟩
  · rintro ⟨j, e', here', placed', rfl⟩
    exact ⟨_, (h.entries _).mpr ⟨j, e', here', placed', rfl⟩, written here' placed'⟩

/-- Every node is within the limit. -/
theorem Holds.level_lt (h : Holds limit g t) {n : Node} (hn : n ∈ t.nodes) : n.level < limit := by
  obtain ⟨k, e, here, placed, made⟩ := (h.entries n.entry).mp (List.mem_map_of_mem hn)
  rw [getElem?_fates here, Option.some.injEq, Fate.of_eq_placed_iff] at placed
  have level : n.level = e.depth := (congrArg Entry.level made).trans (e.entry_fixed _ _ k).2.2
  exact level ▸ placed.2.1

/-- There are no more nodes than elements. -/
theorem Holds.length_le (h : Holds limit g t) : t.nodes.length ≤ g.elements.length := by
  rw [h.size, ← length_fates limit g.elements]
  exact List.count_le_length

/-- A placed element has a node. -/
theorem Holds.exists_node (h : Holds limit g t) {k : Nat} {e : Element} (here : g.elements[k]? = some e)
    (placed : (fates limit g.elements)[k]? = some .placed) : ∃ n ∈ t.nodes,
      n.id = ⟨rank (fates limit g.elements) k⟩ ∧ n.level = e.depth ∧ n.kind = .ofTag e.start.tag := by
  obtain ⟨n, hn, shown⟩ := List.mem_map.mp ((h.entries _).mpr ⟨k, e, here, placed, rfl⟩)
  obtain ⟨id, kind, level⟩ := e.entry_fixed (fates limit g.elements) g.texts k
  exact ⟨n, hn, (congrArg Entry.id shown).trans id, (congrArg Entry.level shown).trans level,
    (congrArg Entry.kind shown).trans kind⟩

end

end

end QueryMarkup
