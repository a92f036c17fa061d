import QueryMarkup.Proofs.Document.Filling
import QueryMarkup.Proofs.Document.Soundness
import QueryMarkup.Proofs.Document.Tags
import QueryMarkup.Proofs.Text.Reference

/-!
# A tree mirrors what was read

After some items the tree has one entry for each start tag, and the stack of the builder
holds the elements that are open. Each item keeps this: a start tag adds an entry, a close
tag takes one element off the stack, a text is added to the innermost open element.
-/
namespace QueryMarkup

open Markup

/-- The texts that a node of this kind keeps. -/
def Kind.keeps (kind : Kind) (texts : List String) : List String :=
  if kind.acceptsContent then texts else []

/-- An entry says what was read of an element: its number, the number of the element
around it, its start tag and its texts. -/
structure Entry.Shows (e : Entry) (k : Nat) (around : Option Nat) (start : StartTag)
    (texts : List String) : Prop where
  id : e.id = ⟨k⟩
  tag : e.tag = start.tag
  kind : e.kind = .ofTag start.tag
  parent : e.parent = around.map NodeId.mk
  attributes : e.Has (start.names ++ if texts = [] then [] else [contentName])
  paired : start.names.length = start.values.length
  values : ∀ name ≠ contentName,
    e.value name = (Entry.lastValue? (start.names.zip start.values) name).getD ""
  content : e.value contentName = " ".intercalate texts
  named : ∀ name ∈ start.names, name ≠ contentName

/-- The tree and the builder are where the items lead to; the elements on the stack are open. -/
structure Mirrors (done : List (Option Nat × Item)) (stack : List Nat) (b : Builder) (t : Tree) :
    Prop where
  sound : t.Sound
  issued : t.issued = (elementsOf done).length
  size : t.nodes.length = (elementsOf done).length
  opened : b.stack.map (·.node) = stack.map fun k => some ⟨k⟩
  live : ∀ k ∈ stack, k < (elementsOf done).length
  root : b.sawRoot = false → elementsOf done = []
  texts : ∀ k, ∀ text ∈ textsOf done k, text ≠ "" ∧ k < (elementsOf done).length
  shows : ∀ k around start, (elementsOf done)[k]? = some (around, start) →
    ∃ e ∈ t.entries, e.Shows k around start ((Kind.ofTag start.tag).keeps (textsOf done k))

section
variable {done : List (Option Nat × Item)} {stack : List Nat} {b b' : Builder} {t : Tree}

theorem Mirrors.congr (h : Mirrors done stack b t) (b' : Builder) (opened : b'.stack = b.stack)
    (root : b'.sawRoot = b.sawRoot) : Mirrors done stack b' t :=
  ⟨h.sound, h.issued, h.size, opened ▸ h.opened, h.live, root ▸ h.root, h.texts, h.shows⟩

theorem Mirrors.of_silent (h : Mirrors done stack b t) (silent : b'.silent = b.silent) :
    Mirrors done stack b' t := by
  have opened : b'.silent.stack = b.silent.stack := by rw [silent]
  have root : b'.silent.sawRoot = b.silent.sawRoot := by rw [silent]
  exact h.congr b' opened root

theorem mirrors_start (limit : Nat) (h : t.nodes = []) (issued : t.issued = 0)
    (sound : t.Sound) : Mirrors [] [] { limit } t where
  sound := sound
  issued := issued
  size := by simp [h, elementsOf]
  opened := rfl
  live := by simp
  root := fun _ => rfl
  texts := by simp [textsOf]
  shows := by simp [elementsOf]

/-- An element that was read has a node. -/
theorem Mirrors.exists_node (h : Mirrors done stack b t) {k : Nat}
    (live : k < (elementsOf done).length) : ∃ n ∈ t.nodes, n.id = ⟨k⟩ := by
  obtain ⟨⟨around, start⟩, hk⟩ : ∃ x, (elementsOf done)[k]? = some x := ⟨_, List.getElem?_eq_getElem live⟩
  obtain ⟨e, he, hshows⟩ := h.shows k around start hk
  obtain ⟨n, hn, rfl⟩ := List.mem_map.mp he
  exact ⟨n, hn, hshows.id⟩

/-! ## A start tag -/

/-- What is not refused may only be a root when there is none. -/
theorem Mirrors.refusal_eq_none (h : Mirrors done stack b t) {e : StagedElement}
    {selfClosing : Bool} (clean : (b.finalize t e selfClosing).1.Clean) :
    b.refusal e = none ∧ (stack = [] → elementsOf done = []) := by
  rcases Builder.refusal_cases h.opened e with
    ⟨accepted, first⟩ | ⟨kind, detail, refused, obscures, -⟩
  · exact ⟨accepted, fun empty => h.root (first empty)⟩
  · exfalso
    rw [Builder.finalize, refused] at clean
    exact Builder.not_clean_report obscures (clean.of_grows (Builder.grows_push _ _ _))

/-- The tree takes a new element in. -/
theorem Mirrors.addParsed (h : Mirrors done stack b t) (kind : Kind) (tag : String)
    (first : stack = [] → elementsOf done = []) :
    ∃ t1 l r level, t.addParsed kind tag (b.stack.head?.bind (·.node)) =
        .ok (t1, ⟨(elementsOf done).length⟩) ∧ t.entries = l ++ r ∧
      t1.entries = l ++ ⟨⟨(elementsOf done).length⟩, kind, tag, level, stack.head?.map NodeId.mk, [],
        fun _ => ""⟩ :: r ∧ t1.issued = (elementsOf done).length + 1 := by
  rw [Builder.parent_of_opened h.opened, ← h.issued]
  cases stack with
  | nil =>
    have empty : t.nodes = [] := by
      rw [← List.length_eq_zero_iff, h.size, first rfl]
      rfl
    obtain ⟨t1, added, entries, issued⟩ := Tree.addParsed_root kind tag none empty
    refine ⟨t1, [], [], 0, added, ?_, entries, issued⟩
    simp [Tree.entries, empty]
  | cons k stack =>
    obtain ⟨n, hn, hid⟩ := h.exists_node (h.live k List.mem_cons_self)
    obtain ⟨before, after, split⟩ := List.append_of_mem hn
    obtain ⟨t1, added, entries, issued⟩ :=
      Tree.addParsed_child kind tag split h.sound.nodup
    rw [hid] at added entries
    refine ⟨t1, _, (after.dropWhile (Tree.passes (n.level + 1) kind.rank)).map Node.entry,
      n.level + 1, added, ?_, entries, issued⟩
    rw [← List.map_append, List.append_assoc, List.cons_append, List.takeWhile_append_dropWhile,
      ← split]
    rfl

/-- Names and values of attributes that all have a value. -/
theorem pairsOf_eq_zip {attributes : List StagedAttribute}
    (h : ∀ a ∈ attributes, a.value.isSome = true) :
    Builder.pairsOf attributes =
        (attributes.map (·.name)).zip (attributes.filterMap (·.value)) ∧
      (attributes.map (·.name)).length = (attributes.filterMap (·.value)).length := by
  induction attributes with
  | nil => exact ⟨rfl, rfl⟩
  | cons a attributes ih =>
    obtain ⟨here, later⟩ := List.forall_mem_cons.mp h
    obtain ⟨value, hv⟩ := Option.isSome_iff_exists.mp here
    obtain ⟨pairs, lengths⟩ := ih later
    rw [Builder.pairsOf] at pairs ⊢
    rw [List.map_cons, List.map_cons, List.filterMap_cons_some hv, List.zip_cons_cons, pairs, hv]
    exact ⟨rfl, congrArg (· + 1) lengths⟩

/-- A new element with its attributes shows its start tag. -/
theorem shows_fresh (k level : Nat) (around : Option Nat) (e : StagedElement) (selfClosing : Bool)
    (values : ∀ a ∈ e.attributes, a.value.isSome = true) (named : ∀ name ∈ e.names, name ≠ contentName) :
    (Entry.assignAll (Builder.pairsOf e.attributes) ⟨⟨k⟩, .ofTag e.tag, e.tag, level,
      around.map NodeId.mk, [], fun _ => ""⟩).Shows k around ⟨e.tag, e.names, e.values, selfClosing⟩ [] := by
  obtain ⟨pairs, lengths⟩ := pairsOf_eq_zip values
  generalize hx : (⟨⟨k⟩, .ofTag e.tag, e.tag, level, around.map NodeId.mk, [], fun _ => ""⟩ : Entry) = x
  obtain ⟨id, kind, tag, -, parent⟩ := x.assignAll_fixed (Builder.pairsOf e.attributes)
  have has : x.Has [] := by
    subst hx
    simp [Entry.Has, Kind.arrange]
  have own : ∀ name, x.value name = "" := by
    subst hx
    exact fun _ => rfl
  have names : (Builder.pairsOf e.attributes).map (·.1) = e.names := by
    rw [Builder.pairsOf, List.map_map]
    rfl
  refine ⟨id.trans (hx ▸ rfl), tag.trans (hx ▸ rfl), kind.trans (hx ▸ rfl), parent.trans (hx ▸ rfl),
    ?_, lengths, ?_, ?_, named⟩
  · have := has.assignAll (Builder.pairsOf e.attributes)
    rw [names, List.nil_append] at this
    rwa [if_pos rfl, List.append_nil]
  · intro name _
    rw [Entry.value_assignAll, own, pairs]
    rfl
  · have absent : contentName ∉ (Builder.pairsOf e.attributes).map (·.1) := by
      rw [names]
      exact fun hm => named _ hm rfl
    rw [Entry.value_assignAll, own, Entry.lastValue?_of_not_mem absent]
    rfl

theorem elementsOf_start (done : List (Option Nat × Item)) (around : Option Nat)
    (start : StartTag) :
    elementsOf (done ++ [(around, .start start)]) = elementsOf done ++ [(around, start)] :=
  elementsOf_append _ _

theorem textsOf_start (done : List (Option Nat × Item)) (around : Option Nat) (start : StartTag)
    (k : Nat) : textsOf (done ++ [(around, .start start)]) k = textsOf done k := by
  rw [textsOf_append]
  simp [textsOf]

/-- No text is in an element that was not read. -/
theorem Mirrors.textsOf_eq_nil (h : Mirrors done stack b t) :
    textsOf done (elementsOf done).length = [] := by
  cases hs : textsOf done (elementsOf done).length with
  | nil => rfl
  | cons text rest =>
    have before := (h.texts _ text (hs ▸ List.mem_cons_self)).2
    exact absurd before (Nat.lt_irrefl _)

/-- The number of the next element is not in use. -/
theorem Mirrors.unseen (h : Mirrors done stack b t) :
    (⟨(elementsOf done).length⟩ : NodeId) ∉ t.ids := by
  rw [← h.issued]
  exact h.sound.issued_not_mem

/-- What a start tag adds, given the entry that it makes. -/
theorem Mirrors.add_element {t' : Tree} {x : Entry} {start : StartTag} {l r : List Entry}
    (h : Mirrors done stack b t) (sound : t'.Sound)
    (issued : t'.issued = (elementsOf done).length + 1) (old : t.entries = l ++ r)
    (new : t'.entries = l ++ x :: r)
    (shows : x.Shows (elementsOf done).length stack.head? start [])
    (saw : b'.sawRoot = true) (opened : b'.stack.map (·.node) =
      (if start.selfClosing then stack else (elementsOf done).length :: stack).map
        fun k => some ⟨k⟩) :
    Mirrors (done ++ [(stack.head?, .start start)])
      (if start.selfClosing then stack else (elementsOf done).length :: stack) b' t' := by
  have more : (elementsOf (done ++ [(stack.head?, .start start)])).length =
      (elementsOf done).length + 1 := by
    rw [elementsOf_start, List.length_append, List.length_singleton]
  refine ⟨sound, issued.trans more.symm, ?_, opened, ?_, ?_, ?_, ?_⟩
  · have size : t'.entries.length = t.entries.length + 1 := by
      rw [new, old]
      simp
      omega
    rw [Tree.entries, Tree.entries, List.length_map, List.length_map] at size
    rw [size, h.size, more]
  · intro k hk
    rw [more]
    have open' : k = (elementsOf done).length ∨ k ∈ stack := by
      split at hk
      · exact .inr hk
      · exact List.mem_cons.mp hk
    rcases open' with rfl | hk
    · exact Nat.lt_succ_self _
    · exact Nat.lt_succ_of_lt (h.live k hk)
  · intro unseen
    rw [saw] at unseen
    cases unseen
  · intro k text hm
    rw [textsOf_start] at hm
    rw [more]
    exact ⟨(h.texts k text hm).1, Nat.lt_succ_of_lt (h.texts k text hm).2⟩
  · intro k around start' hk
    rw [elementsOf_start] at hk
    rw [textsOf_start]
    rcases Nat.lt_or_ge k (elementsOf done).length with before | after
    · rw [List.getElem?_append_left before] at hk
      obtain ⟨y, hy, shown⟩ := h.shows k around start' hk
      refine ⟨y, ?_, shown⟩
      rw [old] at hy
      rw [new]
      rcases List.mem_append.mp hy with hy | hy <;> simp [hy]
    · rw [List.getElem?_append_right after, List.getElem?_singleton] at hk
      split at hk
      · have last : k = (elementsOf done).length := by omega
        cases hk
        refine ⟨x, new ▸ List.mem_append_right l List.mem_cons_self, ?_⟩
        rw [last, h.textsOf_eq_nil, Kind.keeps, ite_self]
        exact shows
      · cases hk

/-- A start tag that has ended becomes the next element. -/
theorem Mirrors.start (h : Mirrors done stack b t) {e : StagedElement} (selfClosing : Bool)
    (clean : (b.finalize t e selfClosing).1.Clean)
    (named : ∀ name ∈ e.names, name ≠ contentName) :
    ∃ b' t', b.finalize t e selfClosing = (b', t') ∧
      b'.staged = b.staged ∧
      Mirrors (done ++ [(stack.head?, .start ⟨e.tag, e.names, e.values, selfClosing⟩)])
        (if selfClosing then stack else (elementsOf done).length :: stack) b' t' := by
  obtain ⟨accepted, first⟩ := h.refusal_eq_none clean
  obtain ⟨t1, l, r, level, added, old, new, issued1⟩ := h.addParsed (.ofTag e.tag) e.tag first
  have values : ∀ a ∈ e.attributes, a.value.isSome = true := by
    rw [Builder.finalize_added accepted added] at clean
    exact Builder.value_of_clean (clean.of_grows (Builder.grows_push _ _ _))
  obtain ⟨b', t', final, entries, issued, silent, -⟩ :=
    Builder.finalize_entries selfClosing accepted values added old new h.sound.nodup h.unseen
  obtain ⟨-, staged, saw, opened⟩ := Builder.opened_of_silent h.opened silent
  have sound : t'.Sound := by
    have := Tree.sound_invariant.finalize b e selfClosing h.sound
    rwa [final] at this
  have shows := shows_fresh (elementsOf done).length level stack.head? e selfClosing values named
  exact ⟨b', t', final, staged,
    h.add_element sound (issued.trans issued1) old entries shows saw opened⟩

/-- A name that a start tag has twice is reported. -/
theorem Mirrors.twice (h : Mirrors done stack b t) {e : StagedElement} (selfClosing : Bool)
    (clean : (b.finalize t e selfClosing).1.Clean) :
    e.names.Nodup ∨ ∃ d ∈ (b.finalize t e selfClosing).1.diagnostics, d.kind = .duplicateAttribute := by
  obtain ⟨accepted, first⟩ := h.refusal_eq_none clean
  obtain ⟨t1, l, r, level, added, -⟩ := h.addParsed (.ofTag e.tag) e.tag first
  rw [Builder.finalize_added accepted added]
  rcases @Builder.readAttributes_twice ⟨(elementsOf done).length⟩ e.attributes _ with
    ⟨distinct, -⟩ | ⟨d, hd, kind⟩
  · exact .inl distinct
  · exact .inr ⟨d, Builder.grows_push _ _ _ hd, kind⟩

/-! ## A close tag -/

/-- A close tag closes the innermost open element. -/
theorem Mirrors.close (h : Mirrors done stack b t) (span : Text.Range) :
    Mirrors (done ++ [(stack.head?, .close)]) stack.tail (b.close span) t := by
  have more : elementsOf (done ++ [(stack.head?, .close)]) = elementsOf done := by
    rw [elementsOf_append]
    simp [elementsOf]
  have texts (k : Nat) : textsOf (done ++ [(stack.head?, .close)]) k = textsOf done k := by
    rw [textsOf_append]
    simp [textsOf]
  have kept : (b.close span).sawRoot = b.sawRoot ∧ (b.close span).stack = b.stack.tail := by
    cases stack : b.stack with
    | nil =>
      rw [Builder.close_nil stack]
      exact ⟨rfl, stack⟩
    | cons o rest =>
      rw [Builder.close_cons stack]
      exact ⟨rfl, rfl⟩
  refine ⟨h.sound, ?_, ?_, ?_, ?_, ?_, ?_, ?_⟩
  · rw [more]
    exact h.issued
  · rw [more]
    exact h.size
  · rw [kept.2, List.map_tail, h.opened, List.map_tail]
  · rw [more]
    exact fun k hk => h.live k (List.mem_of_mem_tail hk)
  · rw [more, kept.1]
    exact h.root
  · intro k text hm
    rw [texts] at hm
    rw [more]
    exact h.texts k text hm
  · intro k around start hk
    rw [more] at hk
    rw [texts]
    exact h.shows k around start hk

/-! ## A text -/

theorem elementsOf_text (done : List (Option Nat × Item)) (around : Option Nat) (text : String) :
    elementsOf (done ++ [(around, .text text)]) = elementsOf done := by
  rw [elementsOf_append]
  simp [elementsOf]

theorem textsOf_text (done : List (Option Nat × Item)) (around : Option Nat) (text : String) (k : Nat) :
    textsOf (done ++ [(around, .text text)]) k =
      textsOf done k ++ if around = some k then [text] else [] := by
  rw [textsOf_append]
  cases around with
  | none => simp [textsOf]
  | some j => by_cases hj : j = k <;> simp [textsOf, hj]

/-- What a text adds, given what it does to the nodes. -/
theorem Mirrors.add_text {t' : Tree} (h : Mirrors done stack b t) {text : String} (ht : text ≠ "")
    (sound : t'.Sound) (issued : t'.issued = t.issued) (size : t'.nodes.length = t.nodes.length)
    (shows : ∀ k around start, (elementsOf done)[k]? = some (around, start) → ∃ e ∈ t'.entries,
      e.Shows k around start ((Kind.ofTag start.tag).keeps
        (textsOf done k ++ if stack.head? = some k then [text] else []))) :
    Mirrors (done ++ [(stack.head?, .text text)]) stack b t' := by
  refine ⟨sound, ?_, ?_, h.opened, ?_, ?_, ?_, ?_⟩
  · rw [elementsOf_text, issued]
    exact h.issued
  · rw [elementsOf_text, size]
    exact h.size
  · rw [elementsOf_text]
    exact h.live
  · rw [elementsOf_text]
    exact h.root
  · intro k text' hm
    rw [textsOf_text] at hm
    rw [elementsOf_text]
    rcases List.mem_append.mp hm with hm | hm
    · exact h.texts k text' hm
    · split at hm
      · rename_i top
        cases List.mem_singleton.mp hm
        exact ⟨ht, h.live k (List.mem_of_mem_head? top)⟩
      · cases hm
  · intro k around start hk
    rw [elementsOf_text] at hk
    rw [textsOf_text]
    exact shows k around start hk

/-- A text is ignored where there is no element to hold it. -/
theorem Mirrors.ignore_text (h : Mirrors done stack b t) {text : String} (ht : text ≠ "")
    (refused : ∀ k ∈ stack.head?, ∀ n, t.node? ⟨k⟩ = some n → n.kind.acceptsContent = false) :
    Mirrors (done ++ [(stack.head?, .text text)]) stack b t := by
  refine h.add_text ht h.sound rfl rfl fun k around start hk => ?_
  obtain ⟨e, he, shows⟩ := h.shows k around start hk
  refine ⟨e, he, ?_⟩
  split
  · rename_i top
    obtain ⟨n, hn, rfl⟩ := List.mem_map.mp he
    have found : t.node? ⟨k⟩ = some n := by
      rw [← shows.id]
      exact Tree.node?_of_mem h.sound.nodup hn
    have kind : (Kind.ofTag start.tag).acceptsContent = false := by
      rw [← shows.kind]
      exact refused k top n found
    simpa [Kind.keeps, kind] using shows
  · simpa using shows

theorem intercalate_append_singleton {texts : List String} (h : texts ≠ []) (text : String) :
    " ".intercalate (texts ++ [text]) = " ".intercalate texts ++ " " ++ text := by
  rw [String.intercalate_append_of_ne_nil h (by simp), String.intercalate_singleton]

/-- One more text of an element is put behind the others. -/
theorem Entry.Shows.add_text {e : Entry} {k : Nat} {around : Option Nat} {start : StartTag}
    {texts : List String} (h : e.Shows k around start texts) (some : ∀ text ∈ texts, text ≠ "")
    (text : String) : (e.addText text).Shows k around start (texts ++ [text]) := by
  have empty : (e.value contentName).isEmpty = true ↔ texts = [] := by
    rw [h.content]
    cases texts with
    | nil => simp
    | cons first rest =>
      have ne := some first List.mem_cons_self
      cases rest with
      | nil => simp [ne]
      | cons next rest => simp [String.intercalate_cons_cons, ne]
  refine ⟨h.id, h.tag, h.kind, h.parent, ?_, h.paired, ?_, ?_, h.named⟩
  · unfold Entry.addText
    generalize (if (e.value contentName).isEmpty then text
      else e.value contentName ++ " " ++ text) = value
    have has := h.attributes.assign contentName value
    rw [if_neg (by simp)]
    by_cases none : texts = []
    · rwa [if_pos none, List.append_nil] at has
    · rw [if_neg none] at has
      rw [Entry.Has, Kind.arrange_of_mem (by simp)] at has
      exact has
  · intro name hn
    rw [← h.values name hn, Entry.addText, Entry.assign]
    exact if_neg hn
  · rw [Entry.addText, Entry.assign]
    dsimp only
    rw [if_pos rfl]
    by_cases none : texts = []
    · rw [if_pos (empty.mpr none), none, List.nil_append, String.intercalate_singleton]
    · rw [if_neg fun he => none (empty.mp he), h.content, intercalate_append_singleton none]

/-- A text is added to the innermost open element, given what it does to the entries. -/
theorem Mirrors.accept_text {t' : Tree} {k : Nat} {n : Node} {text : String}
    (h : Mirrors done (k :: stack) b t) (ht : text ≠ "") (hn : n ∈ t.nodes) (id : n.id = ⟨k⟩)
    (accepts : n.kind.acceptsContent = true) (sound : t'.Sound) (issued : t'.issued = t.issued)
    (entries : t'.entries = t.entries.map fun e => if e.id = n.id then e.addText text else e) :
    Mirrors (done ++ [(some k, .text text)]) (k :: stack) b t' := by
  have size : t'.entries.length = t.entries.length := by rw [entries, List.length_map]
  rw [Tree.entries, Tree.entries, List.length_map, List.length_map] at size
  refine h.add_text ht sound issued size fun j around start hj => ?_
  obtain ⟨x, hx, shows⟩ := h.shows j around start hj
  refine ⟨_, entries ▸ List.mem_map_of_mem hx, ?_⟩
  by_cases same : k = j
  · subst same
    have here : x.id = n.id := shows.id.trans id.symm
    obtain ⟨m, hm, rfl⟩ := List.mem_map.mp hx
    obtain rfl : m = n := List.inj_on_of_nodup_map h.sound.nodup hm hn here
    have kind : (Kind.ofTag start.tag).acceptsContent = true := by
      rw [← shows.kind]
      exact accepts
    rw [Kind.keeps, if_pos kind] at shows ⊢
    rw [if_pos here, List.head?_cons, if_pos rfl]
    exact shows.add_text (fun text hm => (h.texts k text hm).1) text
  · have other : x.id ≠ n.id := by
      rw [shows.id, id]
      exact fun e => same (NodeId.mk.inj e).symm
    rw [if_neg other, List.head?_cons, if_neg (by simpa using same), List.append_nil]
    exact shows

theorem textOf_ne_empty {chars : List Char} (shown : Text.isAllBlank chars = false) :
    textOf chars ≠ "" := by
  intro empty
  have none := congrArg String.toList empty
  rw [textOf, String.toList_ofList] at none
  rw [Text.trim_eq_nil.mp (Text.decodeChars_eq_nil none)] at shown
  cases shown

/-- A text becomes part of the innermost open element, if that may hold text. -/
theorem Mirrors.text (h : Mirrors done stack b t) {chars : List Char}
    (shown : Text.isAllBlank chars = false) (span : Text.Range) :
    ∃ b' t', b.readText t span chars = (b', t') ∧ b'.silent = b.silent ∧
      Mirrors (done ++ [(stack.head?, .text (textOf chars))]) stack b' t' := by
  have ht := textOf_ne_empty shown
  cases stack with
  | nil =>
    have none : b.stack = [] := List.map_eq_nil_iff.mp h.opened
    obtain ⟨b', read, silent⟩ :=
      Builder.readText_refused (b := b) h.sound.nodup (by simp [none]) shown span
    exact ⟨b', t, read, silent, (h.ignore_text ht (by simp)).of_silent silent⟩
  | cons k stack =>
    obtain ⟨o, rest, top, node, -⟩ := Builder.top_of_opened h.opened
    obtain ⟨n, hn, id⟩ := h.exists_node (h.live k List.mem_cons_self)
    rw [← id] at node
    have first : b.stack.head? = some o := by rw [top, List.head?_cons]
    cases accepts : n.kind.acceptsContent with
    | false =>
      obtain ⟨b', read, silent⟩ := Builder.readText_refused h.sound.nodup
        (fun p hp => ⟨n, hn, Option.some.inj (first.symm.trans hp) ▸ node, accepts⟩) shown span
      refine ⟨b', t, read, silent, (h.ignore_text ht fun j hj m hm => ?_).of_silent silent⟩
      obtain rfl : k = j := Option.some.inj hj
      have found := Tree.node?_of_mem h.sound.nodup hn
      rw [id, hm] at found
      rw [Option.some.inj found]
      exact accepts
    | true =>
      obtain ⟨t', read, issued, entries⟩ :=
        Builder.readText_accepted h.sound.nodup first node hn accepts shown span
      have sound : t'.Sound := by
        have := Tree.sound_invariant.readText b span chars h.sound
        rwa [read] at this
      exact ⟨b, t', read, rfl, h.accept_text ht hn id accepts sound issued entries⟩

end

end QueryMarkup
