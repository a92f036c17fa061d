import Mathlib.Data.List.Chain
import QueryMarkup.Proofs.Markup.Writing
import QueryMarkup.Proofs.Tree.Entries
import QueryMarkup.Proofs.Tree.Sound

/-!
# Sketches

The sketch of a node is what its element says when it is written: kind, tag, level and the
attributes that have a value. The sketches of a tree determine its markup.
-/
namespace QueryMarkup

structure Sketch where
  kind : Kind
  tag : String
  level : Nat
  pairs : List (String × String)
  deriving DecidableEq

def Node.sketch (n : Node) : Sketch := ⟨n.kind, n.tag, n.level, n.pairs⟩

def Tree.sketches (t : Tree) : List Sketch := t.nodes.map Node.sketch

namespace Sketch

def value? (x : Sketch) (name : String) : Option String :=
  (x.pairs.find? fun p => p.1 == name).map (·.2)

/-- The text of the element as it is written. -/
def text (x : Sketch) : List Char := Text.encodeChars ((x.value? contentName).getD "").toList

/-- The attributes that stand in the start tag. -/
def plain (x : Sketch) : List (String × String) := x.pairs.filter fun p => p.1 != contentName

/-- The element has children: what comes next is deeper. -/
def leads (x : Sketch) (rest : List Sketch) : Bool := rest.head?.any fun y => decide (x.level < y.level)

/-- What is said of an element before its text is read. -/
def bare (x : Sketch) : Sketch := { x with pairs := x.plain }

/-- The text of the element without the blanks at its ends, if anything is left of it. -/
def content? (x : Sketch) : Option String :=
  ((x.value? contentName).map Text.trimmed).filter (!·.isEmpty)

/-- What is said of an element once its text has been written and read. -/
def trimmed (x : Sketch) : Sketch :=
  { x with pairs := x.content?.toList.map (contentName, ·) ++ x.plain }

/-- The element can be written and read again: its tag is a name and determines its kind, and
its attributes stand in their order, under names. -/
structure Legible (x : Sketch) : Prop where
  tag : Markup.isName x.tag.toList = true
  kind : Kind.ofTag x.tag = x.kind
  distinct : (x.pairs.map (·.1)).Nodup
  sorted : x.pairs.Pairwise fun p q =>
    (x.kind.bareAttribute p.1).order ≤ (x.kind.bareAttribute q.1).order
  filled : ∀ p ∈ x.pairs, p.2 ≠ ""
  named : ∀ p ∈ x.pairs, Markup.isName p.1.toList = true ∨
    p.1 = contentName ∧ x.kind.acceptsContent = true

/-- The kind of the element around one that stands on a level behind others. -/
def parentKind (before : List Sketch) (level : Nat) : Option Kind :=
  (before.reverse.find? fun y => decide (y.level < level)).map (·.kind)

/-- Findings of this kind are reported about an element that stands behind others: about its
tag or its place, or about a name that is not declared. -/
def Blamed (before : List Sketch) (x : Sketch) (kind : DiagnosticKind) : Prop :=
  kind ∈ (checkPlacement x.kind x.tag (parentKind before x.level)).map (·.kind) ∨
    kind = .unknownAttribute ∧ ∃ p ∈ x.plain, x.kind.attribute? p.1 = none

/-- Findings of this kind are reported about one of some elements in preorder. -/
def Faulty (xs : List Sketch) (kind : DiagnosticKind) : Prop :=
  ∃ before x after, xs = before ++ x :: after ∧ Blamed before x kind

/-- Sketches in preorder: levels go down one at a time, and siblings are in order. -/
structure Treelike (xs : List Sketch) : Prop where
  root : ∀ x ∈ xs.head?, x.level = 0
  steps : xs.IsChain fun x y => 0 < y.level ∧ y.level ≤ x.level + 1
  ranked : ∀ before x between y after, xs = before ++ x :: (between ++ y :: after) →
    (∀ z ∈ between, x.level ≤ z.level) → y.level = x.level → x.kind.rank ≤ y.kind.rank

end Sketch

/-! ## The text comes first -/

theorem Kind.order_pos (kind : Kind) :
    ∀ spec ∈ kind.attributes, spec.name ≠ contentName → 0 < spec.order := by
  cases kind <;> decide

theorem Kind.order_content (kind : Kind) :
    ∀ spec ∈ kind.attributes, spec.name = contentName → spec.order = 0 := by
  cases kind <;> decide

theorem Kind.order_bareAttribute_pos {kind : Kind} {name : String} (h : name ≠ contentName) :
    0 < (kind.bareAttribute name).order := by
  cases hs : kind.attribute? name with
  | none =>
    rw [order_bareAttribute_of_none hs]
    decide
  | some spec =>
    obtain ⟨hm, rfl⟩ := attribute?_eq_some hs
    rw [order_bareAttribute_of_some hs]
    exact kind.order_pos spec hm h

theorem Kind.order_bareAttribute_content {kind : Kind} (h : kind.acceptsContent = true) :
    (kind.bareAttribute contentName).order = 0 := by
  obtain ⟨spec, hs⟩ := Option.isSome_iff_exists.mp h
  obtain ⟨hm, name⟩ := attribute?_eq_some hs
  rw [order_bareAttribute_of_some hs]
  exact kind.order_content spec hm name

theorem not_isName_contentName : Markup.isName contentName.toList = false := by decide

namespace Sketch

variable {x : Sketch}

theorem mem_plain {p : String × String} : p ∈ x.plain ↔ p ∈ x.pairs ∧ p.1 ≠ contentName := by
  simp [plain]

theorem Legible.isName (h : x.Legible) {p : String × String} (hp : p ∈ x.plain) :
    Markup.isName p.1.toList = true := by
  obtain ⟨hm, hne⟩ := mem_plain.mp hp
  rcases h.named p hm with named | ⟨e, -⟩
  · exact named
  · exact absurd e hne

/-- The pairs are the text, if there is one, and the attributes of the start tag. -/
theorem Legible.pairs_eq (h : x.Legible) :
    x.value? contentName = none ∧ x.pairs = x.plain ∨
      ∃ v, x.value? contentName = some v ∧ x.pairs = (contentName, v) :: x.plain ∧ v ≠ "" ∧
        x.kind.acceptsContent = true := by
  by_cases hc : contentName ∈ x.pairs.map (·.1)
  · right
    obtain ⟨⟨name, v⟩, hm, e⟩ := List.mem_map.mp hc
    obtain rfl : name = contentName := e
    have accepts : x.kind.acceptsContent = true := by
      rcases h.named _ hm with named | ⟨-, accepts⟩
      · rw [not_isName_contentName] at named
        cases named
      · exact accepts
    obtain ⟨l, r, split⟩ := List.append_of_mem hm
    have sorted := h.sorted
    have distinct := h.distinct
    rw [split] at sorted distinct
    -- nothing can stand before the text
    have front : l = [] := by
      cases l with
      | nil => rfl
      | cons p l =>
        have le := (List.pairwise_append.mp sorted).2.2 p List.mem_cons_self _ List.mem_cons_self
        rw [Kind.order_bareAttribute_content accepts] at le
        have ne : p.1 ≠ contentName := by
          simp only [List.map_append, List.map_cons, List.nodup_append] at distinct
          exact distinct.2.2 _ List.mem_cons_self _ List.mem_cons_self
        have pos : 0 < (x.kind.bareAttribute p.1).order := Kind.order_bareAttribute_pos ne
        exact absurd pos (Nat.not_lt.mpr le)
    subst front
    rw [List.nil_append] at split distinct
    have rest : r.filter (fun p => p.1 != contentName) = r := by
      refine List.filter_eq_self.mpr fun p hp => ?_
      rw [List.map_cons, List.nodup_cons] at distinct
      have ne : p.1 ≠ contentName := fun e => distinct.1 (List.mem_map.mpr ⟨p, hp, e⟩)
      simpa using ne
    refine ⟨v, ?_, ?_, h.filled _ hm, accepts⟩
    · simp [value?, split]
    · rw [plain, split]
      simp [rest]
  · left
    have other : ∀ p ∈ x.pairs, p.1 ≠ contentName := fun p hp e => hc (e ▸ List.mem_map_of_mem hp)
    constructor
    · simpa [value?] using other
    · exact (List.filter_eq_self.mpr (by simpa using other)).symm

/-! ## What is left of a sketch -/

@[simp] theorem plain_bare (x : Sketch) : x.bare.plain = x.plain := by
  simp [bare, plain]

@[simp] theorem plain_trimmed (x : Sketch) : x.trimmed.plain = x.plain := by
  cases h : x.content? <;> simp [trimmed, plain, h]

@[simp] theorem bare_bare (x : Sketch) : x.bare.bare = x.bare :=
  congrArg (Sketch.mk x.kind x.tag x.level) x.plain_bare

@[simp] theorem bare_trimmed (x : Sketch) : x.trimmed.bare = x.bare :=
  congrArg (Sketch.mk x.kind x.tag x.level) x.plain_trimmed

theorem Faulty.append {xs : List Sketch} {kind : DiagnosticKind} (h : Faulty xs kind)
    (ys : List Sketch) : Faulty (xs ++ ys) kind := by
  obtain ⟨before, x, after, rfl, blamed⟩ := h
  exact ⟨before, x, after ++ ys, by simp, blamed⟩

/-- The text that is left, or none, is the trimmed text. -/
theorem getD_content? (x : Sketch) :
    x.content?.getD "" = Text.trimmed ((x.value? contentName).getD "") := by
  rw [content?]
  cases x.value? contentName with
  | none => rfl
  | some v =>
    by_cases empty : (Text.trimmed v).isEmpty = true
    · simpa [Option.filter, empty] using (String.isEmpty_iff.mp empty).symm
    · simp [Option.filter, empty]

/-- What is left of the written text when it is trimmed is the trimmed text in its written form. -/
theorem trim_text (x : Sketch) {blanks : List Char} (blank : ∀ c ∈ blanks, Text.isBlank c = true) :
    Text.trim (x.text ++ blanks) = Text.encodeChars (x.content?.getD "").toList := by
  rw [text, Text.trim_encodeChars_append _ blank, getD_content?, Text.trimmed, String.toList_ofList]

theorem ne_empty_of_content? {v : String} (h : x.content? = some v) : v ≠ "" := by
  simpa using (Option.filter_eq_some_iff.mp h).2

theorem trimmed_eq_bare (h : x.content? = none) : x.trimmed = x.bare := by
  rw [trimmed, h]
  rfl

/-- Where nothing is written, nothing is left. -/
theorem content?_eq_none (silent : x.text = []) : x.content? = none := by
  have left := @trim_text x [] (by simp)
  rw [silent, List.append_nil] at left
  cases h : x.content? with
  | none => rfl
  | some v =>
    rw [h, Option.getD_some, eq_comm] at left
    have nothing := Text.encodeChars_eq_nil.mp (left.trans rfl)
    exact absurd (String.toList_injective nothing) (ne_empty_of_content? h)

theorem value?_trimmed (x : Sketch) : x.trimmed.value? contentName = x.content? := by
  have other : x.plain.find? (fun p => p.1 == contentName) = none :=
    List.find?_eq_none.mpr fun p hp named => (mem_plain.mp hp).2 (eq_of_beq named)
  cases h : x.content? <;> simp [trimmed, value?, h, other]

theorem trimmed_trimmed (x : Sketch) : x.trimmed.trimmed = x.trimmed := by
  have content : x.trimmed.content? = x.content? := by
    rw [content?, value?_trimmed, content?]
    cases x.value? contentName with
    | none => rfl
    | some v =>
      have again : Text.trimmed (Text.trimmed v) = Text.trimmed v := by
        rw [Text.trimmed, Text.trimmed, String.toList_ofList,
          Text.trim_eq_self_iff.mpr (Text.tight_trim v.toList)]
      by_cases empty : (Text.trimmed v).isEmpty = true <;> simp [Option.filter, empty, again]
  rw [trimmed, content, plain_trimmed]
  rfl

/-- A sketch with some of the names of a legible one is legible. -/
theorem Legible.of_sublist {y : Sketch} (h : x.Legible) (kind : y.kind = x.kind) (tag : y.tag = x.tag)
    (names : (y.pairs.map (·.1)).Sublist (x.pairs.map (·.1))) (filled : ∀ p ∈ y.pairs, p.2 ≠ "") :
    y.Legible where
  tag := tag ▸ h.tag
  kind := by rw [tag, kind, h.kind]
  distinct := h.distinct.sublist names
  sorted := by
    have sorted : (x.pairs.map (·.1)).Pairwise fun p q =>
        (x.kind.bareAttribute p).order ≤ (x.kind.bareAttribute q).order := List.pairwise_map.mpr h.sorted
    have chosen := List.pairwise_map.mp (sorted.sublist names)
    rw [kind]
    exact chosen
  filled := filled
  named := by
    intro p hp
    obtain ⟨q, hq, e⟩ := List.mem_map.mp (names.subset (List.mem_map_of_mem hp))
    rw [kind, ← e]
    exact h.named q hq

theorem Legible.trimmed (h : x.Legible) : x.trimmed.Legible := by
  have plain : ∀ p ∈ x.plain, p.2 ≠ "" := fun p hp => h.filled p (mem_plain.mp hp).1
  have pairs : x.trimmed.pairs = x.content?.toList.map (contentName, ·) ++ x.plain := rfl
  refine h.of_sublist rfl rfl ?_ ?_
  · rw [pairs]
    rcases h.pairs_eq with ⟨none, -⟩ | ⟨v, some, split, -⟩
    · rw [content?, none]
      exact (List.filter_sublist).map _
    · rw [split, content?, some]
      by_cases empty : (Text.trimmed v).isEmpty = true <;> simp [Option.filter, empty]
  · intro p hp
    rw [pairs] at hp
    rcases List.mem_append.mp hp with hp | hp
    · obtain ⟨v, hv, rfl⟩ := List.mem_map.mp hp
      have left := (Option.filter_eq_some_iff.mp (Option.mem_toList.mp hv)).2
      simpa using left
    · exact plain p hp

/-- A sketch whose text has no blanks at its ends stays as it is. -/
theorem Legible.trimmed_eq (h : x.Legible)
    (tight : ∀ v ∈ x.value? contentName, Text.Tight v.toList) : x.trimmed = x := by
  suffices pairs : x.trimmed.pairs = x.pairs from congrArg (Sketch.mk x.kind x.tag x.level) pairs
  rcases h.pairs_eq with ⟨none, pairs⟩ | ⟨v, some, pairs, filled, -⟩
  · rw [Sketch.trimmed, content?, none]
    exact pairs.symm
  · have same : Text.trimmed v = v := by
      rw [Text.trimmed, Text.trim_eq_self_iff.mpr (tight v some), String.ofList_toList]
    rw [Sketch.trimmed, content?, some, pairs]
    simp [Option.filter, same, filled]

section
variable {xs : List Sketch} {limit : Nat}

theorem map_bare_trimmed (xs : List Sketch) : (xs.map trimmed).map bare = xs.map bare := by
  rw [List.map_map]
  exact List.map_congr_left fun x _ => x.bare_trimmed

theorem map_trimmed_trimmed (xs : List Sketch) : (xs.map trimmed).map trimmed = xs.map trimmed := by
  rw [List.map_map]
  exact List.map_congr_left fun x _ => x.trimmed_trimmed

theorem map_trimmed_eq (legible : ∀ x ∈ xs, x.Legible)
    (tight : ∀ x ∈ xs, ∀ v ∈ x.value? contentName, Text.Tight v.toList) : xs.map trimmed = xs :=
  (List.map_congr_left fun x hx => (legible x hx).trimmed_eq (tight x hx)).trans (List.map_id xs)

theorem levels_trimmed (h : ∀ x ∈ xs, x.level < limit) : ∀ y ∈ xs.map trimmed, y.level < limit := by
  intro y hy
  obtain ⟨x, hx, rfl⟩ := List.mem_map.mp hy
  exact h x hx

end

end Sketch

/-! ## The pairs of a node -/

namespace Node

/-- What is found among the pairs is what the attribute of the name holds. -/
theorem value?_sketch (n : Node) (name : String) :
    n.sketch.value? name = ((n.attribute? name).map fun _ => n.value name).filter (!·.isEmpty) := by
  have found : n.attributes.find? ((fun p : String × String =>
      decide ((!p.2.isEmpty) = true ∧ (p.1 == name) = true)) ∘ fun a => (a.name, n.value a.name)) =
        if (n.value name).isEmpty then none else n.attribute? name := by
    by_cases h : (n.value name).isEmpty = true
    · rw [if_pos h, List.find?_eq_none]
      intro a _
      simp only [Function.comp_apply, decide_eq_true_eq, beq_iff_eq, not_and]
      rintro filled rfl
      simp [h] at filled
    · rw [if_neg h, attribute?]
      congr 1
      funext a
      by_cases e : a.name = name
      · simpa [e] using h
      · simp [e]
  have pairs : n.sketch.pairs = n.pairs := rfl
  rw [Sketch.value?, pairs, Node.pairs, List.find?_filter, List.find?_map, found]
  cases ha : n.attribute? name with
  | none => simp
  | some a =>
    have e : a.name = name := by simpa using List.find?_some ha
    by_cases h : (n.value name).isEmpty = true <;> simp [Option.filter, e, h]

/-- What is written of a text without blanks at its ends has none. -/
theorem tight_sketch {n : Node} (h : Text.Tight (n.value contentName).toList) :
    ∀ v ∈ n.sketch.value? contentName, Text.Tight v.toList := by
  intro v hv
  rw [value?_sketch, Option.mem_def] at hv
  obtain ⟨a, -, rfl⟩ := Option.map_eq_some_iff.mp (Option.filter_eq_some_iff.mp hv).1
  exact h

theorem map_fst_pairs_sublist (n : Node) :
    (n.pairs.map (·.1)).Sublist (n.attributes.map (·.name)) := by
  have sub := (@List.filter_sublist _ (fun p : String × String => !p.2.isEmpty)
    (n.attributes.map fun a => (a.name, n.value a.name))).map Prod.fst
  rwa [List.map_map] at sub

/-- What a fitted node with legible names says can be written and read again. -/
theorem Fitted.legible {n : Node} (h : n.Fitted) (tag : Markup.isName n.tag.toList = true)
    (kind : Kind.ofTag n.tag = n.kind) (named : ∀ a ∈ n.attributes,
      Markup.isName a.name.toList = true ∨ a.name = contentName ∧ n.kind.acceptsContent = true) :
    n.sketch.Legible where
  tag := tag
  kind := kind
  distinct := h.names.sublist n.map_fst_pairs_sublist
  sorted := by
    have orders : (n.attributes.map (·.name)).Pairwise fun x y =>
        (n.kind.bareAttribute x).order ≤ (n.kind.bareAttribute y).order := by
      refine List.pairwise_map.mpr (h.sorted.imp_of_mem fun {a b} ha hb le => ?_)
      have order {a : Attribute} (ha : a ∈ n.attributes) :
          (n.kind.bareAttribute a.name).order = a.order := by
        have := congrArg Attribute.order (h.attributes a ha)
        exact this.symm
      rwa [order ha, order hb]
    have chosen := List.pairwise_map.mp (orders.sublist n.map_fst_pairs_sublist)
    exact chosen
  filled := by
    intro p hp
    have := (List.mem_filter.mp hp).2
    simpa using this
  named := by
    intro p hp
    obtain ⟨a, ha, rfl⟩ := List.mem_map.mp (List.mem_of_mem_filter hp)
    exact named a ha

end Node

/-! ## The sketches of a sound tree -/

section
variable {fits : NodeId → Shape → Prop}

/-- Below a path that gets deeper inwards, levels go down one at a time. -/
theorem Along.steps {level : Nat} {id : NodeId} {outer : Path NodeId} {xs : List Shape}
    (h : Along Shape.id fits ((level, id) :: outer) xs)
    (deep : ((level, id) :: outer).Pairwise fun a b => b.1 < a.1) :
    (level :: xs.map (·.level)).IsChain fun k l => 0 < l ∧ l ≤ k + 1 := by
  induction xs generalizing level id outer with
  | nil => exact .singleton level
  | cons s xs ih =>
    obtain ⟨⟨a, ha, hl, -⟩, rest⟩ := h
    have inner : a ∈ (level, id) :: outer := Path.mem_of_mem_upTo (List.mem_of_mem_head? ha)
    have upTo : (Path.upTo s.level ((level, id) :: outer)).Pairwise fun a b => b.1 < a.1 :=
      deep.sublist (List.dropWhile_sublist _)
    have le : a.1 ≤ level := by
      rcases List.mem_cons.mp inner with rfl | hm
      · exact Nat.le_refl _
      · exact Nat.le_of_lt ((List.pairwise_cons.mp deep).1 a hm)
    rw [List.map_cons, List.isChain_cons_cons]
    refine ⟨by omega, ih rest (List.pairwise_cons.mpr ⟨fun b hb => ?_, upTo⟩)⟩
    -- the innermost ancestor is one level above, and all others are above that
    cases hu : Path.upTo s.level ((level, id) :: outer) with
    | nil =>
      rw [hu] at ha
      cases ha
    | cons c cs =>
      rw [hu] at ha hb upTo
      cases ha
      rcases List.mem_cons.mp hb with rfl | hb
      · change b.1 < s.level
        omega
      · have := (List.pairwise_cons.mp upTo).1 b hb
        change b.1 < s.level
        omega

end

/-- Nodes on a level with only deeper nodes between them have the same parent. -/
theorem Nested.parent_eq {before between after : List Shape} {a b : Shape}
    (h : Nested (before ++ a :: (between ++ b :: after))) (level : b.level = a.level)
    (deep : ∀ s ∈ between, a.level ≤ s.level) : a.parent = b.parent := by
  have tail := h.along_tail
  obtain ⟨⟨p, hp, hl, hb⟩, -⟩ := (along_append.mp tail).2
  rw [level, Path.upTo_pastAll Shape.id deep, Path.upTo_cons_of_le (Nat.le_refl a.level),
    Path.upTo_upTo (Nat.le_refl a.level)] at hp
  by_cases front : before = []
  · subst front
    cases hp
  · obtain ⟨⟨q, hq, -, ha⟩, -⟩ := ((rooted_append front).mp h).2
    rw [Option.mem_def.mp hp] at hq
    cases hq
    exact ha.trans hb.symm

namespace Tree

variable {t : Tree}

theorem Sound.treelike (h : t.Sound) : Sketch.Treelike t.sketches where
  root := by
    intro x hx
    have nested := h.arranged.nested
    rw [sketches, List.head?_map] at hx
    obtain ⟨n, hn, rfl⟩ := Option.map_eq_some_iff.mp hx
    cases hs : t.nodes with
    | nil =>
      rw [hs] at hn
      cases hn
    | cons m rest =>
      rw [hs] at hn
      cases hn
      rw [shapes, hs] at nested
      exact nested.1
  steps := by
    have nested := h.arranged.nested
    have levels : t.sketches.map (·.level) = t.shapes.map (·.level) := by
      rw [sketches, shapes, List.map_map, List.map_map]
      rfl
    have chain : (t.sketches.map (·.level)).IsChain fun k l => 0 < l ∧ l ≤ k + 1 := by
      rw [levels]
      cases hs : t.shapes with
      | nil => exact .nil
      | cons r rest =>
        rw [hs] at nested
        exact nested.2.steps (List.pairwise_singleton _ _)
    exact (List.isChain_map _).mp chain
  ranked := by
    intro before x between y after split deep level
    obtain ⟨before, tail, nodes, rfl, ht⟩ := List.map_eq_append_iff.mp split
    obtain ⟨n, rest, rfl, rfl, hr⟩ := List.map_eq_cons_iff.mp ht
    obtain ⟨between, last, rfl, rfl, hl⟩ := List.map_eq_append_iff.mp hr
    obtain ⟨m, after', rfl, rfl, rfl⟩ := List.map_eq_cons_iff.mp hl
    have arranged := h.arranged
    have shapes : t.shapes = before.map Node.shape ++ n.shape ::
        (between.map Node.shape ++ m.shape :: after'.map Node.shape) := by
      rw [Tree.shapes, nodes]
      simp
    rw [shapes] at arranged
    have parent : n.shape.parent = m.shape.parent := by
      refine Nested.parent_eq arranged.nested level fun s hs => ?_
      obtain ⟨k, hk, rfl⟩ := List.mem_map.mp hs
      exact deep k.sketch (List.mem_map_of_mem hk)
    have sorted := (List.pairwise_append.mp arranged.sorted).2.1
    exact ((List.pairwise_cons.mp sorted).1 m.shape (by simp) parent).rank_le

/-- In a sound tree a node is expandable when its sketch leads on. -/
theorem Sound.expandable_eq (h : t.Sound) {before after : List Node} {n : Node}
    (split : t.nodes = before ++ n :: after) :
    n.expandable = n.sketch.leads (after.map Node.sketch) := by
  have arranged := h.arranged
  rw [shapes, split, List.map_append, List.map_cons] at arranged
  rw [Bool.eq_iff_iff]
  refine arranged.expandable_iff.trans ?_
  cases after with
  | nil => simp [Sketch.leads]
  | cons m after =>
    simp only [Sketch.leads, List.map_cons, List.head?_cons, Option.any_some, decide_eq_true_eq,
      Option.mem_some_iff, exists_eq_left']
    rfl

end Tree

end QueryMarkup
