import Mathlib.Data.List.ReduceOption
import QueryMarkup.Proofs.Tree.Endless
import QueryMarkup.Proofs.Tree.Proper

/-!
# Orderly links

The check of the links goes over the nodes once and keeps a path of frames. What the links are like
when it finds nothing wrong can be said without the frames: every node stands where the nodes before
it leave it a place, and records what is true of it.

* `Traced.checkPlace_iff`: the comparison with the path of frames is one with the nodes before;
* `Traced.extend`: and it stays one after each node that has its place;
* `verifyFrom_eq_ok_iff_passes`: the whole check, on a walk that comes to its end;
* `verify_eq_ok_iff_orderly`: it finds nothing wrong exactly when the links are orderly.
-/
namespace QueryMarkup

/-- The children of a node show. -/
def Link.opens (link : Link) : Bool := link.visible && link.expanded

/-- The shape of a node, as far as its place among others goes. -/
def Link.shape (link : Link) : Shape where
  id := link.id
  kind := .unknown
  tag := ""
  level := link.level
  parent := link.parent
  expandable := link.expandable
  expanded := link.expanded
  visible := link.visible
  childCount := link.childCount

/-- A path after some nodes has nothing but these nodes on it, the last of them first. -/
theorem Path.pastAll_sublist {α : Type} (mark : Shape → α) (xs : List Shape) :
    (Path.pastAll mark [] xs).Sublist (xs.map fun s => (s.level, mark s)).reverse := by
  induction xs using List.reverseRecOn with
  | nil => exact List.Sublist.refl _
  | append_singleton xs s ih =>
    rw [pastAll_append, pastAll_cons, pastAll_nil, past, List.map_append, List.reverse_append]
    exact ((List.dropWhile_sublist _).trans ih).cons_cons _

namespace Links

variable {links : Links} {cursor : Option NodeId} {link : Link} {before xs ys : List Link}
  {frames : List Frame}

/-- The last of some nodes that is less deep than a level. -/
def lastAbove (before : List Link) (level : Nat) : Option Link :=
  before.reverse.find? fun p => decide (p.level < level)

/-- What is found where the walk visits all nodes that there are, and every node is where it says
and records what is true of it. -/
structure Orderly (links : Links) (xs : List Link) : Prop where
  complete : ∀ id link, links.get? id = some link → link ∈ xs
  root : ∀ link ∈ xs.head?, link.level = 0 ∧ link.parent = none
  nested : ∀ before link after, xs = before ++ link :: after → before ≠ [] →
    ∃ p ∈ lastAbove before link.level, link.parent = some p.id ∧ link.level = p.level + 1
  sorted : xs.Pairwise fun a b => a.parent = b.parent → a.order ≤ b.order
  visible : ∀ link ∈ xs, link.visible = true ↔ xs.head? = some link ∨
    ∃ p ∈ xs, link.parent = some p.id ∧ p.visible = true ∧ p.expanded = true
  expandable : ∀ link ∈ xs, link.expandable = true ↔ ∃ c ∈ xs, c.parent = some link.id
  counted : ∀ link ∈ xs,
    link.childCount = (xs.filter fun c => decide (c.parent = some link.id)).length

/-! ## The nodes before a node -/

theorem lastAbove_concat_of_lt {level : Nat} (higher : link.level < level) :
    lastAbove (before ++ [link]) level = some link := by
  rw [lastAbove, List.reverse_concat, List.find?_cons_of_pos (by simpa using higher)]

theorem lastAbove_concat_of_le {level : Nat} (deep : level ≤ link.level) :
    lastAbove (before ++ [link]) level = lastAbove before level := by
  rw [lastAbove, List.reverse_concat, List.find?_cons_of_neg (by simpa using deep), lastAbove]

theorem mem_of_lastAbove {level : Nat} {p : Link} (h : p ∈ lastAbove before level) :
    p ∈ before ∧ p.level < level := by
  constructor
  · exact List.mem_reverse.mp (List.mem_of_find?_eq_some h)
  · simpa using List.find?_some h

/-- A node stands and shows as the nodes before it have it. -/
structure Fits (before : List Link) (link : Link) : Prop where
  first : before = [] → link.level = 0 ∧ link.parent = none ∧ link.visible = true
  below : before ≠ [] → ∃ p ∈ lastAbove before link.level,
    link.parent = some p.id ∧ link.level = p.level + 1 ∧ link.visible = p.opens
  ordered : ∀ s ∈ before, s.parent = link.parent → s.order ≤ link.order

/-- The number of the children that a node has among the nodes behind it. -/
def childrenIn (link : Link) (after : List Link) : Nat :=
  ((after.takeWhile fun n => decide (link.level < n.level)).filter
    fun n => n.level == link.level + 1).length

/-- Every node fits those before it and records how many children it has. -/
def Passes : List Link → List Link → Prop
  | _, [] => True
  | before, link :: after => Fits before link ∧
    checkChildren link (childrenIn link after) = .ok () ∧ Passes (before ++ [link]) after

theorem passes_iff : Passes before ys ↔ ∀ mid link after, ys = mid ++ link :: after →
    Fits (before ++ mid) link ∧ checkChildren link (childrenIn link after) = .ok () := by
  induction ys generalizing before with
  | nil => simp [Passes]
  | cons y ys ih =>
    rw [Passes, ih]
    constructor
    · rintro ⟨fits, counted, later⟩ mid link after split
      cases mid with
      | nil =>
        cases split
        rw [List.append_nil]
        exact ⟨fits, counted⟩
      | cons m mid =>
        cases split
        have rest := later mid link after rfl
        rwa [List.append_assoc, List.singleton_append] at rest
    · intro h
      have here := h [] y ys rfl
      rw [List.append_nil] at here
      refine ⟨here.1, here.2, fun mid link after split => ?_⟩
      rw [List.append_assoc, List.singleton_append]
      exact h (y :: mid) link after (by rw [split, List.cons_append])

/-! ## The path of frames -/

/-- The frames after a walk over some nodes: the path of their names and of what they open, and for
each the highest order that one of its children has. A node may be at any level down to the one
below the last. -/
structure Traced (before : List Link) (frames : List Frame) : Prop where
  path : frames.map (fun f => (f.level, f.id, f.opens)) =
    Path.pastAll (fun s => (s.id, s.opens)) [] (before.map Link.shape)
  distinct : (before.map (·.id)).Nodup
  known : ∀ s ∈ before, ∀ id, s.parent = some id → id ∈ before.map (·.id)
  stepped : ∀ last ∈ before.getLast?, ∀ level, 0 < level → level ≤ last.level + 1 →
    ∃ p ∈ lastAbove before level, level = p.level + 1
  orders : ∀ f ∈ frames, ∀ k,
    (∀ o ∈ f.lastOrder, o ≤ k) ↔ ∀ s ∈ before, s.parent = some f.id → s.order ≤ k

theorem Traced.nil : Traced [] [] where
  path := rfl
  distinct := List.nodup_nil
  known := by simp
  stepped := by simp
  orders := by simp

/-- The innermost frame above a level is the one of the last node above it. -/
theorem Traced.head? (h : Traced before frames) (level : Nat) :
    (framesUpTo level frames).head?.map (fun f => (f.level, f.id, f.opens)) =
      (lastAbove before level).map fun p => (p.level, p.id, p.opens) := by
  have marks := map_framesUpTo (fun f => (f.id, f.opens)) level frames
  rw [h.path] at marks
  rw [← List.head?_map, marks, Path.head?_upTo_pastAll, ← List.map_reverse, List.find?_map,
    Option.map_map]
  rfl

theorem Traced.exists_head (h : Traced before frames) {level : Nat} {p : Link}
    (hp : p ∈ lastAbove before level) : ∃ f, (framesUpTo level frames).head? = some f ∧
      f.level = p.level ∧ f.id = p.id ∧ f.opens = p.opens := by
  have same := h.head? level
  rw [Option.mem_def.mp hp] at same
  obtain ⟨f, hf, alike⟩ := Option.map_eq_some_iff.mp same
  simp only [Prod.mk.injEq] at alike
  exact ⟨f, hf, alike⟩

/-- The frames begin with the last node. -/
theorem Traced.level_eq (h : Traced (before ++ [link]) frames) :
    ∃ top path, frames = top :: path ∧ top.level = link.level := by
  have path := h.path
  rw [List.map_append, Path.pastAll_append] at path
  obtain ⟨top, rest, rfl, alike, -⟩ := List.map_eq_cons_iff.mp path
  exact ⟨top, rest, rfl, congrArg Prod.fst alike⟩

/-- The frames have the same parent for a node as the nodes before have. -/
theorem Traced.recorded_iff (h : Traced before frames) {p : Link}
    (hp : p ∈ lastAbove before link.level) :
    (link.parent = (framesUpTo link.level frames).head?.map (·.id) ∧
      (∀ f ∈ (framesUpTo link.level frames).head?, ∀ o ∈ f.lastOrder, o ≤ link.order) ∧
      link.visible = ((framesUpTo link.level frames).head?.map (·.opens)).getD true) ↔
    link.parent = some p.id ∧
      (∀ s ∈ before, s.parent = link.parent → s.order ≤ link.order) ∧ link.visible = p.opens := by
  obtain ⟨f, hf, -, named, opens⟩ := h.exists_head hp
  have mem : f ∈ frames := (List.dropWhile_subset _) (List.mem_of_head? hf)
  have orders := h.orders f mem link.order
  rw [hf]
  simp only [Option.map_some, Option.mem_def, Option.some.injEq, forall_eq', Option.getD_some,
    named, opens] at orders ⊢
  constructor
  · rintro ⟨parent, high, visible⟩
    exact ⟨parent, parent ▸ orders.mp high, visible⟩
  · rintro ⟨parent, ordered, visible⟩
    exact ⟨parent, orders.mpr (parent ▸ ordered), visible⟩

theorem Fits.level_le {front : List Link} {last : Link} (fits : Fits (front ++ [last]) link) :
    link.level ≤ last.level + 1 := by
  obtain ⟨p, hp, -, below, -⟩ := fits.below (by simp)
  by_cases higher : last.level < link.level
  · rw [lastAbove_concat_of_lt higher] at hp
    cases hp
    omega
  · omega

/-- The comparison with the frames is one with the nodes before. -/
theorem Traced.checkPlace_iff (h : Traced before frames) :
    checkPlace link frames = .ok () ↔ Fits before link := by
  rcases List.eq_nil_or_concat' before with rfl | ⟨front, last, rfl⟩
  · have empty : frames = [] := List.map_eq_nil_iff.mp h.path
    subst empty
    rw [checkPlace_nil_iff]
    constructor
    · intro stands
      exact ⟨fun _ => stands, fun inner => absurd rfl inner, by simp⟩
    · intro fits
      exact fits.first rfl
  · obtain ⟨top, path, rfl, level⟩ := h.level_eq
    rw [checkPlace_cons_iff, level]
    constructor
    · rintro ⟨⟨shallow, deep⟩, rest⟩
      obtain ⟨p, hp, below⟩ := h.stepped last (by simp) link.level deep shallow
      obtain ⟨parent, ordered, visible⟩ := (h.recorded_iff hp).mp rest
      exact ⟨fun none => absurd none (by simp), fun _ => ⟨p, hp, parent, below, visible⟩, ordered⟩
    · intro fits
      obtain ⟨p, hp, parent, below, visible⟩ := fits.below (by simp)
      refine ⟨⟨fits.level_le, by omega⟩, ?_⟩
      exact (h.recorded_iff hp).mpr ⟨parent, fits.ordered, visible⟩

/-- The frames after one more node: the frame of the node, and then that of its parent with the order
of the node. -/
theorem extend_eq (link : Link) (frames : List Frame) :
    extend link frames = ⟨link.level, link.id, link.opens, none⟩ ::
      match framesUpTo link.level frames with
      | [] => []
      | parent :: rest => { parent with lastOrder := some link.order } :: rest := by
  unfold extend
  change (match framesUpTo link.level frames with
    | [] => _
    | parent :: rest => _) = _
  cases framesUpTo link.level frames <;> rfl

theorem map_extend (link : Link) (frames : List Frame) :
    (extend link frames).map (fun f => (f.level, f.id, f.opens)) =
      Path.past (fun s => (s.id, s.opens)) (frames.map fun f => (f.level, f.id, f.opens))
        link.shape := by
  have marks := map_framesUpTo (fun f => (f.id, f.opens)) link.level frames
  have level : link.shape.level = link.level := rfl
  rw [extend_eq, Path.past, level, ← marks]
  cases framesUpTo link.level frames <;> rfl

/-- No node has two frames. -/
theorem Traced.nodup (h : Traced before frames) : (frames.map (·.id)).Nodup := by
  have names : frames.map (·.id) =
      (frames.map fun f => (f.level, f.id, f.opens)).map (·.2.1) := by rw [List.map_map]; rfl
  have sub := (Path.pastAll_sublist (fun s => (s.id, s.opens)) (before.map Link.shape)).map (·.2.1)
  rw [names, h.path]
  apply sub.nodup
  rw [List.map_reverse, List.nodup_reverse, List.map_map, List.map_map]
  exact h.distinct

/-- A node that fits those before it has one of them as its parent. -/
theorem Fits.parent_mem (fits : Fits before link) {id : NodeId} (parent : link.parent = some id) :
    id ∈ before.map (·.id) := by
  by_cases front : before = []
  · rw [(fits.first front).2.1] at parent
    cases parent
  · obtain ⟨p, hp, named, -⟩ := fits.below front
    rw [named] at parent
    cases parent
    exact List.mem_map_of_mem (mem_of_lastAbove hp).1

theorem Traced.parent_eq (h : Traced before frames) (fits : Fits before link) {f : Frame}
    {rest : List Frame} (up : framesUpTo link.level frames = f :: rest) :
    link.parent = some f.id := by
  have inner : before ≠ [] := by
    rintro rfl
    have empty : frames = [] := List.map_eq_nil_iff.mp h.path
    subst empty
    cases up
  obtain ⟨p, hp, parent, -⟩ := fits.below inner
  obtain ⟨g, hg, -, named, -⟩ := h.exists_head hp
  rw [up] at hg
  cases hg
  rw [parent, named]

theorem Traced.orders_extend (h : Traced before frames) (fits : Fits before link)
    (new : link.id ∉ before.map (·.id)) : ∀ f ∈ extend link frames, ∀ k,
      (∀ o ∈ f.lastOrder, o ≤ k) ↔ ∀ s ∈ before ++ [link], s.parent = some f.id → s.order ≤ k := by
  have childless : ∀ s ∈ before ++ [link], s.parent ≠ some link.id := by
    intro s hs parent
    rcases List.mem_append.mp hs with hs | hs
    · exact new (h.known s hs _ parent)
    · cases List.mem_singleton.mp hs
      exact new (fits.parent_mem parent)
  have here : ∀ k, (∀ o ∈ (none : Option Nat), o ≤ k) ↔
      ∀ s ∈ before ++ [link], s.parent = some link.id → s.order ≤ k := by
    intro k
    constructor
    · intro _ s hs parent
      exact absurd parent (childless s hs)
    · intro _ o ho
      cases ho
  intro g hg k
  rw [extend_eq] at hg
  rcases List.mem_cons.mp hg with rfl | hg
  · exact here k
  cases up : framesUpTo link.level frames with
  | nil =>
    rw [up] at hg
    cases hg
  | cons f rest =>
    rw [up] at hg
    have kept : f :: rest ⊆ frames := up ▸ List.dropWhile_subset _
    have parent : link.parent = some f.id := h.parent_eq fits up
    rcases List.mem_cons.mp hg with rfl | hg
    · constructor
      · intro high s hs same
        have last : link.order ≤ k := high _ rfl
        rcases List.mem_append.mp hs with hs | hs
        · exact (fits.ordered s hs (same.trans parent.symm)).trans last
        · cases List.mem_singleton.mp hs
          exact last
      · intro high o ho
        cases ho
        exact high link (by simp) parent
    · -- the node is a child of another
      have other : link.parent ≠ some g.id := by
        intro same
        rw [parent] at same
        have distinct : ((f :: rest).map (·.id)).Nodup :=
          ((up ▸ List.dropWhile_sublist _ : (f :: rest).Sublist frames).map _).nodup h.nodup
        rw [List.map_cons, Option.some.inj same] at distinct
        exact (List.nodup_cons.mp distinct).1 (List.mem_map_of_mem hg)
      rw [h.orders g (kept (List.mem_cons_of_mem _ hg)) k]
      constructor
      · intro high s hs same
        rcases List.mem_append.mp hs with hs | hs
        · exact high s hs same
        · cases List.mem_singleton.mp hs
          exact absurd same other
      · intro high s hs same
        exact high s (List.mem_append_left _ hs) same

/-- The frames after one more node that fits those before it. -/
theorem Traced.extend (h : Traced before frames) (fits : Fits before link)
    (new : link.id ∉ before.map (·.id)) : Traced (before ++ [link]) (extend link frames) where
  path := by
    rw [map_extend, h.path, List.map_append, Path.pastAll_append]
    rfl
  distinct := by
    rw [List.map_append, List.nodup_append]
    refine ⟨h.distinct, List.nodup_singleton _, ?_⟩
    rintro id hid _ hl rfl
    cases List.mem_singleton.mp hl
    exact new hid
  known := by
    intro s hs id parent
    rw [List.map_append]
    apply List.mem_append_left
    rcases List.mem_append.mp hs with hs | hs
    · exact h.known s hs id parent
    · cases List.mem_singleton.mp hs
      exact fits.parent_mem parent
  stepped := by
    intro last hl level pos shallow
    rw [List.getLast?_concat] at hl
    cases hl
    by_cases higher : link.level < level
    · exact ⟨link, lastAbove_concat_of_lt higher, by omega⟩
    · rw [lastAbove_concat_of_le (Nat.not_lt.mp higher)]
      rcases List.eq_nil_or_concat' before with rfl | ⟨front, last, rfl⟩
      · have := (fits.first rfl).1
        omega
      · have := fits.level_le
        exact h.stepped last (by simp) level pos (by omega)
  orders := h.orders_extend fits new

/-! ## The whole walk -/

/-- On a walk that comes to its end the check finds nothing wrong exactly when every node fits those
before it and records how many children it has. -/
theorem verifyFrom_eq_ok_iff_passes (traced : Traced before frames) (walk : links.Walk cursor ys)
    (distinct : ((before ++ ys).map (·.id)).Nodup) (short : ys.length ≤ links.entries.length)
    (fuel : Nat) (enough : ys.length ≤ fuel) {n : Nat} :
    links.verifyFrom fuel cursor (before.map (·.id)).reverse frames = some (.ok n) ↔
      n = before.length + ys.length ∧ Passes before ys := by
  induction ys generalizing cursor before frames fuel with
  | nil =>
    rw [verifyFrom_of_end (walk_nil_iff.mp walk)]
    simp [Passes, eq_comm]
  | cons y ys ih =>
    cases fuel with
    | zero => exact absurd enough (Nat.not_succ_le_zero _)
    | succ fuel =>
      obtain ⟨here, later⟩ := walk_cons_iff.mp walk
      have split : before ++ y :: ys = before ++ [y] ++ ys := by simp
      have new : y.id ∉ before.map (·.id) := by
        rw [List.map_append, List.nodup_append] at distinct
        exact fun old => distinct.2.2 _ old _ (List.mem_map_of_mem List.mem_cons_self) rfl
      have counts : (∃ found, links.children? y = some found ∧
          checkChildren y found.length = .ok ()) ↔
            checkChildren y (childrenIn y ys) = .ok () := by
        rw [children?, later.runFrom y.level _ (by rw [List.length_cons] at short; omega)]
        simp [childrenIn]
      have names : y.id :: (before.map (·.id)).reverse = ((before ++ [y]).map (·.id)).reverse := by
        simp
      rw [split] at distinct
      have rest (fits : Fits before y) := ih (traced.extend fits new) later distinct
        (Nat.le_of_succ_le short) fuel (Nat.le_of_succ_le_succ enough)
      have length : before.length + (y :: ys).length = (before ++ [y]).length + ys.length := by
        simp only [List.length_append, List.length_cons, List.length_nil]
        omega
      rw [verifyFrom_eq_ok_iff here, traced.checkPlace_iff, counts, names, Passes, length]
      constructor
      · rintro ⟨-, fits, counted, passed⟩
        obtain ⟨total, passes⟩ := (rest fits).mp passed
        exact ⟨total, fits, counted, passes⟩
      · rintro ⟨total, fits, counted, passes⟩
        have unseen : y.id ∉ (before.map (·.id)).reverse := fun old => new (List.mem_reverse.mp old)
        exact ⟨unseen, fits, counted, (rest fits).mpr ⟨total, passes⟩⟩

/-! ## Without the walk -/

theorem pairwise_iff_append {α : Type} {R : α → α → Prop} {l : List α} :
    l.Pairwise R ↔ ∀ before b after, l = before ++ b :: after → ∀ a ∈ before, R a b := by
  constructor
  · rintro h before b after rfl a ha
    exact (List.pairwise_append.mp h).2.2 a ha b List.mem_cons_self
  · intro h
    induction l using List.reverseRecOn with
    | nil => exact List.Pairwise.nil
    | append_singleton l b ih =>
      rw [List.pairwise_append]
      refine ⟨ih fun before c after split a ha => ?_, List.pairwise_singleton _ _, ?_⟩
      · exact h before c (after ++ [b]) (by rw [split]; simp) a ha
      · intro a ha c hc
        cases List.mem_singleton.mp hc
        exact h l b [] rfl a ha

/-- Below the first node, a node shows exactly when the node that it records as its parent opens. -/
theorem shows_iff (distinct : (xs.map (·.id)).Nodup) {after : List Link}
    (split : xs = before ++ link :: after) (inner : before ≠ []) {p : Link} (hp : p ∈ xs)
    (parent : link.parent = some p.id) :
    (xs.head? = some link ∨
      ∃ q ∈ xs, link.parent = some q.id ∧ q.visible = true ∧ q.expanded = true) ↔
        p.opens = true := by
  have opens : p.opens = true ↔ p.visible = true ∧ p.expanded = true := by simp [Link.opens]
  rw [opens]
  constructor
  · rintro (first | ⟨q, hq, named, shows⟩)
    · obtain ⟨b, front, rfl⟩ := List.exists_cons_of_ne_nil inner
      rw [split] at first distinct
      cases Option.some.inj first
      simp at distinct
    · have same : q.id = p.id := Option.some.inj (named.symm.trans parent)
      rwa [List.inj_on_of_nodup_map distinct hq hp same] at shows
  · intro shows
    exact .inr ⟨p, hp, parent, shows⟩

/-- Nodes with a root, of which every other has the last above it as its parent, are nested. -/
theorem nested_shapes (root : ∀ link ∈ xs.head?, link.level = 0 ∧ link.parent = none)
    (nested : ∀ before link after, xs = before ++ link :: after → before ≠ [] →
      ∃ p ∈ lastAbove before link.level, link.parent = some p.id ∧ link.level = p.level + 1) :
    Nested (xs.map Link.shape) := by
  induction xs using List.reverseRecOn with
  | nil => trivial
  | append_singleton xs link ih =>
    rw [List.map_append]
    by_cases front : xs = []
    · subst front
      exact ⟨(root link rfl).1, trivial⟩
    · apply (rooted_append (by simpa using front)).mpr
      constructor
      · apply ih
        · intro first hf
          apply root first
          rw [List.head?_append_of_ne_nil _ front]
          exact hf
        · intro before l after split
          exact nested before l (after ++ [link]) (by rw [split]; simp)
      · obtain ⟨p, hp, parent, level⟩ := nested xs link [] rfl front
        refine ⟨⟨(p.level, p.id), ?_, level, parent⟩, trivial⟩
        rw [Path.head?_upTo_pastAll, ← List.map_reverse, List.find?_map, Option.map_map]
        exact Option.map_eq_some_iff.mpr ⟨p, hp, rfl⟩

/-- The children that a node has among what follows are all the nodes that record it. -/
theorem childrenIn_eq (distinct : (xs.map (·.id)).Nodup)
    (root : ∀ link ∈ xs.head?, link.level = 0 ∧ link.parent = none)
    (nested : ∀ before link after, xs = before ++ link :: after → before ≠ [] →
      ∃ p ∈ lastAbove before link.level, link.parent = some p.id ∧ link.level = p.level + 1)
    {after : List Link} (split : xs = before ++ link :: after) :
    childrenIn link after = (xs.filter fun c => decide (c.parent = some link.id)).length := by
  have shapes : xs.map Link.shape =
      before.map Link.shape ++ link.shape :: after.map Link.shape := by
    rw [split, List.map_append, List.map_cons]
  have names : (xs.map Link.shape).map Shape.id = xs.map (·.id) := by rw [List.map_map]; rfl
  have top : ∀ s ∈ (xs.map Link.shape).head?, s.parent = none := by
    intro s hs
    rw [List.head?_map] at hs
    obtain ⟨first, hf, rfl⟩ := Option.map_eq_some_iff.mp hs
    exact (root first hf).2
  have kids := Nested.kidsOf_eq (shapes ▸ nested_shapes root nested) (shapes ▸ top)
    (by rw [← shapes, names]; exact distinct)
  rw [← shapes, kidsOf, Shape.run, List.filter_map, List.takeWhile_map, List.filter_map] at kids
  have count := congrArg List.length kids
  rw [List.length_map, List.length_map] at count
  exact count.symm

/-- Every node fits those before it and records how many children it has exactly when the nodes are
orderly among themselves. -/
theorem passes_nil_iff (distinct : (xs.map (·.id)).Nodup)
    (complete : ∀ id link, links.get? id = some link → link ∈ xs) :
    Passes [] xs ↔ Orderly links xs := by
  rw [passes_iff]
  simp only [List.nil_append]
  constructor
  · intro h
    have root : ∀ link ∈ xs.head?, link.level = 0 ∧ link.parent = none := by
      intro link hl
      obtain ⟨after, rfl⟩ := List.head?_eq_some_iff.mp hl
      have stands := (h [] link after rfl).1.first rfl
      exact ⟨stands.1, stands.2.1⟩
    have nested : ∀ before link after, xs = before ++ link :: after → before ≠ [] →
        ∃ p ∈ lastAbove before link.level, link.parent = some p.id ∧ link.level = p.level + 1 := by
      intro before link after split inner
      obtain ⟨p, hp, parent, level, -⟩ := (h before link after split).1.below inner
      exact ⟨p, hp, parent, level⟩
    have counted : ∀ link ∈ xs, link.expandable = decide
        (0 < (xs.filter fun c => decide (c.parent = some link.id)).length) ∧
        link.childCount = (xs.filter fun c => decide (c.parent = some link.id)).length := by
      intro link hl
      obtain ⟨before, after, split⟩ := List.append_of_mem hl
      have counts := (h before link after split).2
      rwa [childrenIn_eq distinct root nested split, checkChildren_eq_ok_iff] at counts
    constructor
    · exact complete
    · exact root
    · exact nested
    · apply pairwise_iff_append.mpr
      intro before b after split a ha
      exact (h before b after split).1.ordered a ha
    · intro link hl
      obtain ⟨before, after, split⟩ := List.append_of_mem hl
      have fits := (h before link after split).1
      by_cases front : before = []
      · subst front
        rw [split]
        simp [(fits.first rfl).2.2]
      · obtain ⟨p, hp, parent, -, visible⟩ := fits.below front
        have mem : p ∈ xs := split ▸ List.mem_append_left _ (mem_of_lastAbove hp).1
        rw [shows_iff distinct split front mem parent, visible]
    · intro link hl
      rw [(counted link hl).1, decide_eq_true_eq, List.length_pos_iff_exists_mem]
      simp [List.mem_filter]
    · exact fun link hl => (counted link hl).2
  · intro h before link after split
    have hl : link ∈ xs := split ▸ List.mem_append_right _ List.mem_cons_self
    have first : before = [] → xs.head? = some link := by
      rintro rfl
      rw [split]
      rfl
    refine ⟨⟨?_, ?_, ?_⟩, ?_⟩
    · intro front
      have top := h.root link (first front)
      exact ⟨top.1, top.2, (h.visible link hl).mpr (.inl (first front))⟩
    · intro inner
      obtain ⟨p, hp, parent, level⟩ := h.nested before link after split inner
      have mem : p ∈ xs := split ▸ List.mem_append_left _ (mem_of_lastAbove hp).1
      refine ⟨p, hp, parent, level, ?_⟩
      rw [Bool.eq_iff_iff, h.visible link hl, shows_iff distinct split inner mem parent]
    · exact pairwise_iff_append.mp h.sorted before link after split
    · rw [childrenIn_eq distinct h.root h.nested split, checkChildren_eq_ok_iff]
      refine ⟨?_, h.counted link hl⟩
      rw [Bool.eq_iff_iff, h.expandable link hl, decide_eq_true_eq,
        List.length_pos_iff_exists_mem]
      simp [List.mem_filter]

/-! ## All nodes -/

theorem mem_reduceOption_iff : link ∈ links.entries.reduceOption ↔
    ∃ id, links.get? id = some link := by
  rw [List.reduceOption_mem_iff, List.mem_iff_getElem?]
  constructor
  · rintro ⟨i, hi⟩
    exact ⟨⟨i⟩, Option.join_eq_some_iff.mpr hi⟩
  · rintro ⟨id, hid⟩
    exact ⟨id.index, Option.join_eq_some_iff.mp hid⟩

/-- Nodes at the places of their names are different. -/
theorem Indexed.nodup (indexed : links.Indexed) : links.entries.reduceOption.Nodup := by
  rw [List.reduceOption, List.nodup_iff_pairwise_ne, List.pairwise_filterMap,
    List.pairwise_iff_getElem]
  intro i j hi hj lt a ha b hb same
  have first : links.get? ⟨i⟩ = some a :=
    Option.join_eq_some_iff.mpr ((List.getElem?_eq_getElem hi).trans (congrArg some ha))
  have second : links.get? ⟨j⟩ = some b :=
    Option.join_eq_some_iff.mpr ((List.getElem?_eq_getElem hj).trans (congrArg some hb))
  have named := (indexed _ _ first).symm.trans ((congrArg Link.id same).trans (indexed _ _ second))
  cases named
  exact Nat.lt_irrefl i lt

/-- As many different nodes as there are are all nodes. -/
theorem length_eq_live_iff (indexed : links.Indexed) (walk : links.Walk cursor xs)
    (distinct : (xs.map (·.id)).Nodup) :
    xs.length = links.live ↔ ∀ id link, links.get? id = some link → link ∈ xs := by
  have stored : xs ⊆ links.entries.reduceOption := fun x hx =>
    mem_reduceOption_iff.mpr ⟨x.id, walk.get? indexed x hx⟩
  have sub := distinct.of_map.subperm stored
  rw [live, ← List.reduceOption_length_eq]
  constructor
  · intro same id link found
    exact (sub.perm_of_length_le same.ge).mem_iff.mpr (mem_reduceOption_iff.mpr ⟨id, found⟩)
  · intro complete
    apply sub.length_le.antisymm
    apply (indexed.nodup.subperm _).length_le
    intro link hl
    obtain ⟨id, found⟩ := mem_reduceOption_iff.mp hl
    exact complete id link found

theorem verify_eq_ok_iff : links.verify = some (.ok ()) ↔
    links.verifyFrom (links.entries.length + 1) links.root [] [] = some (.ok links.live) := by
  rw [verify, Option.map_eq_some_iff]
  constructor
  · rintro ⟨result, checked, passes⟩
    cases result with
    | error violation => cases passes
    | ok n =>
      by_cases all : n = links.live
      · rw [checked, all]
      · simp [all] at passes
  · intro checked
    exact ⟨_, checked, by simp⟩

/-- On a walk that visits no node twice the check has a result, and it finds nothing wrong exactly
when the links are orderly. -/
theorem verify_eq_ok_iff_orderly (indexed : links.Indexed) (once : links.Once links.root) :
    ∃ xs, links.Walk links.root xs ∧ (∃ result, links.verify = some result) ∧
      (links.verify = some (.ok ()) ↔ links.Orderly xs) := by
  obtain ⟨xs, walk, distinct, short⟩ := once.exists_walk indexed
  refine ⟨xs, walk, ?_, ?_⟩
  · rw [← Option.isSome_iff_exists, Option.isSome_iff_ne_none, Ne, verify_eq_none_iff indexed]
    rintro ⟨-, -, -, goes⟩
    obtain ⟨m, hm, -⟩ := goes xs.length
    rw [walk, List.getElem?_eq_none (Nat.le_succ _)] at hm
    cases hm
  · have run := verifyFrom_eq_ok_iff_passes Traced.nil walk distinct short
      (links.entries.length + 1) (Nat.le_succ_of_le short) (n := links.live)
    rw [verify_eq_ok_iff]
    refine run.trans ?_
    constructor
    · rintro ⟨total, passes⟩
      rw [List.length_nil, Nat.zero_add] at total
      exact (passes_nil_iff distinct
        ((length_eq_live_iff indexed walk distinct).mp total.symm)).mp passes
    · intro orderly
      have total := (length_eq_live_iff indexed walk distinct).mpr orderly.complete
      rw [List.length_nil, Nat.zero_add]
      exact ⟨total.symm, (passes_nil_iff distinct orderly.complete).mpr orderly⟩

/-- A collapsed root with a child and a grandchild that are hidden. -/
theorem verify_hidden :
    let links : Links := ⟨some ⟨0⟩, [
      some ⟨⟨0⟩, 0, 0, none, some ⟨2⟩, true, false, true, 1⟩,
      some ⟨⟨1⟩, 2, 2, some ⟨2⟩, none, false, true, false, 0⟩,
      some ⟨⟨2⟩, 1, 1, some ⟨0⟩, some ⟨1⟩, true, true, false, 1⟩]⟩
    links.Indexed ∧ links.Once links.root ∧ links.verify = some (.ok ()) ∧
      ∃ xs, links.Walk links.root xs ∧ (∃ result, links.verify = some result) ∧
        (links.verify = some (.ok ()) ↔ links.Orderly xs) := by
  intro links
  have indexed : links.Indexed := indexed_of_zipIdx (by decide)
  have walk : links.Walk links.root
      [⟨⟨0⟩, 0, 0, none, some ⟨2⟩, true, false, true, 1⟩,
        ⟨⟨2⟩, 1, 1, some ⟨0⟩, some ⟨1⟩, true, true, false, 1⟩,
        ⟨⟨1⟩, 2, 2, some ⟨2⟩, none, false, true, false, 0⟩] :=
    walk_cons_iff.mpr ⟨rfl, walk_cons_iff.mpr ⟨rfl, walk_cons_iff.mpr ⟨rfl, walk_nil_iff.mpr rfl⟩⟩⟩
  have once : links.Once links.root := walk.once (by decide)
  exact ⟨indexed, once, by decide, verify_eq_ok_iff_orderly indexed once⟩

end Links

end QueryMarkup
