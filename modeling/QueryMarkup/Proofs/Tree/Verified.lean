import Mathlib.Data.List.Perm.Subperm
import QueryMarkup.Proofs.Tree.Sound
import QueryMarkup.Tree.Verify

/-!
# Sound trees pass the check of their links

The check walks along the links by name and keeps a path of frames. Over a sound tree
the walk visits the nodes in preorder, and its frames are the paths that nesting and
visibility are stated with, so every comparison of the check succeeds.
-/
namespace QueryMarkup

/-- The place of a node, given the node after it. -/
def Shape.link (s : Shape) (next : Option NodeId) : Link where
  id := s.id
  level := s.level
  order := s.rank
  parent := s.parent
  next := next
  expandable := s.expandable
  expanded := s.expanded
  visible := s.visible
  childCount := s.childCount

@[simp] theorem Shape.link_id (s : Shape) (next : Option NodeId) : (s.link next).id = s.id := rfl

@[simp] theorem Shape.link_level (s : Shape) (next : Option NodeId) :
    (s.link next).level = s.level := rfl

/-- Shapes with the name of the one after each. -/
def Shape.links : List Shape → List Link
  | [] => []
  | s :: rest => s.link (rest.head?.map Shape.id) :: Shape.links rest

theorem linkNodes_eq (nodes : List Node) : linkNodes nodes = Shape.links (nodes.map Node.shape) := by
  induction nodes with
  | nil => rfl
  | cons n nodes ih =>
    simp only [linkNodes, List.map_cons, Shape.links, ih, List.head?_map, Option.map_map]
    rfl

theorem Shape.find?_links {before after : List Shape} {s : Shape}
    (h : ∀ r ∈ before, r.id ≠ s.id) :
    (Shape.links (before ++ s :: after)).find? (fun l => l.id == s.id) =
      some (s.link (after.head?.map Shape.id)) := by
  induction before with
  | nil => simp [Shape.links, Shape.link]
  | cons b before ih =>
    have hb := h b List.mem_cons_self
    have := ih fun r hr => h r (List.mem_cons_of_mem _ hr)
    rw [List.cons_append, Shape.links, List.find?_cons_of_neg (by simpa [Shape.link] using hb), this]

namespace Links

/-- Every shape has its link at the place of its name. -/
def Laid (links : Links) (xs : List Shape) : Prop :=
  ∀ before s after, xs = before ++ s :: after →
    links.get? s.id = some (s.link (after.head?.map Shape.id))

section
variable {links : Links} {xs before ys : List Shape}

/-- Following the link to the first of the remaining shapes. -/
theorem Laid.follow (h : links.Laid xs) (split : xs = before ++ ys) :
    (ys.head?.map Shape.id).bind links.get? =
      ys.head?.map fun s => s.link (ys.tail.head?.map Shape.id) := by
  cases ys with
  | nil => rfl
  | cons s ys => exact h before s ys split

theorem Laid.runFrom (h : links.Laid xs) (split : xs = before ++ ys) (level fuel : Nat)
    (enough : ys.length < fuel) :
    links.runFrom level fuel (ys.head?.map Shape.id) =
      some ((Shape.links ys).takeWhile fun l => decide (level < l.level)) := by
  induction ys generalizing before fuel with
  | nil =>
    cases fuel with
    | zero => exact absurd enough (Nat.not_lt_zero _)
    | succ fuel => rfl
  | cons s ys ih =>
    cases fuel with
    | zero => exact absurd enough (Nat.not_lt_zero _)
    | succ fuel =>
      have rest := @ih (before ++ [s]) (by simpa using split) fuel (Nat.lt_of_succ_lt_succ enough)
      rw [Links.runFrom, h.follow split]
      simp only [List.head?_cons, Option.map_some, List.tail_cons, Shape.links]
      by_cases deeper : level < s.level
      · have next : (s.link (ys.head?.map Shape.id)).next = ys.head?.map Shape.id := rfl
        simp only [Shape.link_level, deeper, if_true, List.takeWhile_cons, decide_true, next, rest,
          Option.map_some]
      · simp only [Shape.link_level, deeper, if_false, List.takeWhile_cons, decide_false,
          Bool.false_eq_true]

end

end Links

/-- Walks look at the levels only. -/
theorem Shape.length_run_links (level k : Nat) (xs : List Shape) :
    (((Shape.links xs).takeWhile fun l => decide (level < l.level)).filter
      fun l => l.level == k).length =
        ((xs.takeWhile fun s => decide (level < s.level)).filter fun s => s.level == k).length := by
  have onLevels {α : Type} (f : α → Nat) (l : List α) :
      ((l.takeWhile fun a => decide (level < f a)).filter fun a => f a == k).length =
        (((l.map f).takeWhile fun n => decide (level < n)).filter fun n => n == k).length := by
    rw [List.takeWhile_map, List.filter_map, List.length_map]
    rfl
  have levels : (Shape.links xs).map Link.level = xs.map Shape.level := by
    induction xs with
    | nil => rfl
    | cons s xs ih => simp only [Shape.links, List.map_cons, Shape.link_level, ih]
  rw [onLevels Link.level, onLevels Shape.level, levels]

section
variable {issued : Nat} {xs before after : List Shape} {s : Shape}

theorem Framed.nodup_index (h : Framed issued xs) : (xs.map fun s => s.id.index).Nodup := by
  have map : xs.map (fun s => s.id.index) = (xs.map Shape.id).map NodeId.index := by simp
  rw [map]
  refine h.distinct.map fun a b e => ?_
  cases a
  cases b
  exact congrArg NodeId.mk e

theorem Framed.length_le (h : Framed issued xs) : xs.length ≤ issued := by
  have sub : xs.map (fun s => s.id.index) ⊆ List.range issued := by
    intro i hi
    obtain ⟨s, hs, rfl⟩ := List.mem_map.mp hi
    exact List.mem_range.mpr (h.issued s hs)
  simpa using (h.nodup_index.subperm sub).length_le

/-- The walk over the links behind a node finds as many children as the node records. -/
theorem Arranged.children? {links : Links} (h : Arranged issued (before ++ s :: after))
    (laid : links.Laid (before ++ s :: after)) (size : links.entries.length = issued) :
    ∃ children, links.children? (s.link (after.head?.map Shape.id)) = some children ∧
      children.length = s.childCount := by
  have len := h.length_le
  rw [List.length_append, List.length_cons] at len
  have run := @Links.Laid.runFrom links _ (before ++ [s]) after laid (by simp) s.level
    (links.entries.length + 1) (by omega)
  refine ⟨_, by rw [Links.children?]; exact congrArg (Option.map _) run, ?_⟩
  rw [h.counted s (by simp), h.kidsOf_eq]
  exact Shape.length_run_links s.level (s.level + 1) after

end

/-! ## The path of frames -/

/-- The frames after a walk over some nodes: the paths of their names and of what they
open, and for each an order that one of its children has. -/
structure Walked (before : List Shape) (frames : List Links.Frame) : Prop where
  names : frames.map (fun f => (f.level, f.id)) = Path.pastAll Shape.id [] before
  opens : frames.map (fun f => (f.level, f.opens)) = Path.pastAll Shape.opens [] before
  orders : ∀ f ∈ frames, ∀ o ∈ f.lastOrder, ∃ b ∈ before, b.parent = some f.id ∧ b.rank = o

/-- The frames above a level. -/
def framesUpTo (level : Nat) (frames : List Links.Frame) : List Links.Frame :=
  frames.dropWhile fun f => decide (level ≤ f.level)

section
variable {issued : Nat} {before after : List Shape} {s : Shape} {frames : List Links.Frame}

theorem Walked.nil : Walked [] [] := ⟨rfl, rfl, by simp⟩

theorem map_framesUpTo {α : Type} (mark : Links.Frame → α) (level : Nat) (frames : List Links.Frame) :
    (framesUpTo level frames).map (fun f => (f.level, mark f)) =
      Path.upTo level (frames.map fun f => (f.level, mark f)) := by
  rw [framesUpTo, Path.upTo, List.dropWhile_map]
  rfl

/-- The innermost ancestor of the next node, as the frames have it. -/
theorem Walked.above (h : Walked before frames) (framed : Framed issued (before ++ s :: after))
    (shown : Shown (before ++ s :: after)) (hb : before ≠ []) :
    ∃ f rest, framesUpTo s.level frames = f :: rest ∧ s.level = f.level + 1 ∧
      s.parent = some f.id ∧ s.visible = f.opens := by
  obtain ⟨⟨a, ha, hl, hp⟩, -⟩ := ((rooted_append hb).mp framed.nested).2
  obtain ⟨⟨b, hb', -, hv⟩, -⟩ := ((rooted_append hb).mp shown.below).2
  rw [← h.names, ← map_framesUpTo Links.Frame.id] at ha
  rw [← h.opens, ← map_framesUpTo Links.Frame.opens] at hb'
  cases hf : framesUpTo s.level frames with
  | nil =>
    rw [hf] at ha
    cases ha
  | cons f rest =>
    rw [hf] at ha hb'
    cases ha
    cases hb'
    exact ⟨f, rest, rfl, hl, hp, hv⟩

theorem Walked.checkPlace (h : Walked before frames) (framed : Framed issued (before ++ s :: after))
    (shown : Shown (before ++ s :: after)) (next : Option NodeId) :
    Links.checkPlace (s.link next) frames = .ok () := by
  by_cases hb : before = []
  · subst hb
    have none : frames = [] := List.map_eq_nil_iff.mp h.names
    subst none
    have level : s.level = 0 := framed.nested.1
    have parent := framed.root s rfl
    have visible := shown.root s rfl
    simp [Links.checkPlace, Shape.link, level, parent, visible]
    rfl
  · obtain ⟨f, rest, hf, level, parent, visible⟩ := h.above framed shown hb
    have order : ∀ o ∈ f.lastOrder, ¬ s.rank < o := by
      intro o ho
      have hm : f ∈ frames := List.dropWhile_subset _ (hf ▸ List.mem_cons_self)
      obtain ⟨b, hmem, hp, rfl⟩ := h.orders f hm o ho
      have sorted := (List.pairwise_append.mp framed.sorted).2.2 b hmem s List.mem_cons_self
      exact Nat.not_lt.mpr (sorted (hp.trans parent.symm)).rank_le
    cases frames with
    | nil => cases hf
    | cons top frames =>
      have jump : ¬ (top.level + 1 < s.level ∨ s.level = 0) := by
        by_cases ht : s.level ≤ top.level
        · omega
        · rw [framesUpTo, List.dropWhile_cons_of_neg (by simpa using ht)] at hf
          cases hf
          omega
      have hd : ((top :: frames).dropWhile fun f => decide ((s.link next).level ≤ f.level)) =
          f :: rest := hf
      have hp : (s.link next).parent = some f.id := parent
      have hv : (s.link next).visible = f.opens := visible
      have hj : ¬ (top.level + 1 < (s.link next).level ∨ (s.link next).level = 0) := jump
      have ho : ∀ o ∈ f.lastOrder, ¬ (s.link next).order < o := order
      unfold Links.checkPlace
      dsimp only
      rw [if_neg hj, hd]
      simp only [hp, hv]
      rw [if_neg (by simp)]
      cases hl : f.lastOrder with
      | none => simp [hl, pure, Except.pure]
      | some o =>
        simp [hl, pure, Except.pure]
        exact fun hlt => absurd hlt (ho o hl)

/-- The frames after one more node. -/
theorem Walked.extend (h : Walked before frames) (framed : Framed issued (before ++ s :: after))
    (shown : Shown (before ++ s :: after)) (next : Option NodeId) :
    Walked (before ++ [s]) (Links.extend (s.link next) frames) := by
  by_cases hb : before = []
  · subst hb
    have none : frames = [] := List.map_eq_nil_iff.mp h.names
    subst none
    refine ⟨rfl, rfl, ?_⟩
    intro f hf o ho
    cases List.mem_singleton.mp hf
    cases ho
  · obtain ⟨f, rest, hf, -, parent, -⟩ := h.above framed shown hb
    have extended : Links.extend (s.link next) frames =
        ⟨s.level, s.id, s.opens, none⟩ :: { f with lastOrder := some s.rank } :: rest := by
      have hd : (frames.dropWhile fun f => decide ((s.link next).level ≤ f.level)) = f :: rest := hf
      unfold Links.extend
      rw [hd]
      rfl
    have path {α : Type} {mark : Links.Frame → α} {above : Shape → α}
        (marks : frames.map (fun f => (f.level, mark f)) = Path.pastAll above [] before) :
        (f.level, mark f) :: rest.map (fun f => (f.level, mark f)) =
          Path.upTo s.level (Path.pastAll above [] before) := by
      rw [← marks, ← map_framesUpTo, hf, List.map_cons]
    refine ⟨?_, ?_, ?_⟩
    · rw [extended, Path.pastAll_append, List.map_cons, List.map_cons]
      exact congrArg _ (path h.names)
    · rw [extended, Path.pastAll_append, List.map_cons, List.map_cons]
      exact congrArg _ (path h.opens)
    · intro g hg o ho
      have old {g : Links.Frame} (hg : g ∈ f :: rest) (ho : o ∈ g.lastOrder) :
          ∃ b ∈ before ++ [s], b.parent = some g.id ∧ b.rank = o := by
        obtain ⟨b, hb, hp, hr⟩ := h.orders g (List.dropWhile_subset _ (hf ▸ hg)) o ho
        exact ⟨b, List.mem_append_left _ hb, hp, hr⟩
      rw [extended] at hg
      rcases List.mem_cons.mp hg with rfl | hg
      · cases ho
      · rcases List.mem_cons.mp hg with rfl | hg
        · cases ho
          exact ⟨s, by simp, parent, rfl⟩
        · exact old (List.mem_cons_of_mem _ hg) ho

end

/-! ## The whole walk -/

/-- Over arranged nodes that show as they should the walk comes to its end. -/
theorem verifyFrom_ok {links : Links} {issued : Nat} {before ys : List Shape}
    {frames : List Links.Frame} {seen : List NodeId} (arranged : Arranged issued (before ++ ys))
    (shown : Shown (before ++ ys)) (laid : links.Laid (before ++ ys))
    (size : links.entries.length = issued) (walked : Walked before frames)
    (visited : seen = (before.map Shape.id).reverse) (fuel : Nat) (enough : ys.length ≤ fuel) :
    links.verifyFrom fuel (ys.head?.map Shape.id) seen frames =
      some (.ok (before ++ ys).length) := by
  induction ys generalizing before frames seen fuel with
  | nil =>
    subst visited
    cases fuel <;> simp [Links.verifyFrom]
  | cons s ys ih =>
    cases fuel with
    | zero => exact absurd enough (Nat.not_succ_le_zero _)
    | succ fuel =>
      have split : before ++ s :: ys = (before ++ [s]) ++ ys := by simp
      have unseen : seen.contains s.id = false := by
        rw [visited]
        have := arranged.not_mem.1
        simpa using this
      obtain ⟨children, found, count⟩ := arranged.children? laid size
      have counted : Links.checkChildren (s.link (ys.head?.map Shape.id)) children.length = .ok () := by
        have he : (s.link (ys.head?.map Shape.id)).expandable =
            decide (0 < (s.link (ys.head?.map Shape.id)).childCount) := arranged.expandable s (by simp)
        have hc : (s.link (ys.head?.map Shape.id)).childCount = children.length := count.symm
        rw [Links.checkChildren, he, hc]
        simp
      rw [Links.verifyFrom, laid.follow rfl]
      simp only [List.head?_cons, Option.map_some, List.tail_cons, Shape.link_id, unseen,
        walked.checkPlace arranged.toFramed shown, found, counted]
      rw [split] at arranged shown laid ⊢
      refine ih arranged shown laid ?_ ?_ fuel (Nat.le_of_succ_le_succ enough)
      · exact walked.extend (split ▸ arranged.toFramed) (split ▸ shown) _
      · rw [visited]
        simp

namespace Tree

variable {t : Tree}

theorem links_get? (t : Tree) {id : NodeId} (h : id.index < t.issued) :
    t.links.get? id = (Shape.links t.shapes).find? fun l => l.id == id := by
  rw [Links.get?, links, linkNodes_eq, List.getElem?_map, List.getElem?_range h]
  rfl

theorem links_laid (h : t.Sound) : t.links.Laid t.shapes := by
  intro before s after split
  have framed := h.arranged.toFramed
  rw [links_get? t (framed.issued s (by rw [split]; simp)), split]
  rw [split] at framed
  exact Shape.find?_links framed.not_mem.1

theorem ids_links (xs : List Shape) : (Shape.links xs).map Link.id = xs.map Shape.id := by
  induction xs with
  | nil => rfl
  | cons s xs ih => simp only [Shape.links, List.map_cons, Shape.link_id, ih]

/-- As many names are in use as there are nodes. -/
theorem links_live (h : t.Sound) : t.links.live = t.shapes.length := by
  have framed := h.arranged.toFramed
  have used (i : Nat) : ((linkNodes t.nodes).find? fun l => l.id == ⟨i⟩).isSome = true ↔
      i ∈ t.shapes.map fun s => s.id.index := by
    have : (∃ l ∈ Shape.links t.shapes, l.id = ⟨i⟩) ↔ (⟨i⟩ : NodeId) ∈ t.shapes.map Shape.id := by
      rw [← ids_links, List.mem_map]
    rw [linkNodes_eq, ← shapes, List.find?_isSome]
    simp only [beq_iff_eq, this, List.mem_map]
    constructor
    · rintro ⟨s, hs, e⟩
      exact ⟨s, hs, congrArg NodeId.index e⟩
    · rintro ⟨s, hs, rfl⟩
      exact ⟨s, hs, rfl⟩
  have same : ((List.range t.issued).filter fun i =>
      ((linkNodes t.nodes).find? fun l => l.id == ⟨i⟩).isSome).Perm
        (t.shapes.map fun s => s.id.index) := by
    refine (List.perm_ext_iff_of_nodup (List.nodup_range.filter _)
      framed.nodup_index).mpr fun i => ?_
    rw [List.mem_filter, used, List.mem_range]
    constructor
    · exact fun h => h.2
    · intro hi
      obtain ⟨s, hs, rfl⟩ := List.mem_map.mp hi
      exact ⟨framed.issued s hs, hi⟩
  rw [Links.live, links, List.filter_map, List.length_map]
  exact same.length_eq.trans (List.length_map _)

/-- The check finds nothing wrong with a sound tree. -/
theorem Sound.verify (h : t.Sound) : t.verify = some (.ok ()) := by
  have size : t.links.entries.length = t.issued := by simp [links]
  have len := h.arranged.length_le
  have root : t.links.root = t.shapes.head?.map Shape.id := by
    simp only [links, root?, shapes, List.head?_map, Option.map_map]
    rfl
  have walk := @verifyFrom_ok t.links t.issued [] t.shapes [] [] h.arranged h.shown (links_laid h) size
    Walked.nil rfl (t.links.entries.length + 1) (by omega)
  rw [Tree.verify, Links.verify, root, walk, links_live h]
  simp

end Tree

end QueryMarkup
