import Mathlib.Data.List.TakeWhile
import QueryMarkup.Tree.Visibility

/-!
# Walks over nodes in preorder

A node's ancestors are found on a path: the innermost ancestor first, each with
its level and a mark. `Along` says that every node of a list stands one level
below its innermost ancestor on the path and fits the mark of it. With the name
as the mark this is the nesting of the nodes, with the visibility below a node
as the mark it says which nodes are visible.

* `along_insert`, `along_delete`: what happens around an inserted or removed run;
* `Rooted`: a whole tree, the root first.
-/
namespace QueryMarkup

/-- What a node records about its place in the tree: its id, kind, tag, level and parent, its flags
and the count of its children. -/
structure Shape where
  id : NodeId
  kind : Kind
  tag : String
  level : Nat
  parent : Option NodeId
  expandable : Bool
  expanded : Bool
  visible : Bool
  childCount : Nat
  deriving DecidableEq

namespace Shape

def rank (s : Shape) : Nat := s.kind.rank

/-- The children of a node show. -/
def opens (s : Shape) : Bool := s.visible && s.expanded

end Shape

def Node.shape (n : Node) : Shape where
  id := n.id
  kind := n.kind
  tag := n.tag
  level := n.level
  parent := n.parent
  expandable := n.expandable
  expanded := n.expanded
  visible := n.visible
  childCount := n.childCount

def Tree.shapes (t : Tree) : List Shape := t.nodes.map Node.shape

/-- Marks of ancestors with their levels, the innermost first. -/
abbrev Path (α : Type) := List (Nat × α)

namespace Path

variable {α : Type}

/-- The ancestors on a path that a node on this level has. -/
def upTo (level : Nat) (path : Path α) : Path α := path.dropWhile fun a => decide (level ≤ a.1)

/-- The path after a node. -/
def past (mark : Shape → α) (path : Path α) (s : Shape) : Path α :=
  (s.level, mark s) :: path.upTo s.level

/-- The path after a list of nodes. -/
def pastAll (mark : Shape → α) (path : Path α) (xs : List Shape) : Path α :=
  xs.foldl (past mark) path

@[simp] theorem upTo_nil (level : Nat) : upTo level ([] : Path α) = [] := rfl

theorem upTo_cons_of_le {level : Nat} {a : Nat × α} {path : Path α} (h : level ≤ a.1) :
    upTo level (a :: path) = upTo level path := by
  simp [upTo, h]

theorem upTo_cons_of_lt {level : Nat} {a : Nat × α} {path : Path α} (h : a.1 < level) :
    upTo level (a :: path) = a :: path := by
  simp [upTo, h]

theorem upTo_upTo {l k : Nat} (h : l ≤ k) (path : Path α) :
    (path.upTo k).upTo l = path.upTo l := by
  induction path with
  | nil => rfl
  | cons a path ih =>
    by_cases ha : k ≤ a.1
    · rw [upTo_cons_of_le ha, ih, upTo_cons_of_le (Nat.le_trans h ha)]
    · rw [upTo_cons_of_lt (by omega)]

theorem mem_of_mem_upTo {level : Nat} {path : Path α} {a : Nat × α} (h : a ∈ path.upTo level) :
    a ∈ path :=
  (List.dropWhile_subset _) h

theorem upTo_past (mark : Shape → α) {path : Path α} {s : Shape} {level : Nat}
    (h : level ≤ s.level) : (path.past mark s).upTo level = path.upTo level := by
  rw [past, upTo_cons_of_le h, upTo_upTo h]

@[simp] theorem pastAll_nil (mark : Shape → α) (path : Path α) : path.pastAll mark [] = path := rfl

@[simp] theorem pastAll_cons (mark : Shape → α) (path : Path α) (s : Shape) (xs : List Shape) :
    path.pastAll mark (s :: xs) = (path.past mark s).pastAll mark xs := rfl

theorem pastAll_append (mark : Shape → α) (path : Path α) (xs ys : List Shape) :
    path.pastAll mark (xs ++ ys) = (path.pastAll mark xs).pastAll mark ys :=
  List.foldl_append

/-- Deeper nodes leave no trace on what is above them. -/
theorem upTo_pastAll (mark : Shape → α) {path : Path α} {xs : List Shape} {level : Nat}
    (h : ∀ s ∈ xs, level ≤ s.level) : (path.pastAll mark xs).upTo level = path.upTo level := by
  induction xs generalizing path with
  | nil => rfl
  | cons s xs ih =>
    rw [pastAll_cons, ih fun r hr => h r (List.mem_cons_of_mem _ hr),
      upTo_past mark (h s List.mem_cons_self)]

/-- What is deeper than an ancestor keeps it and all above it. -/
theorem upTo_append_of_lt {level : Nat} {a : Nat × α} (h : a.1 < level) (inner outer : Path α) :
    upTo level (inner ++ a :: outer) = upTo level inner ++ a :: outer := by
  induction inner with
  | nil => rw [List.nil_append, upTo_cons_of_lt h, upTo_nil, List.nil_append]
  | cons b inner ih =>
    by_cases hb : level ≤ b.1
    · rw [List.cons_append, upTo_cons_of_le hb, ih, upTo_cons_of_le hb]
    · rw [List.cons_append, upTo_cons_of_lt (by omega), upTo_cons_of_lt (by omega),
        List.cons_append]

theorem mem_past {mark : Shape → α} {path : Path α} {s : Shape} {a : Nat × α}
    (h : a ∈ path.past mark s) : a = (s.level, mark s) ∨ a ∈ path := by
  rcases List.mem_cons.mp h with h | h
  · exact .inl h
  · exact .inr (mem_of_mem_upTo h)

/-- What is on the path after some nodes was there before or comes from one of them. -/
theorem mem_pastAll {mark : Shape → α} {path : Path α} {xs : List Shape} {a : Nat × α}
    (h : a ∈ path.pastAll mark xs) : a ∈ path ∨ ∃ s ∈ xs, a = (s.level, mark s) := by
  induction xs generalizing path with
  | nil => exact .inl h
  | cons s xs ih =>
    rcases ih h with h | ⟨r, hr, ha⟩
    · rcases mem_past h with h | h
      · exact .inr ⟨s, List.mem_cons_self, h⟩
      · exact .inl h
    · exact .inr ⟨r, List.mem_cons_of_mem _ hr, ha⟩

end Path

section
variable {α : Type} (mark : Shape → α) (fits : α → Shape → Prop)

/-- The node stands one level below its innermost ancestor on the path, and fits it. -/
def HangsOn (path : Path α) (s : Shape) : Prop :=
  ∃ a ∈ (path.upTo s.level).head?, s.level = a.1 + 1 ∧ fits a.2 s

/-- Every node of a list hangs on the path that the nodes before it leave. -/
def Along : Path α → List Shape → Prop
  | _, [] => True
  | path, s :: rest => HangsOn fits path s ∧ Along (path.past mark s) rest

variable {mark fits} {path : Path α}

theorem hangsOn_congr {q : Path α} {s : Shape} (h : path.upTo s.level = q.upTo s.level) :
    HangsOn fits path s ↔ HangsOn fits q s := by
  simp only [HangsOn, h]

theorem along_append {xs ys : List Shape} :
    Along mark fits path (xs ++ ys) ↔
      Along mark fits path xs ∧ Along mark fits (path.pastAll mark xs) ys := by
  induction xs generalizing path with
  | nil => simp [Along]
  | cons s xs ih => simp only [List.cons_append, Along, ih, Path.pastAll_cons, and_assoc]

/-- Only the ancestors that the first node keeps matter. -/
theorem along_congr {q : Path α} {xs : List Shape}
    (h : ∀ s ∈ xs.head?, path.upTo s.level = q.upTo s.level) :
    Along mark fits path xs ↔ Along mark fits q xs := by
  cases xs with
  | nil => rfl
  | cons s xs =>
    have hs := h s rfl
    simp only [Along, hangsOn_congr hs, Path.past, hs]

/-- A node may be put behind deeper nodes and before what is not deeper than itself. -/
theorem along_insert {passed rest : List Shape} {x : Shape}
    (h : Along mark fits path (passed ++ rest)) (deep : ∀ s ∈ passed, x.level ≤ s.level)
    (stop : ∀ r ∈ rest.head?, r.level ≤ x.level) (hx : HangsOn fits path x) :
    Along mark fits path (passed ++ x :: rest) := by
  obtain ⟨hp, hr⟩ := along_append.mp h
  have kept : (path.pastAll mark passed).upTo x.level = path.upTo x.level :=
    Path.upTo_pastAll mark deep
  refine along_append.mpr ⟨hp, (hangsOn_congr kept).mpr hx, (along_congr ?_).mp hr⟩
  intro r hr
  exact (Path.upTo_past mark (stop r hr)).symm

/-- A run of nodes may be taken out before what is not deeper than any of them. -/
theorem along_delete {gone rest : List Shape} (level : Nat)
    (h : Along mark fits path (gone ++ rest)) (deep : ∀ s ∈ gone, level ≤ s.level)
    (stop : ∀ r ∈ rest.head?, r.level ≤ level) : Along mark fits path rest := by
  refine (along_congr fun r hr => ?_).mp (along_append.mp h).2
  exact Path.upTo_pastAll mark fun s hs => Nat.le_trans (stop r hr) (deep s hs)

/-- The ancestor of a node was on the path before or is one of the earlier nodes. -/
theorem Along.source {before after : List Shape} {s : Shape}
    (h : Along mark fits path (before ++ s :: after)) :
    ∃ a, s.level = a.1 + 1 ∧ fits a.2 s ∧
      (a ∈ path ∨ ∃ m ∈ before, a = (m.level, mark m)) := by
  obtain ⟨a, ha, hl, hf⟩ := (along_append.mp h).2.1
  exact ⟨a, hl, hf, Path.mem_pastAll (Path.mem_of_mem_upTo (List.mem_of_head? ha))⟩

/-- Nodes that are all deeper than an ancestor do not see what is above it. -/
theorem along_outer {a : Nat × α} {inner outer : Path α} {xs : List Shape}
    (h : ∀ s ∈ xs, a.1 < s.level) :
    Along mark fits (inner ++ a :: outer) xs ↔ Along mark fits (inner ++ [a]) xs := by
  induction xs generalizing inner with
  | nil => rfl
  | cons s xs ih =>
    have hs := h s List.mem_cons_self
    have hx := @ih ((s.level, mark s) :: inner.upTo s.level)
      fun r hr => h r (List.mem_cons_of_mem _ hr)
    have head : (inner.upTo s.level ++ a :: outer).head? = (inner.upTo s.level ++ [a]).head? := by
      cases inner.upTo s.level <;> rfl
    simp only [List.cons_append] at hx
    simp only [Along, HangsOn, Path.past, Path.upTo_append_of_lt hs, head, hx]

/-- Changes that keep level, mark and fitting keep the nesting. -/
theorem along_map {xs : List Shape} (f : Shape → Shape)
    (h : ∀ s ∈ xs, (f s).level = s.level ∧ mark (f s) = mark s ∧ ∀ a, fits a (f s) ↔ fits a s) :
    Along mark fits path (xs.map f) ↔ Along mark fits path xs := by
  induction xs generalizing path with
  | nil => rfl
  | cons s xs ih =>
    obtain ⟨hl, hm, hf⟩ := h s List.mem_cons_self
    have hp : path.past mark (f s) = path.past mark s := by simp only [Path.past, hl, hm]
    simp only [List.map_cons, Along, hp, ih fun r hr => h r (List.mem_cons_of_mem _ hr),
      HangsOn, hl, hf]

variable (mark fits)

/-- A tree: the root is on level 0 and all other nodes hang below it. -/
def Rooted : List Shape → Prop
  | [] => True
  | r :: rest => r.level = 0 ∧ Along mark fits [(r.level, mark r)] rest

variable {mark fits}

/-- The ancestors of what may follow a list of nodes. -/
theorem rooted_append {xs ys : List Shape} (h : xs ≠ []) :
    Rooted mark fits (xs ++ ys) ↔
      Rooted mark fits xs ∧ Along mark fits (Path.pastAll mark [] xs) ys := by
  cases xs with
  | nil => exact absurd rfl h
  | cons r xs =>
    simp only [List.cons_append, Rooted, along_append, Path.pastAll_cons, Path.past,
      Path.upTo_nil, and_assoc]

/-- What comes after a node hangs on the node and on its ancestors. -/
theorem rooted_split {before after : List Shape} {s : Shape} :
    Rooted mark fits (before ++ s :: after) ↔ Rooted mark fits (before ++ [s]) ∧
      Along mark fits ((s.level, mark s) :: (Path.pastAll mark [] before).upTo s.level) after := by
  have hs : before ++ s :: after = (before ++ [s]) ++ after := by simp
  rw [hs, rooted_append (by simp), Path.pastAll_append]
  rfl

theorem Rooted.along_tail {before after : List Shape} {s : Shape}
    (h : Rooted mark fits (before ++ s :: after)) :
    Along mark fits ((s.level, mark s) :: (Path.pastAll mark [] before).upTo s.level) after :=
  (rooted_split.mp h).2

/-- The mark of the last node does not matter. -/
theorem rooted_last {before : List Shape} {s r : Shape} (hl : r.level = s.level)
    (hf : ∀ a, fits a r ↔ fits a s) :
    Rooted mark fits (before ++ [r]) ↔ Rooted mark fits (before ++ [s]) := by
  cases before with
  | nil => simp [Rooted, Along, hl]
  | cons b before => simp [Rooted, along_append, Along, HangsOn, hl, hf]

theorem rooted_map {xs : List Shape} (f : Shape → Shape)
    (h : ∀ s ∈ xs, (f s).level = s.level ∧ mark (f s) = mark s ∧ ∀ a, fits a (f s) ↔ fits a s) :
    Rooted mark fits (xs.map f) ↔ Rooted mark fits xs := by
  cases xs with
  | nil => rfl
  | cons r xs =>
    obtain ⟨hl, hm, _⟩ := h r List.mem_cons_self
    simp only [List.map_cons, Rooted, hl, hm, along_map f fun s hs => h s (List.mem_cons_of_mem _ hs)]

/-- The ancestor of a node that is not the root is one of the earlier nodes. -/
theorem Rooted.source {before after : List Shape} {s : Shape}
    (h : Rooted mark fits (before ++ s :: after)) (hb : before ≠ []) :
    ∃ m ∈ before, s.level = m.level + 1 ∧ fits (mark m) s := by
  obtain ⟨⟨a, ha, hl, hf⟩, _⟩ := ((rooted_append hb).mp h).2
  rcases Path.mem_pastAll (Path.mem_of_mem_upTo (List.mem_of_head? ha)) with ha | ⟨m, hm, rfl⟩
  · simp at ha
  · exact ⟨m, hm, hl, hf⟩

end

end QueryMarkup
