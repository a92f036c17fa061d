import QueryMarkup.Proofs.Tree.FullEntry
import QueryMarkup.Proofs.Tree.Placing

/-!
# Planting branches

An addition, as far as the entries of a tree can tell. A branch goes behind all that it passes, and
of two branches the one that passes the other comes last. So it does not matter which of them is
planted first, once the ids of what is new are forgotten.
-/
namespace QueryMarkup

/-! ## A run behind others -/

section
variable {α : Type} {p q : α → Bool} {x : α} {run front back xs : List α}

/-- Puts a run into a list, behind those at its start that pass a test. -/
def lodge (p : α → Bool) (run xs : List α) : List α := xs.takeWhile p ++ run ++ xs.dropWhile p

theorem lodge_nil : lodge p run [] = run := by simp [lodge]

theorem lodge_append (passed : ∀ x ∈ front, p x = true) :
    lodge p run (front ++ xs) = front ++ lodge p run xs := by
  rw [lodge, List.takeWhile_append_of_pos passed, List.dropWhile_append_of_pos passed, lodge]
  simp

theorem lodge_cons_of_pos (passed : p x = true) : lodge p run (x :: xs) = x :: lodge p run xs := by
  rw [lodge, List.takeWhile_cons_of_pos passed, List.dropWhile_cons_of_pos passed, lodge]
  simp

theorem lodge_of_head (stop : ∀ x ∈ xs.head?, p x = false) : lodge p run xs = run ++ xs := by
  cases xs with
  | nil => simp [lodge]
  | cons x xs => simp [lodge, stop x rfl]

/-- Two runs may be put into a list in any order, if one test is stricter, the run that has it passes
the other test, and the other run does not pass it. -/
theorem lodge_comm (stricter : ∀ x, p x = true → q x = true) (through : ∀ x ∈ front, q x = true)
    (under : ∀ x ∈ back.head?, p x = false) (xs : List α) :
    lodge p front (lodge q back xs) = lodge q back (lodge p front xs) := by
  induction xs with
  | nil =>
    have all : lodge q back front = front ++ back := by
      rw [← List.append_nil front, lodge_append through, lodge_nil, List.append_nil]
    rw [lodge_nil, lodge_nil, lodge_of_head under, all]
  | cons x xs ih =>
    by_cases strict : p x = true
    · have wide := stricter x strict
      rw [lodge_cons_of_pos wide, lodge_cons_of_pos strict, lodge_cons_of_pos strict,
        lodge_cons_of_pos wide, ih]
    · -- both runs stay before what follows, the stricter one first
      have stop : ∀ y ∈ (x :: xs).head?, p y = false := by simpa using strict
      rw [lodge_of_head stop, lodge_append through]
      refine lodge_of_head fun y hy => ?_
      by_cases wide : q x = true
      · rw [lodge_cons_of_pos wide] at hy
        exact stop y hy
      · rw [lodge_of_head (by simpa using wide), List.head?_append, Option.mem_def,
          Option.or_eq_some_iff] at hy
        rcases hy with hy | ⟨-, hy⟩
        · exact under y hy
        · exact stop y hy

end

namespace Entry

variable {e : Entry} {issued level rank level' rank' : Nat} {kind : Kind}

/-! ## Branches -/

/-- A new child on this level and of this rank passes the entry. -/
def passed (level rank : Nat) (e : Entry) : Bool :=
  decide (level < e.level) || (e.level == level && decide (e.kind.rank ≤ rank))

theorem passed_iff : e.passed level rank = true ↔
    level < e.level ∨ e.level = level ∧ e.kind.rank ≤ rank := by
  simp [passed]

/-- An entry that is new, in a tree where so many ids had been issued. -/
def sprout (issued : Nat) (kind : Kind) (level : Nat) : Entry :=
  ⟨⟨issued⟩, kind, kind.tag?.getD "", level, none, [], fun _ => ""⟩

/-- A new entry with the child that its kind cannot be without. -/
def branch (issued : Nat) (kind : Kind) (level : Nat) : List Entry :=
  sprout issued kind level ::
    kind.mandatoryChild?.toList.map fun child => sprout issued child (level + 1)

theorem id_of_mem_branch (he : e ∈ branch issued kind level) : e.id = ⟨issued⟩ := by
  rcases List.mem_cons.mp he with rfl | he
  · rfl
  · obtain ⟨child, -, rfl⟩ := List.mem_map.mp he
    rfl

/-- A branch is passed if its first entry is. -/
theorem passed_of_mem_branch (first : level' < level ∨ level = level' ∧ kind.rank ≤ rank')
    (he : e ∈ branch issued kind level) : e.passed level' rank' = true := by
  rw [passed_iff]
  rcases List.mem_cons.mp he with rfl | he
  · exact first
  · obtain ⟨child, -, rfl⟩ := List.mem_map.mp he
    exact .inl (by simp only [sprout]; omega)

/-- The second of two branches on the same level, or a deeper one, is planted as if the other was not
there. -/
theorem lodge_branch_comm {kind' : Kind}
    (above : level' < level ∨ level = level' ∧ kind.rank < kind'.rank) (xs : List Entry) :
    lodge (passed level kind.rank) (branch issued kind level)
        (lodge (passed level' kind'.rank) (branch issued kind' level') xs) =
      lodge (passed level' kind'.rank) (branch issued kind' level')
        (lodge (passed level kind.rank) (branch issued kind level) xs) := by
  have through : ∀ e ∈ branch issued kind level, e.passed level' kind'.rank = true := fun e he =>
    passed_of_mem_branch (by omega) he
  refine lodge_comm (fun e he => ?_) through (fun e he => ?_) xs
  · rw [passed_iff] at he ⊢
    omega
  · obtain rfl : sprout issued kind' level' = e := by simpa [branch] using he
    rw [← Bool.not_eq_true, passed_iff]
    simp only [sprout]
    omega

/-! ## Planting -/

/-- Puts a new branch below the entry with an id. -/
def plant (issued : Nat) (parent : NodeId) (kind : Kind) : List Entry → List Entry
  | [] => []
  | e :: rest =>
    if e.id = parent then
      e :: lodge (passed (e.level + 1) kind.rank) (branch issued kind (e.level + 1)) rest
    else e :: plant issued parent kind rest

variable {parent : NodeId} {rest front : List Entry}

theorem plant_here : plant issued e.id kind (e :: rest) =
    e :: lodge (passed (e.level + 1) kind.rank) (branch issued kind (e.level + 1)) rest := if_pos rfl

theorem plant_cons (other : e.id ≠ parent) :
    plant issued parent kind (e :: rest) = e :: plant issued parent kind rest := if_neg other

theorem plant_append (others : ∀ e ∈ front, e.id ≠ parent) :
    plant issued parent kind (front ++ rest) = front ++ plant issued parent kind rest := by
  induction front with
  | nil => rfl
  | cons e front ih =>
    obtain ⟨here, later⟩ := List.forall_mem_cons.mp others
    rw [List.cons_append, plant_cons here, ih later, List.cons_append]

theorem head?_plant (xs : List Entry) : (plant issued parent kind xs).head? = xs.head? := by
  cases xs with
  | nil => rfl
  | cons e rest => rw [plant]; split <;> rfl

/-- A branch is planted below what another one passes, or behind it. -/
theorem plant_lodge (old : parent ≠ ⟨issued⟩) (kind' : Kind) (level : Nat) (xs : List Entry) :
    plant issued parent kind (lodge (passed level kind'.rank) (branch issued kind' level) xs) =
      lodge (passed level kind'.rank) (branch issued kind' level) (plant issued parent kind xs) := by
  have new : ∀ e ∈ branch issued kind' level, e.id ≠ parent := fun e he same =>
    old (same.symm.trans (id_of_mem_branch he))
  induction xs with
  | nil =>
    have alone := @plant_append issued kind parent [] _ new
    rw [List.append_nil] at alone
    rw [plant, lodge_nil, alone, plant, List.append_nil]
  | cons e rest ih =>
    by_cases pass : e.passed level kind'.rank = true
    · rw [lodge_cons_of_pos pass]
      by_cases here : e.id = parent
      · subst here
        have deep := passed_iff.mp pass
        rw [plant_here, plant_here, lodge_cons_of_pos pass, lodge_branch_comm (by omega)]
      · rw [plant_cons here, plant_cons here, lodge_cons_of_pos pass, ih]
    · have stop : ∀ x ∈ (e :: rest).head?, x.passed level kind'.rank = false := by simpa using pass
      rw [lodge_of_head stop, plant_append new, lodge_of_head]
      rwa [head?_plant]

/-- Branches can be planted in any order. -/
theorem plant_comm {other : NodeId} (old : parent ≠ ⟨issued⟩) (old' : other ≠ ⟨issued⟩) (kind kind' : Kind)
    (xs : List Entry) : plant issued other kind' (plant issued parent kind xs) =
      plant issued parent kind (plant issued other kind' xs) := by
  induction xs with
  | nil => rfl
  | cons e rest ih =>
    by_cases here : e.id = parent <;> by_cases there : e.id = other
    · -- below the same entry the ranks decide, and branches of one rank are alike
      subst here there
      rw [plant_here, plant_here, plant_here, plant_here]
      rcases Nat.lt_trichotomy kind.rank kind'.rank with lower | same | higher
      · rw [lodge_branch_comm (.inr ⟨rfl, lower⟩)]
      · rw [Kind.rank_injective kind kind' same]
      · rw [lodge_branch_comm (.inr ⟨rfl, higher⟩)]
    · subst here
      rw [plant_here, plant_cons there, plant_cons there, plant_here, plant_lodge old']
    · subst there
      rw [plant_here, plant_cons here, plant_cons here, plant_here, plant_lodge old]
    · rw [plant_cons here, plant_cons there, plant_cons there, plant_cons here, ih]

end Entry

end QueryMarkup
