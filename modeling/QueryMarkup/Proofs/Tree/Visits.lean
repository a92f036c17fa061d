import Mathlib.Data.Finset.Card
import QueryMarkup.Tree.Verify

/-!
# Walks along links

A walk starts at a name and goes on to the node after each, for as long as there is one. It comes
to an end, or it comes back to a node and then goes round for ever:

* `exists_visit_eq`: a walk of more steps than there are places visits a node twice;
* `forall_visit`: what it does in that many steps it does for ever;
* `children?_eq_none_iff`: the children of a node cannot be found exactly when the walk behind it
  never leaves what is deeper;
* `Once.exists_walk`: a walk that visits no node twice ends, and no node is on it twice.
-/
namespace QueryMarkup.Links

variable {links : Links} {cursor : Option NodeId}

/-- Every node is at the place of its name. -/
def Indexed (links : Links) : Prop := ∀ id link, links.get? id = some link → link.id = id

/-- The node that a walk visits after some steps, if it gets that far. -/
def visit (links : Links) (cursor : Option NodeId) : Nat → Option Link
  | 0 => cursor.bind links.get?
  | k + 1 => (links.visit cursor k).bind fun link => link.next.bind links.get?

/-- A walk visits no node twice. -/
def Once (links : Links) (cursor : Option NodeId) : Prop :=
  ∀ i j a b, links.visit cursor i = some a → links.visit cursor j = some b → a.id = b.id → i = j

/-- The nodes that a walk visits, one after the other, up to its end. -/
def Walk (links : Links) (cursor : Option NodeId) (xs : List Link) : Prop :=
  ∀ k, links.visit cursor k = xs[k]?

/-! ## Steps -/

/-- A walk behind a node is the rest of the walk that begins with the node. -/
theorem visit_succ (links : Links) (cursor : Option NodeId) (k : Nat) :
    links.visit cursor (k + 1) =
      (cursor.bind links.get?).bind fun link => links.visit link.next k := by
  induction k with
  | zero => rfl
  | succ k ih =>
    rw [visit, ih, Option.bind_assoc]
    rfl

theorem visit_succ_of_eq {link : Link} (h : cursor.bind links.get? = some link) (k : Nat) :
    links.visit cursor (k + 1) = links.visit link.next k := by
  rw [visit_succ, h, Option.bind_some]

/-- From the same node a walk goes on in the same way. -/
theorem visit_add_congr {i j : Nat} (h : links.visit cursor i = links.visit cursor j) (k : Nat) :
    links.visit cursor (i + k) = links.visit cursor (j + k) := by
  induction k with
  | zero => exact h
  | succ k ih =>
    show (links.visit cursor (i + k)).bind _ = (links.visit cursor (j + k)).bind _
    rw [ih]

theorem get?_of_visit (indexed : links.Indexed) {k : Nat} {link : Link}
    (h : links.visit cursor k = some link) : links.get? link.id = some link := by
  have found : ∃ id, links.get? id = some link := by
    cases k with
    | zero =>
      obtain ⟨id, -, found⟩ := Option.bind_eq_some_iff.mp h
      exact ⟨id, found⟩
    | succ k =>
      obtain ⟨before, -, next⟩ := Option.bind_eq_some_iff.mp h
      obtain ⟨id, -, found⟩ := Option.bind_eq_some_iff.mp next
      exact ⟨id, found⟩
  obtain ⟨id, found⟩ := found
  rwa [indexed id link found]

theorem index_lt_of_get? {id : NodeId} {link : Link} (h : links.get? id = some link) :
    id.index < links.entries.length := by
  have there : links.entries[id.index]? = some (some link) := Option.join_eq_some_iff.mp h
  exact (List.getElem?_eq_some_iff.mp there).1

theorem indexed_of_zipIdx (h : ∀ p ∈ links.entries.zipIdx, ∀ link ∈ p.1, link.id = ⟨p.2⟩) :
    links.Indexed := by
  intro id link found
  have there : links.entries[id.index]? = some (some link) := Option.join_eq_some_iff.mp found
  exact h (some link, id.index) (List.mem_zipIdx_iff_getElem?.mpr there) link rfl

/-! ## Going round -/

/-- A walk of more steps than there are places visits a node twice. -/
theorem exists_visit_eq (indexed : links.Indexed)
    (goes : ∀ k ≤ links.entries.length, (links.visit cursor k).isSome = true) :
    ∃ i j, i < j ∧ j ≤ links.entries.length ∧ links.visit cursor i = links.visit cursor j := by
  let place (k : Nat) : Nat := ((links.visit cursor k).map (·.id.index)).getD 0
  have visits : ∀ k ≤ links.entries.length, ∃ link, links.visit cursor k = some link ∧
      place k = link.id.index ∧ links.get? link.id = some link := by
    intro k hk
    obtain ⟨link, hl⟩ := Option.isSome_iff_exists.mp (goes k hk)
    exact ⟨link, hl, by simp [place, hl], get?_of_visit indexed hl⟩
  have inside : ∀ k ∈ Finset.range (links.entries.length + 1),
      place k ∈ Finset.range links.entries.length := by
    intro k hk
    obtain ⟨link, -, here, found⟩ := visits k (Nat.lt_succ_iff.mp (Finset.mem_range.mp hk))
    rw [here]
    exact Finset.mem_range.mpr (index_lt_of_get? found)
  obtain ⟨i, hi, j, hj, other, same⟩ := Finset.exists_ne_map_eq_of_card_lt_of_maps_to
    (by simp) inside
  have hi := Nat.lt_succ_iff.mp (Finset.mem_range.mp hi)
  have hj := Nat.lt_succ_iff.mp (Finset.mem_range.mp hj)
  have twice : links.visit cursor i = links.visit cursor j := by
    obtain ⟨a, ha, ia, fa⟩ := visits i hi
    obtain ⟨b, hb, ib, fb⟩ := visits j hj
    have named : a.id = b.id := by
      have index : a.id.index = b.id.index := by rw [← ia, ← ib, same]
      cases ida : a.id
      cases idb : b.id
      rw [ida, idb] at index
      exact congrArg NodeId.mk index
    rw [named, fb] at fa
    rw [ha, hb, fa]
  rcases Nat.lt_or_gt_of_ne other with lt | gt
  · exact ⟨i, j, lt, hj, twice⟩
  · exact ⟨j, i, gt, hi, twice.symm⟩

/-- A walk that has come back visits no node that it has not visited before. -/
theorem exists_visit_of_eq {i j : Nat} (lt : i < j)
    (back : links.visit cursor i = links.visit cursor j) (k : Nat) :
    ∃ l < j, links.visit cursor k = links.visit cursor l := by
  induction k using Nat.strong_induction_on with
  | _ k ih =>
    by_cases soon : k < j
    · exact ⟨k, soon, rfl⟩
    · -- one round earlier the walk was at the same node
      have earlier : links.visit cursor k = links.visit cursor (i + (k - j)) := by
        have round := visit_add_congr back (k - j)
        rw [round]
        congr 1
        omega
      obtain ⟨l, hl, same⟩ := ih (i + (k - j)) (by omega)
      exact ⟨l, hl, earlier.trans same⟩

/-- What a walk does in more steps than there are places, it does for ever. -/
theorem forall_visit (indexed : links.Indexed) {P : Link → Prop}
    (h : ∀ k ≤ links.entries.length, ∃ link, links.visit cursor k = some link ∧ P link) (k : Nat) :
    ∃ link, links.visit cursor k = some link ∧ P link := by
  have goes : ∀ k ≤ links.entries.length, (links.visit cursor k).isSome = true := by
    intro k hk
    obtain ⟨link, hl, -⟩ := h k hk
    rw [hl]
    rfl
  obtain ⟨i, j, lt, hj, back⟩ := exists_visit_eq indexed goes
  obtain ⟨l, hl, same⟩ := exists_visit_of_eq lt back k
  rw [same]
  exact h l (by omega)

/-! ## Runs -/

/-- A run cannot be found in some steps exactly when these steps do not leave what is deeper. -/
theorem runFrom_eq_none_iff (links : Links) (level fuel : Nat) (cursor : Option NodeId) :
    links.runFrom level fuel cursor = none ↔
      ∀ k < fuel, ∃ link, links.visit cursor k = some link ∧ level < link.level := by
  induction fuel generalizing cursor with
  | zero => simp [runFrom]
  | succ fuel ih =>
    rw [runFrom]
    cases here : cursor.bind links.get? with
    | none =>
      simp only [reduceCtorEq, false_iff]
      intro h
      obtain ⟨link, hl, -⟩ := h 0 (Nat.succ_pos _)
      have nothing : links.visit cursor 0 = none := here
      rw [nothing] at hl
      cases hl
    | some link =>
      have first : links.visit cursor 0 = some link := here
      dsimp only
      split
      · rename_i deeper
        rw [Option.map_eq_none_iff, ih]
        constructor
        · intro h k hk
          cases k with
          | zero => exact ⟨link, first, deeper⟩
          | succ k =>
            rw [visit_succ_of_eq here]
            exact h k (Nat.lt_of_succ_lt_succ hk)
        · intro h k hk
          rw [← visit_succ_of_eq here]
          exact h (k + 1) (Nat.succ_lt_succ hk)
      · rename_i higher
        simp only [reduceCtorEq, false_iff]
        intro h
        obtain ⟨other, hl, deeper⟩ := h 0 (Nat.succ_pos _)
        rw [first] at hl
        cases hl
        exact higher deeper

/-- The children of a node cannot be found exactly when the walk behind it never leaves what is
deeper than the node. -/
theorem children?_eq_none_iff (indexed : links.Indexed) (link : Link) :
    links.children? link = none ↔
      ∀ k, ∃ m, links.visit link.next k = some m ∧ link.level < m.level := by
  rw [children?, Option.map_eq_none_iff, runFrom_eq_none_iff]
  constructor
  · intro h
    exact forall_visit indexed fun k hk => h k (Nat.lt_succ_of_le hk)
  · intro h k _
    exact h k

/-! ## Walks that end -/

theorem walk_nil_iff : links.Walk cursor [] ↔ cursor.bind links.get? = none := by
  constructor
  · intro h
    exact h 0
  · intro h k
    cases k with
    | zero => exact h
    | succ k => rw [visit_succ, h]; rfl

theorem walk_cons_iff {x : Link} {xs : List Link} :
    links.Walk cursor (x :: xs) ↔ cursor.bind links.get? = some x ∧ links.Walk x.next xs := by
  constructor
  · intro h
    have here : cursor.bind links.get? = some x := h 0
    refine ⟨here, fun k => ?_⟩
    rw [← visit_succ_of_eq here]
    exact h (k + 1)
  · rintro ⟨here, later⟩ k
    cases k with
    | zero => exact here
    | succ k =>
      rw [visit_succ_of_eq here]
      exact later k

theorem exists_walk {n : Nat} (ends : links.visit cursor n = none) :
    ∃ xs, xs.length ≤ n ∧ links.Walk cursor xs := by
  induction n generalizing cursor with
  | zero => exact ⟨[], Nat.le_refl _, walk_nil_iff.mpr ends⟩
  | succ n ih =>
    cases here : cursor.bind links.get? with
    | none => exact ⟨[], Nat.zero_le _, walk_nil_iff.mpr here⟩
    | some x =>
      rw [visit_succ_of_eq here] at ends
      obtain ⟨xs, short, walk⟩ := ih ends
      exact ⟨x :: xs, Nat.succ_le_succ short, walk_cons_iff.mpr ⟨here, walk⟩⟩

theorem Walk.get? (indexed : links.Indexed) {xs : List Link} (walk : links.Walk cursor xs) :
    ∀ x ∈ xs, links.get? x.id = some x := by
  intro x hx
  obtain ⟨k, hk⟩ := List.mem_iff_getElem?.mp hx
  exact get?_of_visit indexed ((walk k).trans hk)

/-- A walk that visits no node twice comes to an end, and what it visits are different nodes, no
more than there are places. -/
theorem Once.exists_walk (indexed : links.Indexed) (once : links.Once cursor) :
    ∃ xs, links.Walk cursor xs ∧ (xs.map (·.id)).Nodup ∧ xs.length ≤ links.entries.length := by
  have ends : ∃ k ≤ links.entries.length, links.visit cursor k = none := by
    by_contra goes
    push Not at goes
    obtain ⟨i, j, lt, hj, back⟩ := exists_visit_eq indexed fun k hk =>
      Option.isSome_iff_ne_none.mpr (goes k hk)
    obtain ⟨a, ha⟩ := Option.ne_none_iff_exists'.mp (goes j hj)
    have := once i j a a (back.trans ha) ha rfl
    omega
  obtain ⟨n, short, ends⟩ := ends
  obtain ⟨xs, length, walk⟩ := Links.exists_walk ends
  refine ⟨xs, walk, ?_, length.trans short⟩
  apply List.nodup_iff_injective_getElem.mpr
  intro i j same
  dsimp only at same
  rw [List.getElem_map, List.getElem_map] at same
  have hi : i.val < xs.length := by simpa using i.isLt
  have hj : j.val < xs.length := by simpa using j.isLt
  exact Fin.ext (once i j xs[i.val] xs[j.val] ((walk i).trans (List.getElem?_eq_getElem hi))
    ((walk j).trans (List.getElem?_eq_getElem hj)) same)

/-- A walk over different nodes visits none of them twice. -/
theorem Walk.once {xs : List Link} (walk : links.Walk cursor xs) (nd : (xs.map (·.id)).Nodup) :
    links.Once cursor := by
  intro i j a b ha hb same
  rw [walk i] at ha
  rw [walk j] at hb
  have hi : (xs.map (·.id))[i]? = some a.id := by rw [List.getElem?_map, ha]; rfl
  have hj : (xs.map (·.id))[j]? = some a.id := by rw [List.getElem?_map, hb, same]; rfl
  have bound := (List.getElem?_eq_some_iff.mp hi).1
  exact (List.getElem?_inj bound nd).mp (hi.trans hj.symm)

/-- Over a walk that ends a run is found. -/
theorem Walk.runFrom {xs : List Link} (walk : links.Walk cursor xs) (level fuel : Nat)
    (enough : xs.length < fuel) : links.runFrom level fuel cursor =
      some (xs.takeWhile fun link => decide (level < link.level)) := by
  induction xs generalizing cursor fuel with
  | nil =>
    cases fuel with
    | zero => exact absurd enough (Nat.not_lt_zero _)
    | succ fuel => rw [Links.runFrom, walk_nil_iff.mp walk]; rfl
  | cons x xs ih =>
    cases fuel with
    | zero => exact absurd enough (Nat.not_lt_zero _)
    | succ fuel =>
      obtain ⟨here, later⟩ := walk_cons_iff.mp walk
      have rest := ih later fuel (Nat.lt_of_succ_lt_succ enough)
      rw [Links.runFrom, here]
      dsimp only
      by_cases deeper : level < x.level
      · rw [if_pos deeper, rest, List.takeWhile_cons_of_pos (by simpa using deeper)]
        rfl
      · rw [if_neg deeper, List.takeWhile_cons_of_neg (by simpa using deeper)]

end QueryMarkup.Links
