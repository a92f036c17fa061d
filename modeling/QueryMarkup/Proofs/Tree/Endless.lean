import QueryMarkup.Proofs.Tree.Verified
import QueryMarkup.Proofs.Tree.Visits

/-!
# When the check of the links ends

The check remembers the nodes that it has visited, but the walk over the descendants of a node does
not. So links that run in a circle are found only where each of these walks comes back to the level
of the node it began with:

* `verifyFrom_eq_ok_iff`, `verifyFrom_eq_none_iff`: what one step of the check needs;
* `exists_walk_of_verifyFrom`: a check that finds nothing wrong has walked to the end;
* `verify_eq_none_iff`: the check has no result exactly when the walk goes on for ever below a root
  that stands as a root should.
-/
namespace QueryMarkup.Links

variable {links : Links} {cursor : Option NodeId} {link : Link}

/-! ## One step -/

theorem refuse_eq_ok {c : Prop} [Decidable c] {violation : Violation}
    {rest : Except Violation Unit} :
    (if c then (do throw violation; rest) else rest) = .ok () ↔ ¬ c ∧ rest = .ok () := by
  by_cases h : c
  · simp [h, throw, throwThe, MonadExceptOf.throw, bind, Except.bind]
  · simp [h]

theorem refuse_last_eq_ok {c : Prop} [Decidable c] {violation : Violation} :
    (if c then throw violation else pure () : Except Violation Unit) = .ok () ↔ ¬ c := by
  by_cases h : c
  · simp [h, throw, throwThe, MonadExceptOf.throw]
  · simp [h, pure, Except.pure]

/-- The first node has its place when it stands as a root should. -/
theorem checkPlace_nil_iff :
    checkPlace link [] = .ok () ↔ link.level = 0 ∧ link.parent = none ∧ link.visible = true := by
  unfold checkPlace
  change ite _ _ _ = _ ↔ _
  rw [refuse_eq_ok, refuse_eq_ok]
  change _ ∧ _ ∧ ite _ _ _ = _ ↔ _
  rw [refuse_last_eq_ok]
  exact and_congr not_not (and_congr not_not not_not)

/-- A later node has its place when it is at most one level deeper than the node before, and agrees
with the innermost node on the path that is less deep. -/
theorem checkPlace_cons_iff (top : Frame) (path : List Frame) :
    checkPlace link (top :: path) = .ok () ↔
      (link.level ≤ top.level + 1 ∧ 0 < link.level) ∧
      link.parent = (framesUpTo link.level (top :: path)).head?.map (·.id) ∧
      (∀ f ∈ (framesUpTo link.level (top :: path)).head?, ∀ o ∈ f.lastOrder, o ≤ link.order) ∧
      link.visible = ((framesUpTo link.level (top :: path)).head?.map (·.opens)).getD true := by
  unfold checkPlace
  change ite _ _ _ = _ ↔ _
  rw [refuse_eq_ok, refuse_eq_ok]
  refine and_congr (by omega) (and_congr not_not ?_)
  cases above : (framesUpTo link.level (top :: path)).head? with
  | none =>
    have actual : (List.dropWhile (fun f : Frame => decide (link.level ≤ f.level))
        (top :: path)).head? = none := above
    rw [actual]
    exact refuse_last_eq_ok.trans (by simp)
  | some f =>
    have actual : (List.dropWhile (fun f : Frame => decide (link.level ≤ f.level))
        (top :: path)).head? = some f := above
    rw [actual]
    cases last : f.lastOrder with
    | none =>
      dsimp only [Option.bind_some]
      rw [last]
      exact refuse_last_eq_ok.trans (by simp [last])
    | some o =>
      dsimp only [Option.bind_some]
      rw [last]
      exact refuse_eq_ok.trans (by rw [refuse_last_eq_ok]; simp [last])

theorem checkChildren_eq_ok_iff {n : Nat} :
    checkChildren link n = .ok () ↔ link.expandable = decide (0 < n) ∧ link.childCount = n := by
  unfold checkChildren
  split
  · rename_i differs
    simp only [reduceCtorEq, false_iff, not_and]
    intro expandable count
    rcases differs with differs | differs
    · exact differs expandable
    · exact differs count
  · rename_i same
    rw [not_or, not_not, not_not] at same
    simpa using same

theorem extend_ne_nil (link : Link) (path : List Frame) : extend link path ≠ [] := by
  unfold extend
  dsimp only
  split <;> exact List.cons_ne_nil _ _

/-- The check of some nodes finds nothing wrong when it finds nothing wrong with the first of them,
and then with the others. -/
theorem verifyFrom_eq_ok_iff (here : cursor.bind links.get? = some link) {fuel n : Nat}
    {seen : List NodeId} {path : List Frame} :
    links.verifyFrom (fuel + 1) cursor seen path = some (.ok n) ↔
      link.id ∉ seen ∧ checkPlace link path = .ok () ∧
      (∃ children, links.children? link = some children ∧
        checkChildren link children.length = .ok ()) ∧
      links.verifyFrom fuel link.next (link.id :: seen) (extend link path) = some (.ok n) := by
  rw [verifyFrom, here]
  dsimp only
  by_cases again : link.id ∈ seen
  · simp [again]
  · rw [if_neg (by simpa using again)]
    cases place : checkPlace link path with
    | error violation => simp
    | ok _ =>
      cases found : links.children? link with
      | none => simp
      | some children =>
        cases count : checkChildren link children.length with
        | error violation => simp [count]
        | ok _ => simp [again, count]

/-- The check of some nodes has no result when it gets to a node whose children cannot be found. -/
theorem verifyFrom_eq_none_iff (here : cursor.bind links.get? = some link) {fuel : Nat}
    {seen : List NodeId} {path : List Frame} :
    links.verifyFrom (fuel + 1) cursor seen path = none ↔
      link.id ∉ seen ∧ checkPlace link path = .ok () ∧
      (links.children? link = none ∨
        (∃ children, links.children? link = some children ∧
          checkChildren link children.length = .ok ()) ∧
        links.verifyFrom fuel link.next (link.id :: seen) (extend link path) = none) := by
  rw [verifyFrom, here]
  dsimp only
  by_cases again : link.id ∈ seen
  · simp [again]
  · rw [if_neg (by simpa using again)]
    cases place : checkPlace link path with
    | error violation => simp
    | ok _ =>
      cases found : links.children? link with
      | none => simp [again]
      | some children =>
        cases count : checkChildren link children.length with
        | error violation => simp [count]
        | ok _ => simp [again, count]

theorem verifyFrom_of_end (ends : cursor.bind links.get? = none) (fuel : Nat) (seen : List NodeId)
    (path : List Frame) : links.verifyFrom fuel cursor seen path = some (.ok seen.length) := by
  cases fuel with
  | zero => rfl
  | succ fuel => rw [verifyFrom, ends]

/-! ## Checks without a result -/

/-- Below the root a check without a result is on a walk that goes on for ever and never comes up
to the level of the root. -/
theorem visit_of_verifyFrom_eq_none (indexed : links.Indexed) (fuel : Nat) {seen : List NodeId}
    {path : List Frame} (inner : path ≠ [])
    (stuck : links.verifyFrom fuel cursor seen path = none) (k : Nat) :
    ∃ m, links.visit cursor k = some m ∧ 0 < m.level := by
  induction fuel generalizing cursor seen path k with
  | zero => cases stuck
  | succ fuel ih =>
    cases here : cursor.bind links.get? with
    | none =>
      rw [verifyFrom_of_end here] at stuck
      cases stuck
    | some link =>
      obtain ⟨-, place, rest⟩ := (verifyFrom_eq_none_iff here).mp stuck
      obtain ⟨top, outer, rfl⟩ := List.exists_cons_of_ne_nil inner
      have deep := ((checkPlace_cons_iff top outer).mp place).1.2
      cases k with
      | zero => exact ⟨link, here, deep⟩
      | succ k =>
        rw [visit_succ_of_eq here]
        rcases rest with endless | ⟨-, stuck⟩
        · obtain ⟨m, hm, deeper⟩ := (children?_eq_none_iff indexed link).mp endless k
          exact ⟨m, hm, Nat.lt_of_le_of_lt (Nat.zero_le _) deeper⟩
        · exact ih (extend_ne_nil link _) stuck k

/-- The root stands as a root should, and the walk behind it goes on for ever and never comes up to
its level. -/
def Endless (links : Links) : Prop :=
  ∃ root, links.visit links.root 0 = some root ∧
    (root.level = 0 ∧ root.parent = none ∧ root.visible = true) ∧
    ∀ k, ∃ m, links.visit links.root (k + 1) = some m ∧ 0 < m.level

theorem verify_eq_none_iff (indexed : links.Indexed) : links.verify = none ↔ links.Endless := by
  rw [verify, Option.map_eq_none_iff]
  constructor
  · intro stuck
    cases here : links.root.bind links.get? with
    | none =>
      rw [verifyFrom_of_end here] at stuck
      cases stuck
    | some root =>
      obtain ⟨-, place, rest⟩ := (verifyFrom_eq_none_iff here).mp stuck
      refine ⟨root, here, checkPlace_nil_iff.mp place, fun k => ?_⟩
      rw [visit_succ_of_eq here]
      rcases rest with endless | ⟨-, stuck⟩
      · obtain ⟨m, hm, deeper⟩ := (children?_eq_none_iff indexed root).mp endless k
        exact ⟨m, hm, Nat.lt_of_le_of_lt (Nat.zero_le _) deeper⟩
      · exact visit_of_verifyFrom_eq_none indexed _ (extend_ne_nil root _) stuck k
  · rintro ⟨root, here, stands, deep⟩
    have endless : links.children? root = none := by
      apply (children?_eq_none_iff indexed root).mpr
      intro k
      rw [stands.1, ← visit_succ_of_eq here]
      exact deep k
    exact (verifyFrom_eq_none_iff here).mpr
      ⟨List.not_mem_nil, checkPlace_nil_iff.mpr stands, .inl endless⟩

/-! ## Checks that find nothing wrong -/

theorem length_le_of_nodup {names : List NodeId} (nd : names.Nodup) {n : Nat}
    (inside : ∀ id ∈ names, id.index < n) : names.length ≤ n := by
  have indexes : (names.map NodeId.index).Nodup := by
    apply nd.map
    rintro ⟨i⟩ ⟨j⟩ rfl
    rfl
  have within : names.map NodeId.index ⊆ List.range n := by
    intro i hi
    obtain ⟨id, hid, rfl⟩ := List.mem_map.mp hi
    exact List.mem_range.mpr (inside id hid)
  simpa using (indexes.subperm within).length_le

/-- A check that finds nothing wrong has walked to the end and met no node again. -/
theorem exists_walk_of_verifyFrom (indexed : links.Indexed) (fuel : Nat) {seen : List NodeId}
    {path : List Frame} {n : Nat} (nd : seen.Nodup)
    (inside : ∀ id ∈ seen, id.index < links.entries.length)
    (enough : links.entries.length < seen.length + fuel)
    (passes : links.verifyFrom fuel cursor seen path = some (.ok n)) :
    ∃ xs, links.Walk cursor xs ∧ (xs.map (·.id)).Nodup ∧ ∀ x ∈ xs, x.id ∉ seen := by
  induction fuel generalizing cursor seen path with
  | zero =>
    -- more nodes cannot have been seen than there are places
    have := length_le_of_nodup nd inside
    omega
  | succ fuel ih =>
    cases here : cursor.bind links.get? with
    | none => exact ⟨[], walk_nil_iff.mpr here, List.nodup_nil, by simp⟩
    | some link =>
      obtain ⟨new, -, -, rest⟩ := (verifyFrom_eq_ok_iff here).mp passes
      have there : links.get? link.id = some link := get?_of_visit (k := 0) indexed here
      have inside' : ∀ id ∈ link.id :: seen, id.index < links.entries.length :=
        List.forall_mem_cons.mpr ⟨index_lt_of_get? there, inside⟩
      obtain ⟨xs, walk, distinct, apart⟩ := ih (List.nodup_cons.mpr ⟨new, nd⟩) inside'
        (by rw [List.length_cons]; omega) rest
      refine ⟨link :: xs, walk_cons_iff.mpr ⟨here, walk⟩, ?_, ?_⟩
      · rw [List.map_cons, List.nodup_cons]
        refine ⟨?_, distinct⟩
        intro again
        obtain ⟨x, hx, same⟩ := List.mem_map.mp again
        exact apart x hx (same ▸ List.mem_cons_self)
      · intro x hx
        rcases List.mem_cons.mp hx with rfl | hx
        · exact new
        · exact fun old => apart x hx (List.mem_cons_of_mem _ old)

theorem once_of_verify (indexed : links.Indexed) (passes : links.verify = some (.ok ())) :
    links.Once links.root := by
  obtain ⟨result, checked, -⟩ := Option.map_eq_some_iff.mp passes
  cases result with
  | error violation => simp [verify, checked] at passes
  | ok n =>
    obtain ⟨xs, walk, distinct, -⟩ := exists_walk_of_verifyFrom indexed
      (links.entries.length + 1) List.nodup_nil (by simp) (by simp) checked
    exact walk.once distinct

/-- The check ends exactly when the links are not endless below their root. Where it ends and the
walk visits a node twice, a violation is found. -/
theorem verify_ends (indexed : links.Indexed) :
    ((∃ result, links.verify = some result) ↔ ¬ links.Endless) ∧
    (¬ links.Once links.root → ∀ result, links.verify = some result →
      ∃ violation, result = .error violation) := by
  constructor
  · rw [← verify_eq_none_iff indexed, ← Option.isSome_iff_exists, Option.isSome_iff_ne_none]
  · intro again result checked
    cases result with
    | error violation => exact ⟨violation, rfl⟩
    | ok u => exact absurd (once_of_verify indexed checked) again

/-- A circle through the root: the walk over its descendants ends where it is met again. -/
theorem verify_ends_round :
    let links : Links := ⟨some ⟨0⟩, [
      some ⟨⟨0⟩, 0, 0, none, some ⟨1⟩, true, true, true, 1⟩,
      some ⟨⟨1⟩, 1, 1, some ⟨0⟩, some ⟨0⟩, false, true, true, 0⟩]⟩
    links.Indexed ∧ ¬ links.Once links.root ∧ links.verify = some (.error (.cycle ⟨0⟩)) ∧
      ((∃ result, links.verify = some result) ↔ ¬ links.Endless) ∧
      (¬ links.Once links.root → ∀ result, links.verify = some result →
        ∃ violation, result = .error violation) := by
  intro links
  have indexed : links.Indexed := indexed_of_zipIdx (by decide)
  refine ⟨indexed, ?_, by decide, verify_ends indexed⟩
  intro once
  have same := once 0 2 _ _ rfl rfl rfl
  cases same

/-- A root with a child and a grandchild, after which the child comes again. -/
def circle : Links where
  root := some ⟨0⟩
  entries := [
    some ⟨⟨0⟩, 0, 0, none, some ⟨1⟩, true, true, true, 1⟩,
    some ⟨⟨1⟩, 1, 1, some ⟨0⟩, some ⟨2⟩, true, true, true, 1⟩,
    some ⟨⟨2⟩, 2, 2, some ⟨1⟩, some ⟨1⟩, false, true, true, 0⟩]

/-- The circle below the root is not found: the walk over the descendants of the root goes round for
ever, so that the check has no result at all. -/
theorem verify_circle :
    circle.Indexed ∧ ¬ circle.Once circle.root ∧ (¬ ∃ result, circle.verify = some result) ∧
      ∀ k, ∃ m, circle.visit circle.root (k + 1) = some m ∧ 0 < m.level := by
  have indexed : circle.Indexed := indexed_of_zipIdx (by decide)
  have stuck : circle.verify = none := by decide
  obtain ⟨-, -, -, deep⟩ := (verify_eq_none_iff indexed).mp stuck
  refine ⟨indexed, ?_, ?_, deep⟩
  · intro once
    have same := once 1 3 _ _ rfl rfl rfl
    cases same
  · rintro ⟨result, checked⟩
    rw [stuck] at checked
    cases checked

end QueryMarkup.Links
