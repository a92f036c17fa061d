import QueryMarkup.Proofs.Document.Drawing

/-!
# Reading the chunks of a tree

Chunk by chunk the sketches of a tree are drawn again. The close tags that are owed stand
on levels that go down one at a time, like the open elements on the stack.
-/
namespace QueryMarkup

open Markup

open Builder (Reads)

section
variable {source : String} {limit : Nat} {done : List Sketch} {stack : List Nat} {x : Sketch}
variable {b : Builder} {t : Tree} {s : Builder × Tree} {run : List Char} {rest : List Chunk}
variable {P : Builder × Tree → Prop}

/-! ## One tag -/

/-- A start tag draws its element, but for the text. -/
theorem Idle.opening (h : Idle limit done stack (b, t)) (follows : Follows limit done stack x)
    (legible : x.Legible) (selfClosing : Bool) :
    Reads source (Tag.opening x.tag x.plain selfClosing).words (b, t) fun s =>
      s.1.AtRest ∧ s.2.Textless ∧ Drawn limit (done ++ [x.bare])
        (if selfClosing then stack else done.length :: stack) s := by
  obtain ⟨rest, drawn⟩ := h
  refine Builder.reads_opening rest x.tag x.plain selfClosing ?_
  intro opening span attributes phase staged hphase unstaged
  have same : Drawn limit done stack (unstaged, t) := drawn.congr rfl rfl rfl rfl
  obtain ⟨b', t', final, none, textless, drawn'⟩ :=
    same.finalize follows legible (e := ⟨x.tag, span, attributes⟩) rfl staged selfClosing
  rw [final]
  exact ⟨⟨rfl, none, hphase⟩, textless, drawn'.congr rfl rfl rfl rfl⟩

/-- A close tag closes the innermost open element. -/
theorem Idle.closing {k : Nat} (h : Idle limit done (k :: stack) (b, t)) (tag : String) :
    Reads source (Tag.closing tag).words (b, t) (Idle limit done stack) := by
  obtain ⟨rest, drawn⟩ := h
  refine Builder.reads_closing rest tag fun opening span phase hphase => ?_
  obtain ⟨o, others, top, -, opened⟩ := Builder.top_of_opened drawn.opened
  have hb : b.stack = o :: others := top
  have closed : ({ b with tagOpen := some opening, phase := .closing } : Builder).close span =
      { b with tagOpen := some opening, phase := .closing, stack := others } :=
    Builder.close_cons (b := { b with tagOpen := some opening, phase := .closing }) hb span
  have idle : Idle limit done stack
      ({ ({ b with tagOpen := some opening, phase := .closing } : Builder).close span with
        tagOpen := none, phase }, t) := by
    rw [closed]
    exact ⟨⟨rfl, rest.staged, hphase⟩, drawn.limit, drawn.root, drawn.issued, drawn.ids,
      drawn.sketches, opened, drawn.held.2, drawn.faults⟩
  exact idle

/-! ## One chunk -/

theorem Awaits.closing {k : Nat} (h : Awaits source limit done (k :: stack) run s) {indent : List Char}
    (blank : ∀ c ∈ indent, Text.isBlank c = true) (tag : String)
    (next : ∀ s', Awaits source limit done stack [] s' → Reads source (wordsAfter [] rest) s' P) :
    Reads source (wordsAfter run (⟨indent, .closing tag, []⟩ :: rest)) s P := by
  refine (h indent blank).append fun s idle => ?_
  exact (idle.closing tag).append fun s' closed => next s' closed.awaits

theorem blank_lineBreak (width level : Nat) :
    ∀ c ∈ Document.lineBreak width level, Text.isBlank c = true := by
  intro c hc
  rcases List.mem_cons.mp hc with rfl | hc
  · decide
  · rw [List.eq_of_mem_replicate hc]
    decide

/-- Close tags that are owed close as many elements. -/
theorem Awaits.closings (width : Nat) {owed : List Document.Owed}
    (h : Awaits source limit done stack run s) (enough : owed.length ≤ stack.length)
    (next : ∀ run' s', Awaits source limit done (stack.drop owed.length) run' s' →
      Reads source (wordsAfter run' rest) s' P) :
    Reads source (wordsAfter run (Document.closings width owed ++ rest)) s P := by
  induction owed generalizing stack run s with
  | nil => exact next run s h
  | cons o owed ih =>
    cases stack with
    | nil => exact absurd enough (Nat.not_succ_le_zero _)
    | cons k stack =>
      refine h.closing (blank_lineBreak width o.level) o.tag fun s' hs => ?_
      exact ih hs (Nat.le_of_succ_le_succ enough) next

/-- The chunks of an element draw it as it is read, and leave it open if it has children. -/
theorem Awaits.element {indent : List Char} (h : Awaits source limit done stack run s)
    (follows : Follows limit done stack x) (legible : x.Legible)
    (blank : ∀ c ∈ indent, Text.isBlank c = true) (leads : Bool)
    (next : ∀ run' s', Awaits source limit (done ++ [x.trimmed])
      (if leads then done.length :: stack else stack) run' s' →
        Reads source (wordsAfter run' rest) s' P) :
    Reads source (wordsAfter run (Document.elementChunks indent x leads ++ rest)) s P := by
  have open' (rest : List Chunk) (next : ∀ s', Awaits source limit (done ++ [x.trimmed])
      (done.length :: stack) x.text s' → Reads source (wordsAfter x.text rest) s' P) :
      Reads source (wordsAfter run (⟨indent, .opening x.tag x.plain false, x.text⟩ :: rest)) s P := by
    refine (h indent blank).append fun s idle => ?_
    refine (idle.opening follows legible false).append fun s' drawn => ?_
    obtain ⟨atRest, textless, drawn⟩ := drawn
    exact next s' (drawn.awaits_text atRest textless legible)
  unfold Document.elementChunks
  cases leads with
  | true => exact open' rest fun s' hs => next _ s' hs
  | false =>
    by_cases silent : x.text = []
    · rw [if_neg (by simp), if_pos silent]
      refine (h indent blank).append fun s idle => ?_
      refine (idle.opening follows legible true).append fun s' drawn => ?_
      obtain ⟨atRest, -, drawn⟩ := drawn
      rw [← Sketch.trimmed_eq_bare (Sketch.content?_eq_none silent)] at drawn
      exact next [] s' (Idle.awaits ⟨atRest, drawn⟩)
    · rw [if_neg (by simp), if_neg silent]
      exact open' _ fun s' hs => hs.closing (by simp) x.tag fun s'' closed => next [] s'' closed

/-! ## All chunks -/

/-- The owed close tags stand on levels that go down one at a time. -/
def Staired : List Document.Owed → Prop
  | [] => True
  | o :: owed => o.level = owed.length ∧ Staired owed

/-- An element on some level makes all close tags due but those above it. -/
theorem Staired.due {owed : List Document.Owed} (h : Staired owed) {level : Nat}
    (le : level ≤ owed.length) :
    (owed.takeWhile fun o => decide (level ≤ o.level)).length = owed.length - level ∧
      (owed.dropWhile fun o => decide (level ≤ o.level)).length = level ∧
      Staired (owed.dropWhile fun o => decide (level ≤ o.level)) := by
  induction owed with
  | nil => exact ⟨by simp, (Nat.le_zero.mp le).symm, trivial⟩
  | cons o owed ih =>
    obtain ⟨here, below⟩ := h
    rw [List.length_cons] at le ⊢
    by_cases due : level ≤ owed.length
    · obtain ⟨taken, left, stairs⟩ := ih below due
      rw [List.takeWhile_cons_of_pos (by simpa [here] using due),
        List.dropWhile_cons_of_pos (by simpa [here] using due)]
      refine ⟨?_, left, stairs⟩
      rw [List.length_cons, taken]
      omega
    · rw [List.takeWhile_cons_of_neg (by simpa [here] using due),
        List.dropWhile_cons_of_neg (by simpa [here] using due)]
      refine ⟨?_, ?_, here, below⟩
      · rw [List.length_nil]
        omega
      · rw [List.length_cons]
        omega

theorem Staired.owedAfter {owed : List Document.Owed} (h : Staired owed) (level : x.level = owed.length)
    (leads : Bool) : Staired (Document.owedAfter x leads owed) := by
  cases leads with
  | true => exact ⟨level, h⟩
  | false => exact h

/-- The next element of a tree comes behind the open elements above it. -/
theorem Sketch.Treelike.follows {xs : List Sketch} (tree : Treelike (done ++ x :: xs))
    (level : x.level = stack.length) (fits : x.level < limit) :
    Follows limit (done.map trimmed) stack x where
  level := level
  fits := fits
  first := by
    rintro rfl
    cases hl : done.getLast? with
    | none => exact List.map_eq_nil_iff.mpr (List.getLast?_eq_none_iff.mp hl)
    | some y =>
      have step := (List.isChain_append.mp tree.steps).2.2 y hl x rfl
      rw [level] at step
      exact absurd step.1 (Nat.lt_irrefl _)
  ranked := by
    intro before z after split deep same
    obtain ⟨before, tail, rfl, rfl, ht⟩ := List.map_eq_append_iff.mp split
    obtain ⟨z, after, rfl, rfl, rfl⟩ := List.map_eq_cons_iff.mp ht
    refine tree.ranked before z after x xs (by simp) (fun y hy => ?_) same
    exact deep y.trimmed (List.mem_map_of_mem hy)

theorem Awaits.chunksFrom (width : Nat) {xs : List Sketch} {owed : List Document.Owed}
    (h : Awaits source limit (done.map Sketch.trimmed) stack run s) (tree : Sketch.Treelike (done ++ xs))
    (legible : ∀ x ∈ xs, x.Legible) (fits : ∀ x ∈ xs, x.level < limit) (stairs : Staired owed)
    (depth : owed.length = stack.length) (next : ∀ x ∈ xs.head?, x.level ≤ stack.length) :
    Reads source (wordsAfter run (Document.chunksFrom width owed xs)) s
      (Idle limit ((done ++ xs).map Sketch.trimmed) []) := by
  induction xs generalizing done stack run s owed with
  | nil =>
    rw [Document.chunksFrom, ← List.append_nil (Document.closings width owed)]
    refine h.closings width (Nat.le_of_eq depth) fun run' s' hs => ?_
    rw [depth, List.drop_length] at hs
    have last := hs [] (by simp)
    rwa [List.append_nil, ← List.append_nil done] at last
  | cons x xs ih =>
    have le : x.level ≤ owed.length := depth ▸ next x rfl
    obtain ⟨taken, left, stairs'⟩ := stairs.due le
    have level : x.level = (stack.drop (owed.length - x.level)).length := by
      rw [List.length_drop, ← depth]
      omega
    have follows := tree.follows level (fits x List.mem_cons_self)
    rw [Document.chunksFrom]
    refine h.closings width (by rw [taken]; omega) fun run1 s1 h1 => ?_
    rw [taken] at h1
    refine h1.element follows (legible x List.mem_cons_self) (blank_lineBreak width x.level)
      (x.leads xs) fun run2 s2 h2 => ?_
    have split : done ++ x :: xs = (done ++ [x]) ++ xs := by simp
    have drawn : (done ++ [x]).map Sketch.trimmed = done.map Sketch.trimmed ++ [x.trimmed] := by simp
    have length : (done.map Sketch.trimmed).length = done.length := by simp
    rw [← drawn, length] at h2
    rw [split] at tree ⊢
    refine ih h2 tree (fun y hy => legible y (List.mem_cons_of_mem x hy))
      (fun y hy => fits y (List.mem_cons_of_mem x hy)) (stairs'.owedAfter left.symm _) ?_ ?_
    · unfold Document.owedAfter
      split
      · rw [List.length_cons, left, List.length_cons, ← level]
      · rw [left, ← level]
    · intro y hy
      have step := ((List.isChain_append.mp tree.steps).2.2 x (by simp) y hy).2
      split
      · rw [List.length_cons, ← level]
        exact step
      · rename_i leaf
        rw [← level]
        simpa [Sketch.leads, Option.mem_def.mp hy] using leaf

/-- Reading the chunks of a tree draws it again, but for blanks around texts, and leaves
nothing open. -/
theorem Idle.chunks (width : Nat) {xs : List Sketch} (h : Idle limit [] [] s)
    (tree : Sketch.Treelike xs) (legible : ∀ x ∈ xs, x.Legible) (fits : ∀ x ∈ xs, x.level < limit) :
    Reads source (wordsAfter [] (Document.chunks width xs)) s (Idle limit (xs.map Sketch.trimmed) []) := by
  cases xs with
  | nil => exact Builder.reads_nil h
  | cons x xs =>
    have level : x.level = 0 := tree.root x rfl
    have follows : Follows limit [] [] x :=
      @Sketch.Treelike.follows limit [] [] x xs tree level (fits x List.mem_cons_self)
    rw [Document.chunks]
    refine h.awaits.element follows (legible x List.mem_cons_self) (by simp) (x.leads xs)
      fun run s' hs => ?_
    have none : Staired [] := trivial
    have stairs : Staired (Document.owedAfter x (x.leads xs) []) := none.owedAfter level _
    refine @Awaits.chunksFrom source limit [x] _ _ _ width xs _ hs tree (fun y hy => legible y (List.mem_cons_of_mem x hy))
      (fun y hy => fits y (List.mem_cons_of_mem x hy)) stairs ?_ ?_
    · unfold Document.owedAfter
      split <;> rfl
    · intro y hy
      have step := ((List.isChain_cons.mp tree.steps).1 y hy).2
      rw [level] at step
      split
      · exact step
      · rename_i leaf
        have shallow : y.level ≤ x.level := by simpa [Sketch.leads, Option.mem_def.mp hy] using leaf
        rwa [level] at shallow

end

end QueryMarkup
