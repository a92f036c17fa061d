import QueryMarkup.Proofs.Markup.Content

/-!
# Where elements stand

The elements of a content are numbered in the order of their start tags, and each item is
directly in one of them. What is directly in an element, and what in turn is in that, is all
from its own content.
-/
namespace QueryMarkup.Markup

namespace Content

/-! ## Numbers -/

/-- How many elements there are. -/
def count : Content → Nat
  | nil => 0
  | text _ rest => rest.count
  | leaf _ rest => 1 + rest.count
  | element _ content _ rest => 1 + content.count + rest.count

/-- The items with the elements that they are directly in, when `made` elements have come before
and this one is around. -/
def placed (made : Nat) (around : Option Nat) : Content → List (Option Nat × Item)
  | nil => []
  | text chars rest => (around, .text (textOf chars)) :: placed made around rest
  | leaf start rest => (around, .start (start.start true)) :: placed (made + 1) around rest
  | element start content _ rest =>
    (around, .start (start.start false)) :: (placed (made + 1) (some made) content ++
      (some made, .close) :: placed (made + (1 + content.count)) around rest)

/-- The elements directly in a content, with their numbers. -/
def kids (made : Nat) : Content → List (Nat × Branch)
  | nil => []
  | text _ rest => kids made rest
  | leaf start rest => (made, .leaf start) :: kids (made + 1) rest
  | element start content close rest =>
    (made, .element start content close) :: kids (made + (1 + content.count)) rest

/-- The texts directly in a content. -/
def texts : Content → List String
  | nil => []
  | text chars rest => textOf chars :: rest.texts
  | leaf _ rest => rest.texts
  | element _ _ _ rest => rest.texts

section
variable (b : Branch) (rest : Content) (made : Nat) (around : Option Nat)

theorem count_before : (b.before rest).count = 1 + b.content.count + rest.count := by
  cases b <;> rfl

theorem placed_before : (b.before rest).placed made around =
    (around, .start b.start) :: (b.content.placed (made + 1) (some made) ++ (b.ending made ++
      rest.placed (made + (1 + b.content.count)) around)) := by
  cases b <;> rfl

theorem kids_before : (b.before rest).kids made = (made, b) :: rest.kids (made + (1 + b.content.count)) := by
  cases b <;> rfl

theorem texts_before : (b.before rest).texts = rest.texts := by
  cases b <;> rfl

end

theorem count_eq_zero {c : Content} (h : c.kids made = []) : c.count = 0 := by
  induction c using branches generalizing made with
  | nil => rfl
  | text chars rest ih => exact ih h
  | branch b rest inner ih =>
    rw [kids_before] at h
    cases h

/-- Nothing stands directly in the element with a number. -/
def Silent (items : List (Option Nat × Item)) (number : Nat) : Prop :=
  textsOf items number = [] ∧ ∀ x ∈ elementsOf items, x.1 ≠ some number

section
variable {xs ys : List (Option Nat × Item)} {number made : Nat} {around : Option Nat}

theorem silent_append : Silent (xs ++ ys) number ↔ Silent xs number ∧ Silent ys number := by
  simp only [Silent, textsOf_append, elementsOf_append, List.append_eq_nil_iff, List.forall_mem_append]
  exact and_and_and_comm

theorem silent_nil (number : Nat) : Silent [] number := ⟨rfl, by simp [elementsOf]⟩

theorem silent_start {start : StartTag} (outside : around ≠ some number) :
    Silent [(around, .start start)] number :=
  ⟨by simp [textsOf], by simpa [elementsOf] using outside⟩

theorem silent_text {text : String} (outside : around ≠ some number) :
    Silent [(around, .text text)] number := by
  refine ⟨?_, by simp [elementsOf]⟩
  cases around with
  | none => rfl
  | some k => simpa [textsOf] using outside

theorem silent_ending (b : Branch) (made number : Nat) : Silent (b.ending made) number := by
  cases b with
  | leaf => exact silent_nil number
  | element => exact ⟨rfl, by simp [Branch.ending, elementsOf]⟩

theorem silent_placed (c : Content) (outside : around ≠ some number)
    (apart : number < made ∨ made + c.count ≤ number) : Silent (c.placed made around) number := by
  induction c using branches generalizing made around with
  | nil => exact silent_nil number
  | text chars rest ih =>
    rw [placed, ← List.singleton_append, silent_append]
    exact ⟨silent_text outside, ih outside apart⟩
  | branch b rest inner ih =>
    rw [count_before] at apart
    rw [placed_before, ← List.singleton_append, silent_append, silent_append, silent_append]
    refine ⟨silent_start outside, inner ?_ ?_, silent_ending b made number, ih outside ?_⟩
    · rw [ne_eq, Option.some.injEq]
      omega
    · omega
    · omega

theorem elementsOf_ending (b : Branch) (made : Nat) : elementsOf (b.ending made) = [] := by
  cases b <;> rfl

theorem length_elementsOf_placed (c : Content) :
    (elementsOf (c.placed made around)).length = c.count := by
  induction c using branches generalizing made around with
  | nil => rfl
  | text chars rest ih => exact ih
  | branch b rest inner ih =>
    rw [placed_before, ← List.singleton_append, elementsOf_append, elementsOf_append, elementsOf_append,
      elementsOf_ending, List.length_append, List.length_append, List.length_append, inner, ih,
      count_before, List.length_nil, Nat.zero_add, ← Nat.add_assoc]
    rfl

/-- The texts directly in an element are those of its content. -/
theorem textsOf_placed (c : Content) (before : number < made) :
    textsOf (c.placed made (some number)) number = c.texts := by
  induction c using branches generalizing made with
  | nil => rfl
  | text chars rest ih =>
    rw [placed, ← List.singleton_append, textsOf_append, ih before, texts]
    simp [textsOf]
  | branch b rest inner ih =>
    have apart : Silent (b.content.placed (made + 1) (some made)) number :=
      silent_placed _ (by simpa using Nat.ne_of_gt before) (.inl (by omega))
    rw [placed_before, ← List.singleton_append, textsOf_append, textsOf_append, textsOf_append,
      apart.1, (silent_ending b made number).1, ih (by omega), texts_before]
    rfl

/-- Nothing is directly in an element whose number nothing has around it. -/
theorem Silent.filter_eq_nil (h : Silent xs number) (first : Nat) :
    ((elementsOf xs).zipIdx first).filter (fun x => x.1.1 == some number) = [] := by
  rw [List.filter_eq_nil_iff]
  intro x hx
  simpa using h.2 x.1 (List.fst_mem_of_mem_zipIdx hx)

/-- The elements directly in an element are those of its content. -/
theorem filter_placed (c : Content) (before : number < made) :
    ((elementsOf (c.placed made (some number))).zipIdx made).filter (fun x => x.1.1 == some number) =
      (c.kids made).map fun x => ((some number, x.2.start), x.1) := by
  induction c using branches generalizing made with
  | nil => rfl
  | text chars rest ih => exact ih before
  | branch b rest inner ih =>
    have apart : Silent (b.content.placed (made + 1) (some made)) number :=
      silent_placed _ (by simpa using Nat.ne_of_gt before) (.inl (by omega))
    have start : elementsOf [(some number, .start b.start)] = [(some number, b.start)] := rfl
    rw [placed_before, ← List.singleton_append, elementsOf_append, elementsOf_append, elementsOf_append,
      elementsOf_ending, List.nil_append, start, List.singleton_append, List.zipIdx_cons,
      List.zipIdx_append, length_elementsOf_placed, List.filter_cons_of_pos (by simp),
      List.filter_append, apart.filter_eq_nil, List.nil_append, Nat.add_assoc, ih (by omega),
      kids_before, List.map_cons]

end

/-! ## Where an element stands -/

/-! ## Where an element stands -/

end Content

/-- An element stands among items under its number, directly in the one around it: nothing else
is in it or in what it holds. -/
def Branch.Stands (b : Branch) (items : List (Option Nat × Item)) (number : Nat) (around : Option Nat) :
    Prop :=
  ∃ before after, items = before ++ (around, .start b.start) ::
      (b.content.placed (number + 1) (some number) ++ after) ∧
    (elementsOf before).length = number ∧ (∀ k ∈ around, k < number) ∧
    ∀ j, number ≤ j → j < number + (1 + b.content.count) →
      Content.Silent before j ∧ Content.Silent after j

namespace Content

theorem kids_stand (c : Content) (before after : List (Option Nat × Item)) (made : Nat)
    (around : Option Nat) (size : (elementsOf before).length = made) (outer : ∀ k ∈ around, k < made)
    (apart : ∀ j, made ≤ j → j < made + c.count → Silent before j ∧ Silent after j) :
    ∀ x ∈ c.kids made, x.2.Stands (before ++ (c.placed made around ++ after)) x.1 around := by
  have outside {k : Nat} (hk : made ≤ k) : around ≠ some k := fun e =>
    Nat.not_lt_of_le hk (outer k e)
  induction c using branches generalizing before made with
  | nil => exact fun x hx => absurd hx List.not_mem_nil
  | text chars rest ih =>
    intro x hx
    have stands := ih (before ++ [(around, .text (textOf chars))]) made (by simpa [elementsOf] using size)
      outer (fun j first last => ⟨silent_append.mpr ⟨(apart j first last).1, silent_text (outside first)⟩,
        (apart j first last).2⟩) outside x hx
    rw [placed]
    simpa using stands
  | branch b rest inner ih =>
    clear inner
    rw [count_before] at apart
    rw [kids_before, placed_before]
    refine List.forall_mem_cons.mpr ⟨?_, fun x hx => ?_⟩
    · refine ⟨before, b.ending made ++ (rest.placed (made + (1 + b.content.count)) around ++ after),
        by simp, size, outer, fun j first last => ?_⟩
      dsimp only at first last
      obtain ⟨quiet, quiet'⟩ := apart j first (by omega)
      exact ⟨quiet, silent_append.mpr ⟨silent_ending b made j, silent_append.mpr
        ⟨silent_placed rest (outside first) (.inl last), quiet'⟩⟩⟩
    · have stands := ih (before ++ ([(around, .start b.start)] ++
          (b.content.placed (made + 1) (some made) ++ b.ending made)))
        (made + (1 + b.content.count)) ?_ (fun k hk => ?_) (fun j first last => ?_)
        (fun {k} hk => outside (by omega)) x hx
      · simpa using stands
      · rw [elementsOf_append, elementsOf_append, elementsOf_append, elementsOf_ending, List.append_nil,
          List.length_append, List.length_append, length_elementsOf_placed, size]
        rfl
      · have := outer k hk
        omega
      · obtain ⟨quiet, quiet'⟩ := apart j (by omega) (by omega)
        refine ⟨silent_append.mpr ⟨quiet, silent_append.mpr ⟨silent_start (outside (by omega)),
          silent_append.mpr ⟨silent_placed _ ?_ (.inr ?_), silent_ending b made j⟩⟩⟩, quiet'⟩
        · rw [ne_eq, Option.some.injEq]
          omega
        · omega

end Content

namespace Branch

variable {b : Branch} {items : List (Option Nat × Item)} {number : Nat} {around : Option Nat}

theorem Stands.element (h : b.Stands items number around) :
    (elementsOf items)[number]? = some (around, b.start) := by
  obtain ⟨before, after, rfl, size, -⟩ := h
  rw [elementsOf_append, List.getElem?_append_right (Nat.le_of_eq size), size, Nat.sub_self]
  rfl

/-- The texts directly in an element are those of its content. -/
theorem Stands.texts (h : b.Stands items number around) : textsOf items number = b.content.texts := by
  obtain ⟨before, after, rfl, -, -, apart⟩ := h
  obtain ⟨quiet, quiet'⟩ := apart number (Nat.le_refl _) (by omega)
  rw [textsOf_append, ← List.singleton_append, textsOf_append, textsOf_append, quiet.1, quiet'.1,
    Content.textsOf_placed _ (Nat.lt_succ_self _), List.append_nil]
  simp [textsOf]

/-- The elements directly in an element are those of its content. -/
theorem Stands.inside (h : b.Stands items number around) :
    (elementsOf items).zipIdx.filter (fun x => x.1.1 == some number) =
      (b.content.kids (number + 1)).map fun x => ((some number, x.2.start), x.1) := by
  obtain ⟨before, after, rfl, size, outer, apart⟩ := h
  obtain ⟨quiet, quiet'⟩ := apart number (Nat.le_refl _) (by omega)
  have outside : ¬ (around == some number) = true := fun e =>
    Nat.lt_irrefl _ (outer number (eq_of_beq e))
  have start : elementsOf [(around, .start b.start)] = [(around, b.start)] := rfl
  rw [elementsOf_append, ← List.singleton_append, elementsOf_append, elementsOf_append, start,
    List.zipIdx_append, List.filter_append, quiet.filter_eq_nil, size, List.nil_append,
    List.singleton_append, List.zipIdx_cons, List.filter_cons, if_neg outside, List.zipIdx_append,
    List.filter_append, quiet'.filter_eq_nil, List.append_nil, Nat.zero_add,
    Content.filter_placed _ (Nat.lt_succ_self _)]

/-- What an element holds stands in it. -/
theorem Stands.kids (h : b.Stands items number around) :
    ∀ x ∈ b.content.kids (number + 1), x.2.Stands items x.1 (some number) := by
  obtain ⟨before, after, rfl, size, outer, apart⟩ := h
  have all := b.content.kids_stand (before ++ [(around, .start b.start)]) after (number + 1)
    (some number) ?_ (by simp) fun j first last => ?_
  · simpa using all
  · rw [elementsOf_append, List.length_append, size]
    rfl
  · obtain ⟨quiet, quiet'⟩ := apart j (by omega) (by omega)
    refine ⟨Content.silent_append.mpr ⟨quiet, Content.silent_start fun e => ?_⟩, quiet'⟩
    have := outer j e
    omega

end Branch

end QueryMarkup.Markup
