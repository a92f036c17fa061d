import QueryMarkup.Proofs.Tree.Rewiring

/-!
# Looking up attributes

What is found under a name after one attribute was changed, added or taken away.
-/
namespace QueryMarkup.Node

variable {n : Node} {name : String}

theorem attribute?_eq_some {a : Attribute} (h : n.attribute? name = some a) :
    a ∈ n.attributes ∧ a.name = name :=
  ⟨List.mem_of_find?_eq_some h, by simpa using List.find?_some h⟩

theorem isSome_attribute? : (n.attribute? name).isSome ↔ name ∈ n.attributes.map (·.name) := by
  simp [attribute?]

/-- Where all attributes are changed, the changed ones are found. -/
theorem attribute?_map (n : Node) {f : Attribute → Attribute} (named : ∀ a, (f a).name = a.name)
    (x : String) :
    Node.attribute? { n with attributes := n.attributes.map f } x = (n.attribute? x).map f := by
  unfold attribute?
  rw [List.find?_map]
  have same : ((fun a : Attribute => a.name == x) ∘ f) = fun a => a.name == x := by
    funext a
    rw [Function.comp_apply, named]
  rw [same]

theorem attribute?_alterAttribute (n : Node) (name : String) {f : Attribute → Attribute}
    (named : ∀ a, (f a).name = a.name) (x : String) :
    (n.alterAttribute name f).attribute? x =
      (n.attribute? x).map fun a => if a.name = name then f a else a := by
  refine attribute?_map n (fun a => ?_) x
  split
  · exact named a
  · rfl

/-- A new attribute is found under its name, and all others as before. -/
theorem attribute?_insertAttribute (absent : n.attribute? name = none) (x : String) :
    (n.insertAttribute name).attribute? x =
      if name = x then some (Attribute.create n.kind name (n.value name)) else n.attribute? x := by
  have called := Attribute.name_create n.kind name (n.value name)
  have made : (n.insertAttribute name).attributes =
    (Attribute.create n.kind name (n.value name)).insertInto n.attributes := rfl
  unfold attribute? at absent ⊢
  rw [made]
  generalize Attribute.create n.kind name (n.value name) = a at called
  subst called
  generalize n.attributes = as at absent
  induction as with
  | nil => by_cases here : a.name = x <;> simp [Attribute.insertInto, here]
  | cons b as ih =>
    obtain ⟨other, absent⟩ : b.name ≠ a.name ∧ as.find? (fun c => c.name == a.name) = none := by
      simpa using absent
    unfold Attribute.insertInto
    by_cases here : a.name = x
    · subst here
      split
      · rw [List.find?_cons_of_neg (by simpa using other), ih absent, if_pos rfl, if_pos rfl]
      · simp
    · split
      · rw [List.find?_cons, ih absent, if_neg here, List.find?_cons]
      · simp [here]

/-- An attribute that was taken away is not found, and all others are. -/
theorem attribute?_eraseAttribute (n : Node) (name x : String) :
    (n.eraseAttribute name).attribute? x = if name = x then none else n.attribute? x := by
  have left : (n.eraseAttribute name).attributes = n.attributes.filter fun a => a.name ≠ name := rfl
  unfold attribute?
  rw [left, List.find?_filter]
  split
  · rename_i here
    subst here
    simp
  · rename_i other
    refine congrArg (n.attributes.find? ·) (funext fun a => ?_)
    by_cases found : a.name = x
    · simp [found, Ne.symm other]
    · simp [found]

end QueryMarkup.Node
