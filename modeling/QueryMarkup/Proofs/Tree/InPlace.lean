import QueryMarkup.Proofs.Tree.Asking
import QueryMarkup.Proofs.Tree.Departure

/-!
# Changes made in place

A change can be made on the one tree there is, one step after the other. A node is looked up whenever
a step needs it; a look-up that fails ends the change, and what was done before stays done. In a
sound tree this makes no difference: all that is looked up once the first step is done is there, so
a change is made as a whole or not at all.
-/
namespace QueryMarkup.Tree

/-- Steps on a tree. The tree after the last step stays, also when that step failed. -/
abbrev InPlace := EStateM TreeError Tree

/-- A change that leaves the tree as it is when it is refused. -/
def whole {α : Type} (t : Tree) : Except TreeError (Tree × α) → EStateM.Result TreeError Tree α
  | .ok (t', a) => .ok a t'
  | .error e => .error e t

/-- A new node below a parent, in its place. It watches, and its first question is put. -/
def plant (t : Tree) (kind : Kind) (tag : String) (parent : NodeId) : Tree :=
  match splitAt parent t.nodes with
  | some (before, above, after) =>
    (t.placed kind tag before above after).wire (t.fresh kind tag (some above))
  | none => t

namespace InPlace

/-! ## Steps -/

def find (id : NodeId) : InPlace Node := fun t => t.whole ((t.getNode id).map (t, ·))

/-- Comes by some nodes. -/
def visit : List Node → InPlace Unit
  | [] => return
  | n :: rest => do
    let _ ← find n.id
    visit rest

/-- The new node is made before its place is looked up, and it is in its place before the parent is
told of it. -/
def insert (kind : Kind) (tag : String) (parent : NodeId) : InPlace NodeId := do
  let above ← find parent
  let point := (← get).insertionPoint parent (above.level + 1) kind.rank
  let id : NodeId := ⟨(← get).issued⟩
  modify (·.plant kind tag parent)
  let _ ← find id
  let _ ← find point
  let above ← find parent
  modify (·.alter parent fun n => { n with expandable := true })
  modify (·.setChildCount parent (above.childCount + 1))
  let _ ← find parent
  modify (·.alter parent fun n => { n with expanded := true })
  modify (·.refreshVisibility parent)
  modify touch
  return id

/-- The child that a kind cannot be without is put below a node that is already there. -/
def add (kind : Kind) (parent : Option NodeId) : InPlace NodeId := do
  match parent.or (← get).selection with
  | none => throw .missingParent
  | some parent =>
    let id ← insert kind (kind.tag?.getD "") parent
    match kind.mandatoryChild? with
    | none => modify (·.setSelection (some id))
    | some child =>
      let _ ← insert child (child.tag?.getD "") id
      modify (·.setSelection (some id))
    return id

def addParsed (kind : Kind) (tag : String) (parent : Option NodeId) : InPlace NodeId := do
  let t ← get
  if t.isEmpty then
    modify (·.plantRoot kind tag)
    modify touch
    return ⟨t.issued⟩
  else
    match parent with
    | none => throw .missingParent
    | some parent => insert kind tag parent

/-- The node before and the parent are told one after the other, and only then the nodes go. -/
def remove (id : NodeId) : InPlace Unit := do
  let node ← find id
  match node.parent with
  | none => throw .removeRoot
  | some parent =>
    match splitAt id (← get).nodes with
    | none => throw (.unknownNode id)
    | some (before, _, after) =>
      match before.getLast? with
      | none => throw (.unknownNode id)
      | some previous =>
        let run := runOf node.level after
        let rest := after.drop run.length
        let gone := id :: run.map (·.id)
        visit (run ++ rest.head?.toList)
        let previous ← find previous.id
        let deeper := (rest.head?.map fun n => decide (previous.level < n.level)).getD false
        modify (·.alter previous.id fun n => { n with expandable := deeper })
        let above ← find parent
        modify (·.setChildCount parent (above.childCount - 1))
        modify (·.cut gone)
        modify (·.forget gone)
        modify (·.setSelection (some previous.id))
        modify touch

def toggle (id : NodeId) : InPlace Unit := do
  let node ← find id
  if node.expandable then
    modify (·.alter id fun n => { n with expanded := !n.expanded })
    modify (·.refreshVisibility id)
    match (← get).selection.bind (← get).node? with
    | some selected => if selected.visible then return else modify (·.setSelection none)
    | none => return

def select : Option NodeId → InPlace Unit
  | none => modify (·.setSelection none)
  | some id => do
    let _ ← find id
    modify (·.setSelection (some id))

def insertParsed (id : NodeId) (name value : String) : InPlace (List StructuralIssue) := do
  let node ← find id
  if (node.attribute? name).isSome then
    modify (·.writeSlot id name value)
    return []
  else
    let node ← find id
    modify (·.createAttribute id name value)
    return Attribute.nameIssues node.kind name

def removeAttribute (id : NodeId) (name : String) : InPlace Bool := do
  let node ← find id
  if (node.attribute? name).isNone then return false
  else
    modify (·.writeSlot id name "")
    modify (·.alter id fun n => n.eraseAttribute name)
    modify touch
    return true

end InPlace

/-- Makes a change step by step. -/
def performInPlace : Edit → InPlace Reply
  | .clear => modifyGet fun t => (.done, t.clear)
  | .reset => modifyGet fun t => (.done, t.reset)
  | .add kind parent => .node <$> InPlace.add kind parent
  | .addParsed kind tag parent => .node <$> InPlace.addParsed kind tag parent
  | .remove id => (fun () => .done) <$> InPlace.remove id
  | .toggle id => (fun () => .done) <$> InPlace.toggle id
  | .select id => (fun () => .done) <$> InPlace.select id
  | .setAttribute id name value => (fun _ => .done) <$> InPlace.insertParsed id name value
  | .insertParsed id name value => .issues <$> InPlace.insertParsed id name value
  | .removeAttribute id name => .found <$> InPlace.removeAttribute id name
  | .writeAttribute id name value => modifyGet fun t =>
    let (t', had) := t.writeAttribute id name value
    (.found had, t')
  | .resolve number verdict => do
    match (← get).resolve number verdict with
    | some (t, late) =>
      set t
      return .closed late
    | none => return .noInquiry

section
variable {α β : Type} {t t' : Tree} {id : NodeId} {n : Node} {before after : List Node}

/-! ## Step after step -/

theorem InPlace.bind_ok {x : InPlace α} {f : α → InPlace β} {a : α} (e : x t = .ok a t') :
    (x >>= f) t = f a t' := by
  simp only [bind, EStateM.bind, e]

theorem InPlace.bind_error {x : InPlace α} {f : α → InPlace β} {err : TreeError} (e : x t = .error err t') :
    (x >>= f) t = .error err t' := by
  simp only [bind, EStateM.bind, e]

theorem InPlace.find_ok (found : t.node? id = some n) : find id t = .ok n t := by
  rw [find, getNode_eq_ok.mpr found]
  rfl

theorem getNode_error (gone : id ∉ t.ids) : t.getNode id = .error (.unknownNode id) := by
  have missing : t.node? id = none := by
    rw [← contains_iff, contains, Option.not_isSome_iff_eq_none] at gone
    exact gone
  rw [getNode, missing]

theorem InPlace.find_error (gone : id ∉ t.ids) : find id t = .error (.unknownNode id) t := by
  rw [find, getNode_error gone]
  rfl

theorem InPlace.find_live (live : id ∈ t.ids) : ∃ n, t.node? id = some n ∧ find id t = .ok n t := by
  obtain ⟨n, found⟩ := Option.isSome_iff_exists.mp (contains_iff.mpr live)
  exact ⟨n, found, find_ok found⟩

theorem InPlace.visit_ok {ns : List Node} (live : ∀ n ∈ ns, n.id ∈ t.ids) : visit ns t = .ok () t := by
  induction ns with
  | nil => rfl
  | cons n ns ih =>
    obtain ⟨here, others⟩ := List.forall_mem_cons.mp live
    obtain ⟨m, -, found⟩ := find_live here
    exact (bind_ok found).trans (ih others)

/-! ## A node comes -/

theorem Sound.insertionPoint_mem (h : t.Sound) (split : t.nodes = before ++ n :: after) (level rank : Nat) :
    t.insertionPoint n.id level rank ∈ t.ids := by
  rw [insertionPoint, h.splitAt_eq split]
  dsimp only
  rw [ids, split]
  cases last : (after.takeWhile (passes level rank)).getLast? with
  | none => exact List.mem_map_of_mem (List.mem_append_right _ List.mem_cons_self)
  | some m =>
    have passed := List.takeWhile_subset _ (List.mem_of_getLast? last)
    exact List.mem_map_of_mem (List.mem_append_right _ (List.mem_cons_of_mem _ passed))

theorem splitAt_of_not_mem (gone : id ∉ t.ids) : splitAt id t.nodes = none := by
  cases cut : splitAt id t.nodes with
  | none => rfl
  | some parts =>
    obtain ⟨before, n, after⟩ := parts
    obtain ⟨split, rfl, -⟩ := splitAt_eq_some cut
    exact absurd (List.mem_map_of_mem (split ▸ by simp)) gone

theorem Sound.plant_eq (h : t.Sound) (split : t.nodes = before ++ n :: after) (kind : Kind) (tag : String) :
    t.plant kind tag n.id = (t.placed kind tag before n after).wire (t.fresh kind tag (some n)) := by
  rw [plant, h.splitAt_eq split]

theorem Sound.mem_ids_plant (h : t.Sound) (split : t.nodes = before ++ n :: after) (kind : Kind)
    (tag : String) : id ∈ (t.plant kind tag n.id).ids ↔ id = ⟨t.issued⟩ ∨ id ∈ t.ids := by
  rw [h.plant_eq split, (wire_keeps _ _).entry.ids_of_entry, mem_ids_placed split]

/-- A parent is not told yet of a new node below it. -/
theorem Sound.node?_plant (h : t.Sound) (split : t.nodes = before ++ n :: after) (kind : Kind)
    (tag : String) : ∃ m, (t.plant kind tag n.id).node? n.id = some m ∧ m.childCount = n.childCount := by
  have hn : n ∈ t.nodes := split ▸ by simp
  have live := (h.mem_ids_plant split kind tag).mpr (.inr (List.mem_map_of_mem hn))
  obtain ⟨m, found, -⟩ := InPlace.find_live live
  obtain ⟨hm, same⟩ := node?_eq_some found
  have kept := wire_keeps (t.placed kind tag before n after) (t.fresh kind tag (some n))
  have inserted : t.insert kind tag n.id = .ok (_, ⟨t.issued⟩) := insert_eq (h.splitAt_eq split)
  have distinct : ((t.placed kind tag before n after).shapes.map Shape.id).Nodup := by
    rw [← ids_eq_shapes, ← (insert_keeps (h.splitAt_eq split) inserted).2.ids_of_entry]
    exact (insert_sound h inserted).nodup
  have shape : m.shape ∈ (t.placed kind tag before n after).shapes := by
    rw [shapes, ← kept.shape_of_fullEntry.nodes, ← h.plant_eq split]
    exact List.mem_map_of_mem hm
  have shape' : n.shape ∈ (t.placed kind tag before n after).shapes :=
    List.mem_map_of_mem ((mem_placed split).mpr (.inr hn))
  exact ⟨m, found, congrArg Shape.childCount (List.inj_on_of_nodup_map distinct shape shape' same)⟩

theorem Sound.insert_live (h : t.Sound) (live : id ∈ t.ids) (kind : Kind) (tag : String) :
    ∃ t', t.insert kind tag id = .ok (t', ⟨t.issued⟩) := by
  obtain ⟨n, hn, rfl⟩ := List.mem_map.mp live
  obtain ⟨before, after, split⟩ := List.append_of_mem hn
  exact ⟨_, insert_eq (h.splitAt_eq split)⟩

/-- An insertion does not fail once the parent was found. -/
theorem Sound.insert_inPlace (h : t.Sound) (kind : Kind) (tag : String) (parent : NodeId) :
    InPlace.insert kind tag parent t = t.whole (t.insert kind tag parent) := by
  by_cases live : parent ∈ t.ids
  · obtain ⟨n, hn, rfl⟩ := List.mem_map.mp live
    obtain ⟨before, after, split⟩ := List.append_of_mem hn
    have planted {id : NodeId} : id = ⟨t.issued⟩ ∨ id ∈ t.ids → id ∈ (t.plant kind tag n.id).ids :=
      (h.mem_ids_plant split kind tag).mpr
    obtain ⟨m, above, count⟩ := h.node?_plant split kind tag
    let linked := (t.plant kind tag n.id).alter n.id fun n => { n with expandable := true }
    have counted : (linked.setChildCount n.id (n.childCount + 1)).ids = (t.plant kind tag n.id).ids :=
      (setChildCount_keeps_entry linked _ _).ids_of_entry.trans (ids_alter _ _ _ fun _ => rfl)
    obtain ⟨_, -, made⟩ := InPlace.find_live (planted (.inl rfl))
    obtain ⟨_, -, point⟩ :=
      InPlace.find_live (planted (.inr (h.insertionPoint_mem split (n.level + 1) kind.rank)))
    obtain ⟨_, -, told⟩ := InPlace.find_live (counted ▸ planted (.inr live))
    rw [insert_eq (h.splitAt_eq split), ← h.plant_eq split]
    refine (InPlace.bind_ok (InPlace.find_ok (node?_of_mem h.nodup hn))).trans ?_
    refine (InPlace.bind_ok rfl).trans ?_
    refine (InPlace.bind_ok rfl).trans ?_
    refine (InPlace.bind_ok rfl).trans ?_
    refine (InPlace.bind_ok made).trans ?_
    refine (InPlace.bind_ok point).trans ?_
    refine (InPlace.bind_ok (InPlace.find_ok above)).trans ?_
    rw [count]
    refine (InPlace.bind_ok rfl).trans ?_
    refine (InPlace.bind_ok rfl).trans ?_
    refine (InPlace.bind_ok told).trans ?_
    rfl
  · rw [insert_eq_error (splitAt_of_not_mem live)]
    exact InPlace.bind_error (InPlace.find_error live)

/-- The child that a kind cannot be without finds the node that it comes below. -/
theorem Sound.add_inPlace (h : t.Sound) (kind : Kind) (parent : Option NodeId) :
    InPlace.add kind parent t = t.whole (t.add kind parent) := by
  refine (InPlace.bind_ok rfl).trans ?_
  unfold Tree.add
  cases parent.or t.selection with
  | none => rfl
  | some parent =>
    have inserted := h.insert_inPlace kind (kind.tag?.getD "") parent
    dsimp only
    cases made : t.insert kind (kind.tag?.getD "") parent with
    | error err =>
      rw [made] at inserted
      exact InPlace.bind_error inserted
    | ok added =>
      obtain ⟨t', id⟩ := added
      rw [made] at inserted
      refine (InPlace.bind_ok inserted).trans ?_
      cases kind.mandatoryChild? with
      | none => rfl
      | some child =>
        have sound := insert_sound h made
        have inserted' := sound.insert_inPlace child (child.tag?.getD "") id
        obtain ⟨t'', made'⟩ := sound.insert_live (id_mem_insert made) child (child.tag?.getD "")
        rw [made'] at inserted'
        refine (InPlace.bind_ok inserted').trans ?_
        simp only [made', bind, Except.bind]
        rfl

theorem Sound.addParsed_inPlace (h : t.Sound) (kind : Kind) (tag : String) (parent : Option NodeId) :
    InPlace.addParsed kind tag parent t = t.whole (t.addParsed kind tag parent) := by
  refine (InPlace.bind_ok rfl).trans ?_
  unfold Tree.addParsed
  split
  · rfl
  · cases parent with
    | none => rfl
    | some parent => exact h.insert_inPlace kind tag parent

/-! ## A node goes -/

/-- Only the root comes first. -/
theorem Sound.exists_last (h : t.Sound) (split : t.nodes = before ++ n :: after) {parent : NodeId}
    (inner : n.parent = some parent) : ∃ front last, before = front ++ [last] := by
  cases before with
  | nil =>
    have root := h.arranged.root n.shape (by rw [shapes, split]; rfl)
    rw [show n.shape.parent = n.parent from rfl, inner] at root
    cases root
  | cons m before => exact ⟨_, _, (List.dropLast_append_getLast (List.cons_ne_nil m before)).symm⟩

/-- A removal does not fail once the node was found to be below another. -/
theorem Sound.remove_inPlace (h : t.Sound) (id : NodeId) :
    InPlace.remove id t = t.whole ((t.remove id).map (·, ())) := by
  by_cases live : id ∈ t.ids
  · obtain ⟨n, hn, rfl⟩ := List.mem_map.mp live
    obtain ⟨before, after, split⟩ := List.append_of_mem hn
    have cut := h.splitAt_eq split
    refine (InPlace.bind_ok (InPlace.find_ok (node?_of_mem h.nodup hn))).trans ?_
    unfold Tree.remove
    rw [cut]
    dsimp only
    cases inner : n.parent with
    | none => rfl
    | some parent =>
      obtain ⟨front, last, rfl⟩ := h.exists_last split inner
      refine (InPlace.bind_ok rfl).trans ?_
      let rest := after.drop (runOf n.level after).length
      let deeper := (rest.head?.map fun m => decide (last.level < m.level)).getD false
      have passed : ∀ m ∈ runOf n.level after ++ rest.head?.toList, m.id ∈ t.ids := by
        intro m hm
        refine List.mem_map_of_mem ?_
        rw [split]
        refine List.mem_append_right _ (List.mem_cons_of_mem _ ?_)
        rcases List.mem_append.mp hm with hm | hm
        · exact List.takeWhile_subset _ hm
        · exact List.mem_of_mem_drop (List.mem_of_mem_head? (Option.mem_toList.mp hm))
      have before : t.node? last.id = some last := node?_of_mem h.nodup (split ▸ by simp)
      obtain ⟨p, there, -⟩ := InPlace.find_live (h.parent_mem hn inner)
      have above : (t.alter last.id fun m => { m with expandable := deeper }).node? parent =
          some (if p.id = last.id then { p with expandable := deeper } else p) := by
        rw [node?_alter (f := fun m => { m with expandable := deeper }) (fun _ => rfl), there]
        rfl
      have count : (if p.id = last.id then { p with expandable := deeper } else p).childCount =
          ((t.node? parent).map (·.childCount)).getD 0 := by
        rw [there]
        split <;> rfl
      simp only [cut, List.getLast?_concat]
      refine (InPlace.bind_ok (InPlace.visit_ok passed)).trans ?_
      refine (InPlace.bind_ok (InPlace.find_ok before)).trans ?_
      refine (InPlace.bind_ok rfl).trans ?_
      refine (InPlace.bind_ok (InPlace.find_ok above)).trans ?_
      rw [count]
      rfl
  · unfold Tree.remove
    rw [splitAt_of_not_mem live]
    exact InPlace.bind_error (InPlace.find_error live)

/-! ## Other changes -/

/-- Where only the first step can fail, nothing was done before. -/
theorem InPlace.find_bind {f : Node → InPlace α} {x : Except TreeError (Tree × α)}
    (error : ∀ err, t.getNode id = .error err → x = .error err)
    (ok : ∀ n, t.getNode id = .ok n → f n t = t.whole x) : (find id >>= f) t = t.whole x := by
  by_cases live : id ∈ t.ids
  · obtain ⟨n, found, look⟩ := find_live live
    exact (bind_ok look).trans (ok n (getNode_eq_ok.mpr found))
  · rw [error _ (getNode_error live)]
    exact bind_error (find_error live)

theorem toggle_inPlace (t : Tree) (id : NodeId) :
    InPlace.toggle id t = t.whole ((t.toggle id).map (·, ())) := by
  refine InPlace.find_bind (fun err missing => ?_) fun n found => ?_
  · rw [Tree.toggle, missing]
    rfl
  · cases inner : n.expandable with
    | false =>
      simp only [Tree.toggle, found, bind, Except.bind, inner]
      rfl
    | true =>
      refine (InPlace.bind_ok rfl).trans ?_
      refine (InPlace.bind_ok rfl).trans ?_
      refine (InPlace.bind_ok rfl).trans ?_
      refine (InPlace.bind_ok rfl).trans ?_
      simp only [Tree.toggle, found, bind, Except.bind, inner, Bool.not_true, Bool.false_eq_true, ↓reduceIte]
      generalize (t.alter id fun n => { n with expanded := !n.expanded }).refreshVisibility id = flipped
      cases flipped.selection.bind flipped.node? with
      | none => rfl
      | some selected =>
        dsimp only
        cases selected.visible <;> rfl

theorem select_inPlace (t : Tree) (selection : Option NodeId) :
    InPlace.select selection t = t.whole ((t.select selection).map (·, ())) := by
  cases selection with
  | none => rfl
  | some id =>
    refine InPlace.find_bind (fun err missing => ?_) fun n found => ?_
    · rw [Tree.select, missing]
      rfl
    · rw [Tree.select, found]
      rfl

theorem insertParsed_inPlace (t : Tree) (id : NodeId) (name value : String) :
    InPlace.insertParsed id name value t = t.whole (t.insertParsed id name value) := by
  refine InPlace.find_bind (fun err missing => ?_) fun n found => ?_
  · rw [Tree.insertParsed, missing]
    rfl
  · simp only [Tree.insertParsed, found, bind, Except.bind]
    split
    · rfl
    · exact InPlace.bind_ok (InPlace.find_ok (getNode_eq_ok.mp found))

theorem removeAttribute_inPlace (t : Tree) (id : NodeId) (name : String) :
    InPlace.removeAttribute id name t = t.whole (t.removeAttribute id name) := by
  refine InPlace.find_bind (fun err missing => ?_) fun n found => ?_
  · rw [Tree.removeAttribute, missing]
    rfl
  · simp only [Tree.removeAttribute, found, bind, Except.bind]
    split
    · rfl
    · rfl

/-- Setting an attribute is storing it as if it had been read, and saying nothing about its name. -/
theorem setAttribute_eq (t : Tree) (id : NodeId) (name value : String) :
    t.setAttribute id name value = (t.insertParsed id name value).map (·.1) := by
  simp only [setAttribute, Tree.insertParsed, bind, Except.bind]
  cases t.getNode id with
  | error err => rfl
  | ok n =>
    dsimp only
    split <;> rfl

theorem InPlace.map_whole {x : InPlace α} {made : Except TreeError (Tree × α)} (e : x t = t.whole made)
    (f : α → β) : (f <$> x) t = t.whole (made.map fun (t', a) => (t', f a)) := by
  simp only [Functor.map, EStateM.map, e]
  cases made <;> rfl

/-- In a sound tree a change that is made step by step is made as a whole, or nothing is changed. -/
theorem Sound.performInPlace_eq (h : t.Sound) (e : Edit) :
    performInPlace e t = t.whole (t.perform e) := by
  cases e with
  | clear | reset | writeAttribute => rfl
  | add kind parent => exact InPlace.map_whole (h.add_inPlace kind parent) Reply.node
  | addParsed kind tag parent => exact InPlace.map_whole (h.addParsed_inPlace kind tag parent) Reply.node
  | remove id =>
    refine (InPlace.map_whole (h.remove_inPlace id) _).trans ?_
    rw [perform]
    cases t.remove id <;> rfl
  | toggle id =>
    refine (InPlace.map_whole (t.toggle_inPlace id) _).trans ?_
    rw [perform]
    cases t.toggle id <;> rfl
  | select id =>
    refine (InPlace.map_whole (t.select_inPlace id) _).trans ?_
    rw [perform]
    cases t.select id <;> rfl
  | setAttribute id name value =>
    refine (InPlace.map_whole (t.insertParsed_inPlace id name value) _).trans ?_
    rw [perform, setAttribute_eq]
    cases t.insertParsed id name value <;> rfl
  | insertParsed id name value =>
    exact InPlace.map_whole (t.insertParsed_inPlace id name value) Reply.issues
  | removeAttribute id name => exact InPlace.map_whole (t.removeAttribute_inPlace id name) Reply.found
  | resolve number verdict =>
    refine (InPlace.bind_ok rfl).trans ?_
    rw [perform]
    cases t.resolve number verdict <;> rfl

end

end QueryMarkup.Tree
