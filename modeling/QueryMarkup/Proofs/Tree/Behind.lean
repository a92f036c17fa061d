import QueryMarkup.Proofs.Tree.Past

/-!
# Edits of a tree behind a past

Each edit of a tree behind a past is made or refused as if there were no past. Only an inquiry
is known by its number at the desk, where the earlier ones come first.
-/
namespace QueryMarkup.Tree

variable (t : Tree) (p : Past)

/-- What an operation gives, with its tree behind a past. -/
def madeBehind {α : Type} (p : Past) (made : Except TreeError (Tree × α)) : Except TreeError (Tree × α) :=
  made.map fun made => (made.1.behind p, made.2)

/-! ## Visibility and selection -/

theorem spread_behind (k : Nat) (stack : List (Nat × Bool)) (nodes : List Node) :
    spread stack (nodes.map (·.behind k)) = (spread stack nodes).map (·.behind k) := by
  induction nodes generalizing stack with
  | nil => rfl
  | cons n nodes ih =>
    rw [List.map_cons, spread, spread, List.map_cons]
    exact congrArg₂ List.cons rfl (ih _)

theorem refreshVisibility_behind (id : NodeId) :
    (t.behind p).refreshVisibility id = (t.refreshVisibility id).behind p := by
  have split := splitAt_behind p.tickets.length id t.nodes
  cases cut : splitAt id t.nodes with
  | none =>
    rw [cut, Option.map_none] at split
    simp only [refreshVisibility, behind, split, cut]
  | some parts =>
    obtain ⟨before, n, after⟩ := parts
    rw [cut, Option.map_some] at split
    have level : (n.behind p.tickets.length).level = n.level := rfl
    have opens : ((n.behind p.tickets.length).visible && (n.behind p.tickets.length).expanded) =
        (n.visible && n.expanded) := rfl
    simp only [refreshVisibility, behind, split, cut, level, opens, runOf_behind, spread_behind,
      List.length_map, List.map_append, List.map_cons, List.map_drop]

theorem toggle_behind (id : NodeId) : (t.behind p).toggle id = (t.toggle id).map (·.behind p) := by
  have flipped : ((t.behind p).alter id fun n => { n with expanded := !n.expanded }).refreshVisibility id =
      ((t.alter id fun n => { n with expanded := !n.expanded }).refreshVisibility id).behind p := by
    rw [t.alter_behind p (f := fun n => { n with expanded := !n.expanded }) (fun _ _ => rfl) id,
      refreshVisibility_behind]
  simp only [toggle, getNode_behind, flipped]
  cases t.getNode id with
  | error e => rfl
  | ok n =>
    have expandable : (n.behind p.tickets.length).expandable = n.expandable := rfl
    simp only [Except.map, bind, Except.bind, expandable]
    generalize (t.alter id fun n => { n with expanded := !n.expanded }).refreshVisibility id = flipped
    cases n.expandable with
    | false => rfl
    | true =>
      have selection : (flipped.behind p).selection = flipped.selection := rfl
      have selected : (flipped.behind p).selection.bind (flipped.behind p).node? =
          (flipped.selection.bind flipped.node?).map (·.behind p.tickets.length) := by
        rw [selection, Option.map_bind]
        exact congrArg (flipped.selection.bind ·) (funext fun id => flipped.node?_behind p id)
      simp only [selected]
      cases flipped.selection.bind flipped.node? with
      | none => rfl
      | some n =>
        have visible : (n.behind p.tickets.length).visible = n.visible := rfl
        simp only [Option.map_some, visible]
        cases n.visible with
        | false => exact congrArg Except.ok (flipped.setSelection_behind p none)
        | true => rfl

theorem select_behind (selection : Option NodeId) :
    (t.behind p).select selection = (t.select selection).map (·.behind p) := by
  cases selection with
  | none => exact congrArg Except.ok (t.setSelection_behind p none)
  | some id =>
    simp only [select, getNode_behind, setSelection_behind]
    cases t.getNode id <;> rfl

/-! ## New nodes -/

theorem watchSlot_behind (id : NodeId) (name : String) (watcher : Watcher) :
    (t.behind p).watchSlot id name watcher = (t.watchSlot id name watcher).behind p :=
  t.alter_behind p (fun _ _ => rfl) id

theorem schemaCheckFor_behind (id : NodeId) (kind : Kind) (parent : Option NodeId) :
    (t.behind p).schemaCheckFor id kind parent =
      (t.schemaCheckFor id kind parent).map (·.behind p.tickets.length) := by
  have nearest : (t.behind p).nearestEntity = t.nearestEntity := funext (t.nearestEntity_behind p)
  cases served : t.desk with
  | none => simp only [schemaCheckFor, behind, served, Option.map_none, bind, Option.bind_none]
  | some desk =>
    have served' : (t.behind p).desk = some (desk.behind p) := congrArg (Option.map _) served
    have number : (desk.behind p).tickets.length = p.tickets.length + desk.tickets.length :=
      List.length_append
    simp only [schemaCheckFor, served, served', nearest, number, bind, Option.bind_some]
    split
    · rfl
    · split
      · cases parent.bind t.nearestEntity <;> rfl
      · rfl

theorem fresh_behind (kind : Kind) (tag : String) (parent : Option Node) :
    (t.behind p).fresh kind tag (parent.map (·.behind p.tickets.length)) =
      (t.fresh kind tag parent).behind p.tickets.length := by
  have level : (parent.map (·.behind p.tickets.length)).map (·.level + 1) = parent.map (·.level + 1) := by
    rw [Option.map_map]
    rfl
  have above : (parent.map (·.behind p.tickets.length)).map (·.id) = parent.map (·.id) := by
    rw [Option.map_map]
    rfl
  have issued : (t.behind p).issued = t.issued := rfl
  simp only [fresh, level, above, issued, rootAggregate_behind, schemaCheckFor_behind,
    ← Node.settle_behind]
  rfl

theorem wire_behind (n : Node) :
    (t.behind p).wire (n.behind p.tickets.length) = (t.wire n).behind p := by
  have root : (t.behind p).root?.map (·.id) = t.root?.map (·.id) := by
    rw [root?_behind, Option.map_map]
    rfl
  have id : (n.behind p.tickets.length).id = n.id := rfl
  have kind : (n.behind p.tickets.length).kind = n.kind := rfl
  simp only [wire, root, id, kind]
  rw [foldl_behind p]
  · generalize (ruleWatches n.id ((t.root?.map (·.id)).getD n.id) n.kind).foldl _ t = ruled
    cases checked : n.schema with
    | none =>
      have checked' : (n.behind p.tickets.length).schema = none := congrArg (Option.map _) checked
      simp only [checked']
    | some check =>
      have checked' : (n.behind p.tickets.length).schema = some (check.behind p.tickets.length) :=
        congrArg (Option.map _) checked
      have registered : { ruled.behind p with desk := (ruled.behind p).desk.map Desk.register } =
          Tree.behind { ruled with desk := ruled.desk.map Desk.register } p := by
        simp only [behind, Option.map_map]
        congr 2
        exact funext fun desk => desk.register_behind p
      have watches : schemaWatches n.id n.kind (check.behind p.tickets.length) =
          schemaWatches n.id n.kind check := rfl
      simp only [checked', registered, watches, ← askSchema_behind]
      rw [foldl_behind p]
      exact fun t x => t.watchSlot_behind p x.1 x.2 _
  · exact fun t x => t.watchSlot_behind p x.1 x.2.1 x.2.2

theorem plantRoot_behind (kind : Kind) (tag : String) :
    (t.behind p).plantRoot kind tag = (t.plantRoot kind tag).behind p := by
  have planted := t.fresh_behind p kind tag none
  rw [Option.map_none] at planted
  simp only [plantRoot, planted]
  exact wire_behind { t with nodes := [t.fresh kind tag none], issued := t.issued + 1 } p _

theorem setChildCount_behind (id : NodeId) (count : Nat) :
    (t.behind p).setChildCount id count = (t.setChildCount id count).behind p := by
  rw [setChildCount, node?_behind, setChildCount]
  cases t.node? id with
  | none => rfl
  | some n =>
    have childCount : (n.behind p.tickets.length).childCount = n.childCount := rfl
    have rules : (n.behind p.tickets.length).rules = n.rules := rfl
    simp only [Option.map_some, childCount, rules]
    split
    · rfl
    · rw [t.alter_behind p (f := fun n => { n with childCount := count }) (fun _ _ => rfl) id]
      exact foldl_behind p (fun t x => t.recheckRule_behind p id x.2) _ _

theorem adopt_behind (parent : NodeId) (count : Nat) :
    (t.behind p).adopt parent count = (t.adopt parent count).behind p := by
  rw [adopt, t.alter_behind p (f := fun n => { n with expandable := true }) (fun _ _ => rfl),
    setChildCount_behind, alter_behind _ p (f := fun n => { n with expanded := true }) (fun _ _ => rfl),
    refreshVisibility_behind, adopt]

theorem placed_behind (kind : Kind) (tag : String) (before : List Node) (above : Node)
    (after : List Node) :
    (t.behind p).placed kind tag (before.map (·.behind p.tickets.length))
        (above.behind p.tickets.length) (after.map (·.behind p.tickets.length)) =
      (t.placed kind tag before above after).behind p := by
  have new := t.fresh_behind p kind tag (some above)
  rw [Option.map_some] at new
  have passed (level rank : Nat) : passes level rank ∘ (·.behind p.tickets.length) =
      passes level rank := rfl
  have level : (above.behind p.tickets.length).level = above.level := rfl
  simp only [placed, new, level]
  simp only [behind, List.takeWhile_map, List.dropWhile_map, passed, List.map_append, List.map_cons]

theorem insert_behind (kind : Kind) (tag : String) (parent : NodeId) :
    (t.behind p).insert kind tag parent = madeBehind p (t.insert kind tag parent) := by
  have split := splitAt_behind p.tickets.length parent t.nodes
  cases cut : splitAt parent t.nodes with
  | none =>
    rw [cut, Option.map_none] at split
    rw [insert_eq_error cut, insert_eq_error split]
    rfl
  | some parts =>
    obtain ⟨before, above, after⟩ := parts
    rw [cut, Option.map_some] at split
    have new := t.fresh_behind p kind tag (some above)
    rw [Option.map_some] at new
    have childCount : (above.behind p.tickets.length).childCount = above.childCount := rfl
    rw [insert_eq cut, insert_eq split, placed_behind, new, wire_behind, childCount, adopt_behind]
    rfl

theorem add_behind (kind : Kind) (parent : Option NodeId) :
    (t.behind p).add kind parent = madeBehind p (t.add kind parent) := by
  have selection : (t.behind p).selection = t.selection := rfl
  simp only [add, selection]
  cases parent.or t.selection with
  | none => rfl
  | some parent =>
    simp only [bind, Except.bind, insert_behind]
    cases t.insert kind (kind.tag?.getD "") parent with
    | error e => rfl
    | ok made =>
      obtain ⟨added, id⟩ := made
      simp only [madeBehind, Except.map]
      cases kind.mandatoryChild? with
      | none => exact congrArg (fun t => Except.ok (t, id)) (added.setSelection_behind p _)
      | some child =>
        simp only [insert_behind, madeBehind]
        cases added.insert child (child.tag?.getD "") id with
        | error e => rfl
        | ok made => exact congrArg (fun t => Except.ok (t, id)) (made.1.setSelection_behind p _)

theorem addParsed_behind (kind : Kind) (tag : String) (parent : Option NodeId) :
    (t.behind p).addParsed kind tag parent = madeBehind p (t.addParsed kind tag parent) := by
  simp only [addParsed, isEmpty_behind, plantRoot_behind, touch_behind]
  split
  · rfl
  · cases parent with
    | none => rfl
    | some parent => exact t.insert_behind p kind tag parent

theorem clear_behind : (t.behind p).clear = t.clear.behind p := by
  rw [clear, clear, ← touch_behind, ← setSelection_behind]
  rfl

theorem reset_behind : (t.behind p).reset = t.reset.behind p := by
  simp only [reset, clear_behind, plantRoot_behind, add_behind]
  cases (t.clear.plantRoot .fetch "fetch").add .entity (some ⟨0⟩) with
  | error e => rfl
  | ok made => exact made.1.setSelection_behind p none

/-! ## Removal -/

theorem forget_behind (gone : List NodeId) : (t.behind p).forget gone = (t.forget gone).behind p := by
  simp only [forget, behind, List.map_map]
  rfl

theorem cut_behind (gone : List NodeId) : (t.behind p).cut gone = (t.cut gone).behind p := by
  simp only [cut, behind, List.filter_map]
  rfl

theorem leave_behind (gone : List NodeId) (last : NodeId) :
    ((((t.behind p).cut gone).forget gone).setSelection (some last)).touch =
      (((t.cut gone).forget gone).setSelection (some last)).touch.behind p := by
  rw [cut_behind, forget_behind, setSelection_behind, touch_behind]

theorem remove_behind (id : NodeId) : (t.behind p).remove id = (t.remove id).map (·.behind p) := by
  have split := splitAt_behind p.tickets.length id t.nodes
  cases cut : splitAt id t.nodes with
  | none =>
    rw [cut, Option.map_none] at split
    simp only [remove, behind, split, cut]
    rfl
  | some parts =>
    obtain ⟨before, n, after⟩ := parts
    rw [cut, Option.map_some] at split
    have nodes : (t.behind p).nodes = t.nodes.map (·.behind p.tickets.length) := rfl
    have parent : (n.behind p.tickets.length).parent = n.parent := rfl
    simp only [remove, nodes, split, cut, parent, List.getLast?_map]
    cases n.parent with
    | none => rfl
    | some parent =>
      cases before.getLast? with
      | none => rfl
      | some last =>
        have lastId : (last.behind p.tickets.length).id = last.id := rfl
        have level (n : Node) : (n.behind p.tickets.length).level = n.level := rfl
        have count : ((t.behind p).node? parent).map (·.childCount) = (t.node? parent).map (·.childCount) :=
          t.map_node?_behind p (fun _ _ => rfl) parent
        have run : ((runOf n.level after).map (·.behind p.tickets.length)).map (·.id) =
            (runOf n.level after).map (·.id) := by
          rw [List.map_map]
          rfl
        have deeper (rest : List Node) : ((rest.map (·.behind p.tickets.length)).head?.map fun n =>
            decide (last.level < n.level)) = rest.head?.map fun n => decide (last.level < n.level) := by
          rw [List.head?_map, Option.map_map]
          rfl
        have linked (deeper : Bool) := t.alter_behind p (f := fun n => { n with expandable := deeper })
          (fun _ _ => rfl) last.id
        simp only [Option.map_some, level, lastId, runOf_behind, List.length_map, ← List.map_drop, deeper,
          linked, setChildCount_behind, count, run]
        exact congrArg Except.ok (leave_behind _ p _ last.id)

/-! ## Attributes -/

theorem createAttribute_behind (id : NodeId) (name value : String) :
    (t.behind p).createAttribute id name value = (t.createAttribute id name value).behind p := by
  rw [createAttribute, writeSlot_behind,
    alter_behind _ p (f := fun n => n.insertAttribute name) fun k n => n.insertAttribute_behind k name]
  rfl

theorem setAttribute_behind (id : NodeId) (name value : String) :
    (t.behind p).setAttribute id name value = (t.setAttribute id name value).map (·.behind p) := by
  simp only [setAttribute, getNode_behind, writeSlot_behind, createAttribute_behind]
  cases t.getNode id with
  | error e => rfl
  | ok n =>
    have held : (n.behind p.tickets.length).attribute? name = n.attribute? name := rfl
    simp only [Except.map, bind, Except.bind, held]
    split <;> rfl

theorem insertParsed_behind (id : NodeId) (name value : String) :
    (t.behind p).insertParsed id name value = madeBehind p (t.insertParsed id name value) := by
  simp only [insertParsed, getNode_behind, writeSlot_behind, createAttribute_behind]
  cases t.getNode id with
  | error e => rfl
  | ok n =>
    have held : (n.behind p.tickets.length).attribute? name = n.attribute? name := rfl
    simp only [Except.map, bind, Except.bind, held]
    split <;> rfl

theorem removeAttribute_behind (id : NodeId) (name : String) :
    (t.behind p).removeAttribute id name = madeBehind p (t.removeAttribute id name) := by
  have erased : ((t.writeSlot id name "").behind p).alter id (fun n => n.eraseAttribute name) = _ :=
    alter_behind _ p (f := fun n => n.eraseAttribute name) (fun k n => n.eraseAttribute_behind k name) id
  simp only [removeAttribute, getNode_behind, writeSlot_behind, erased]
  cases t.getNode id with
  | error e => rfl
  | ok n =>
    have held : (n.behind p.tickets.length).attribute? name = n.attribute? name := rfl
    simp only [Except.map, bind, Except.bind, held]
    split <;> rfl

theorem writeAttribute_behind (id : NodeId) (name value : String) :
    (t.behind p).writeAttribute id name value =
      ((t.writeAttribute id name value).1.behind p, (t.writeAttribute id name value).2) := by
  have had : (((t.behind p).node? id).bind (·.attribute? name)).isSome =
      ((t.node? id).bind (·.attribute? name)).isSome := by
    rw [node?_behind, Option.bind_map]
    rfl
  simp only [writeAttribute, had, writeSlot_behind]
  split <;> rfl

theorem setSpan_behind (id : NodeId) (span : Option Text.Range) :
    (t.behind p).setSpan id span = (t.setSpan id span).behind p :=
  t.alter_behind p (fun _ _ => rfl) id

theorem setAttributeSpan_behind (id : NodeId) (name : String) (span : Option Text.Range) :
    (t.behind p).setAttributeSpan id name span = (t.setAttributeSpan id name span).behind p :=
  t.alter_behind p (fun _ _ => rfl) id

/-! ## Inquiries -/

/-- The first inquiry of the tree comes after all earlier ones. -/
theorem resolve_behind (number : Nat) (verdict : Verdict) :
    (t.behind p).resolve (p.requests.length + number) verdict =
      (t.resolve number verdict).map fun made => (made.1.behind p, made.2) := by
  cases served : t.desk with
  | none => simp only [resolve, behind, served, Option.map_none, bind, Option.bind_none]
  | some desk =>
    have served' : (t.behind p).desk = some (desk.behind p) := congrArg (Option.map _) served
    simp only [resolve, served, served', bind, Option.bind_some, Desk.openRequest?_behind]
    cases desk.openRequest? number with
    | none => rfl
    | some request =>
      have closed : { t.behind p with desk := some ((desk.close number).behind p) } =
          Tree.behind { t with desk := some (desk.close number) } p := rfl
      have check : (request.behind p.tickets.length).check = p.tickets.length + request.check := rfl
      simp only [Option.map_some, Option.bind_some, Desk.isStale_behind, Desk.close_behind, closed, check,
        answerCheck_behind]
      split <;> rfl

/-- An answer to an earlier check reaches no node of the tree. -/
theorem answerCheck_earlier {check : Nat} (earlier : check < p.tickets.length)
    (rejection : Option String) : (t.behind p).answerCheck check rejection = t.behind p := by
  have none : (t.behind p).nodes.find? (fun n => (n.schema.map (·.number)) == some check) = none := by
    refine List.find?_eq_none.mpr fun n hn => ?_
    obtain ⟨m, -, rfl⟩ := List.mem_map.mp hn
    cases own : m.schema with
    | none => simp [Node.behind, own]
    | some own =>
      simp only [Node.behind, own, SchemaCheck.behind, Option.map_some, beq_iff_eq, Option.some.injEq]
      omega
  rw [answerCheck, none]

/-! ## Edits -/

theorem perform_behind (e : Edit) (other : ∀ number verdict, e ≠ .resolve number verdict) :
    (t.behind p).perform e = madeBehind p (t.perform e) := by
  have map {α β : Type} {made made' : Except TreeError α} {pair : α → Tree × β} {view : α → α}
      (same : made' = made.map view) (through : ∀ a, pair (view a) = ((pair a).1.behind p, (pair a).2)) :
      made'.map pair = madeBehind p (made.map pair) := by
    rw [same]
    cases made with
    | error e => rfl
    | ok a => exact congrArg Except.ok (through a)
  cases e with
  | clear => exact congrArg (fun t => Except.ok (t, Reply.done)) (t.clear_behind p)
  | reset => exact congrArg (fun t => Except.ok (t, Reply.done)) (t.reset_behind p)
  | add kind parent => exact map (t.add_behind p kind parent) fun _ => rfl
  | addParsed kind tag parent => exact map (t.addParsed_behind p kind tag parent) fun _ => rfl
  | remove id => exact map (t.remove_behind p id) fun _ => rfl
  | toggle id => exact map (t.toggle_behind p id) fun _ => rfl
  | select id => exact map (t.select_behind p id) fun _ => rfl
  | setAttribute id name value => exact map (t.setAttribute_behind p id name value) fun _ => rfl
  | insertParsed id name value => exact map (t.insertParsed_behind p id name value) fun _ => rfl
  | removeAttribute id name => exact map (t.removeAttribute_behind p id name) fun _ => rfl
  | writeAttribute id name value =>
    have written := t.writeAttribute_behind p id name value
    simp only [perform, written]
    rfl
  | resolve number verdict => exact absurd rfl (other number verdict)

theorem edit_behind (e : Edit) (other : ∀ number verdict, e ≠ .resolve number verdict) :
    (t.behind p).edit e = (t.edit e).behind p := by
  rw [edit, perform_behind t p e other, edit]
  cases t.perform e <;> rfl

theorem edit_resolve_behind (number : Nat) (verdict : Verdict) :
    (t.behind p).edit (.resolve (p.requests.length + number) verdict) =
      (t.edit (.resolve number verdict)).behind p := by
  simp only [edit, perform, resolve_behind]
  cases t.resolve number verdict <;> rfl

/-- An answer to an earlier inquiry is history as well. -/
theorem edit_resolve_earlier (entered : p.Entered) {number : Nat} (earlier : number < p.requests.length)
    (verdict : Verdict) : (t.behind p).edit (.resolve number verdict) = t.behind p ∨
      (t.behind p).edit (.resolve number verdict) = t.behind (p.close number) := by
  cases made : (t.behind p).resolve number verdict with
  | none => exact .inl (by simp only [edit, perform, made])
  | some made' =>
    right
    simp only [edit, perform, made]
    obtain ⟨desk, request, served, opened, -, changed⟩ := resolve_eq_some made
    obtain ⟨own, own', rfl⟩ := Option.map_eq_some_iff.mp served
    have closed : { t.behind p with desk := some ((own.behind p).close number) } =
        t.behind (p.close number) := by
      rw [own.close_earlier p earlier]
      simp only [behind, Past.close, own', Option.map_some]
    have check : request.check < p.tickets.length := by
      rw [Desk.openRequest?, Desk.behind, List.getElem?_append_left earlier] at opened
      exact entered _ (List.mem_of_getElem? (Option.filter_eq_some_iff.mp opened).1)
    rw [changed, closed]
    split
    · rfl
    · exact t.answerCheck_earlier (p.close number) check _

end QueryMarkup.Tree
