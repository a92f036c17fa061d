import QueryMarkup.Proofs.Tree.Change

/-!
# A tree behind a past

A desk keeps the checks and inquiries of all documents that a tree ever held, and numbers new
ones behind them; the revision and what hosts were told go on as well. Apart from this a tree
works as if it had no past: each edit of a tree behind a past is the edit of the tree itself,
behind the same past.
-/
namespace QueryMarkup

/-- What a tree has behind it: the tickets of earlier checks, earlier inquiries, the changes of
the markup that were counted, and what hosts were told. -/
structure Past where
  tickets : List Nat
  requests : List Request
  revision : Nat
  journal : List Notice

/-- The earlier inquiries come from the earlier checks. -/
def Past.Entered (p : Past) : Prop := ∀ r ∈ p.requests, r.check < p.tickets.length

/-- The past in which an inquiry has been answered. -/
def Past.close (p : Past) (number : Nat) : Past :=
  { p with requests := p.requests.modify number fun r => { r with isOpen := false } }

/-- The past in which all inquiries have been answered. -/
def Past.settled (p : Past) : Past :=
  { p with requests := p.requests.map fun r => { r with isOpen := false } }

/-- A check with so many checks before it. -/
def SchemaCheck.behind (earlier : Nat) (check : SchemaCheck) : SchemaCheck :=
  { check with number := earlier + check.number }

/-- A request of a check with so many checks before it. -/
def Request.behind (earlier : Nat) (request : Request) : Request :=
  { request with check := earlier + request.check }

/-- A node whose check has so many checks before it. -/
def Node.behind (earlier : Nat) (n : Node) : Node :=
  { n with schema := n.schema.map (·.behind earlier) }

/-- A desk with the checks and inquiries of a past in front of its own. -/
def Desk.behind (p : Past) (desk : Desk) : Desk where
  host := desk.host
  tickets := p.tickets ++ desk.tickets
  requests := p.requests ++ desk.requests.map (·.behind p.tickets.length)

/-- A tree behind a past. -/
def Tree.behind (t : Tree) (p : Past) : Tree where
  nodes := t.nodes.map (·.behind p.tickets.length)
  issued := t.issued
  selection := t.selection
  revision := p.revision + t.revision
  desk := t.desk.map (·.behind p)
  journal := p.journal ++ t.journal

namespace Past

variable {p p' : Past}

theorem settled_close (p : Past) (number : Nat) : (p.close number).settled = p.settled := by
  refine congrArg (fun requests => { p with requests }) (List.ext_getElem? fun i => ?_)
  simp only [close, List.getElem?_map, List.getElem?_modify]
  cases p.requests[i]? with
  | none => rfl
  | some r => by_cases same : number = i <;> simp [same]

theorem length_of_settled (same : p'.settled = p.settled) : p'.requests.length = p.requests.length := by
  simpa [settled] using congrArg (fun p => p.requests.length) same

theorem Entered.of_settled (h : p.Entered) (same : p'.settled = p.settled) : p'.Entered := by
  have tickets : p'.tickets = p.tickets := (congrArg Past.tickets same :)
  intro r hr
  have there : { r with isOpen := false } ∈ p.settled.requests := same ▸ List.mem_map_of_mem hr
  obtain ⟨r', hr', e⟩ := List.mem_map.mp there
  have check : r'.check = r.check := (congrArg Request.check e :)
  rw [← check, tickets]
  exact h r' hr'

end Past

/-! ## Desks -/

theorem modify_map {α β : Type} {f : α → α} {g : β → β} {view : α → β}
    (same : ∀ a, g (view a) = view (f a)) (l : List α) (i : Nat) :
    (l.map view).modify i g = (l.modify i f).map view := by
  induction l generalizing i with
  | nil => cases i <;> rfl
  | cons a l ih =>
    cases i with
    | zero => exact congrArg (· :: l.map view) (same a)
    | succ i => exact congrArg (view a :: ·) (ih i)

namespace Desk

variable (p : Past) (desk : Desk) (check : Nat)

theorem ticket_behind : (desk.behind p).ticket (p.tickets.length + check) = desk.ticket check := by
  rw [ticket, behind, List.getElem?_append_right (by omega), Nat.add_sub_cancel_left, ticket]

theorem register_behind : (desk.behind p).register = desk.register.behind p := by
  simp [register, behind]

theorem renew_behind : (desk.behind p).renew (p.tickets.length + check) = (desk.renew check).behind p := by
  simp only [renew, behind, List.modify, List.modifyTailIdx_add]

theorem send_behind (inquiry : Inquiry) :
    (desk.behind p).send (p.tickets.length + check) inquiry = (desk.send check inquiry).behind p := by
  have ticket := desk.ticket_behind p check
  simp only [send, ticket]
  simp [behind, Request.behind]

theorem isStale_behind (request : Request) :
    (desk.behind p).isStale (request.behind p.tickets.length) = desk.isStale request := by
  simp only [isStale, Request.behind, ticket_behind]

theorem openRequest?_behind (number : Nat) : (desk.behind p).openRequest? (p.requests.length + number) =
    (desk.openRequest? number).map (·.behind p.tickets.length) := by
  rw [openRequest?, behind, List.getElem?_append_right (by omega), Nat.add_sub_cancel_left,
    List.getElem?_map, openRequest?, Option.filter_map]
  rfl

theorem close_earlier {number : Nat} (earlier : number < p.requests.length) :
    (desk.behind p).close number = desk.behind (p.close number) := by
  simp only [close, behind, Past.close, List.modify_eq_set_getElem?, List.getElem?_append_left earlier,
    List.getElem?_eq_getElem earlier, Option.map_eq_map, Option.map_some, Option.getD_some,
    List.set_append_left _ _ earlier]

theorem close_behind (number : Nat) :
    (desk.behind p).close (p.requests.length + number) = (desk.close number).behind p := by
  simp only [close, behind, List.modify, List.modifyTailIdx_add, mk.injEq, true_and]
  have closed (r : Request) : { r.behind p.tickets.length with isOpen := false } =
      Request.behind p.tickets.length { r with isOpen := false } := rfl
  exact congrArg (p.requests ++ ·) (modify_map closed _ _)

end Desk

/-! ## Nodes -/

namespace Node

variable (k : Nat) (n : Node)

theorem issuesNow_behind : (n.behind k).issuesNow = n.issuesNow := by
  simp only [issuesNow, behind, Option.map_map]
  rfl

theorem settle_behind : (n.behind k).settle = n.settle.behind k := by
  simp only [settle, issuesNow_behind]
  rfl

theorem recheckRule_behind (aggregate : String) (index : Nat) :
    (n.behind k).recheckRule aggregate index = (n.recheckRule aggregate index).behind k := by
  rw [recheckRule, recheckRule, ← settle_behind]
  rfl

theorem followSlot_behind (name : String) (watcher : Watcher) :
    (n.behind k).followSlot name watcher = (n.followSlot name watcher).behind k := by
  rw [followSlot, followSlot, ← settle_behind]
  rfl

theorem insertAttribute_behind (name : String) :
    (n.behind k).insertAttribute name = (n.insertAttribute name).behind k := by
  rw [insertAttribute, insertAttribute, ← settle_behind]
  rfl

theorem eraseAttribute_behind (name : String) :
    (n.behind k).eraseAttribute name = (n.eraseAttribute name).behind k := by
  rw [eraseAttribute, eraseAttribute, ← settle_behind]
  rfl

theorem answerSchema_behind (rejection : Option String) :
    (n.behind k).answerSchema rejection = (n.answerSchema rejection).behind k := by
  have answered (check : SchemaCheck) :
      (check.behind k).answer rejection = (check.answer rejection).behind k := by
    unfold SchemaCheck.answer SchemaCheck.behind
    split <;> rfl
  rw [answerSchema, answerSchema, ← settle_behind]
  congr 1
  simp only [behind, Option.map_map, mk.injEq, true_and, and_true]
  exact congrArg (n.schema.map ·) (funext answered)

end Node

/-! ## Looking at a tree -/

namespace Tree

variable (t : Tree) (p : Past)

theorem node?_behind (id : NodeId) :
    (t.behind p).node? id = (t.node? id).map (·.behind p.tickets.length) := by
  rw [node?, behind, List.find?_map]
  rfl

theorem map_node?_behind {β : Type} {view : Node → β} (same : ∀ k n, view (Node.behind k n) = view n)
    (id : NodeId) : ((t.behind p).node? id).map view = (t.node? id).map view := by
  rw [node?_behind, Option.map_map]
  exact congrArg (Option.map · _) (funext fun n => same _ n)

theorem root?_behind : (t.behind p).root? = t.root?.map (·.behind p.tickets.length) := List.head?_map

theorem isEmpty_behind : (t.behind p).isEmpty = t.isEmpty := List.isEmpty_map

theorem rootAggregate_behind : (t.behind p).rootAggregate = t.rootAggregate := by
  rw [rootAggregate, root?_behind, Option.map_map]
  rfl

theorem getNode_behind (id : NodeId) :
    (t.behind p).getNode id = (t.getNode id).map (·.behind p.tickets.length) := by
  rw [getNode, node?_behind, getNode]
  cases t.node? id <;> rfl

theorem splitAt_behind (k : Nat) (id : NodeId) (nodes : List Node) :
    splitAt id (nodes.map (·.behind k)) = (splitAt id nodes).map fun (before, n, after) =>
      (before.map (·.behind k), n.behind k, after.map (·.behind k)) := by
  induction nodes with
  | nil => rfl
  | cons n nodes ih =>
    have same : (n.behind k).id = n.id := rfl
    rw [List.map_cons, splitAt, splitAt, same, ih]
    split
    · rfl
    · rw [Option.map_map, Option.map_map]
      rfl

theorem runOf_behind (k level : Nat) (nodes : List Node) :
    runOf level (nodes.map (·.behind k)) = (runOf level nodes).map (·.behind k) :=
  List.takeWhile_map

theorem nearestEntityWithin_behind (fuel : Nat) (id : NodeId) :
    (t.behind p).nearestEntityWithin fuel id = t.nearestEntityWithin fuel id := by
  induction fuel generalizing id with
  | zero => rfl
  | succ fuel ih =>
    simp only [nearestEntityWithin, node?_behind]
    cases t.node? id with
    | none => rfl
    | some n =>
      have kind : (n.behind p.tickets.length).kind = n.kind := rfl
      have parent : (n.behind p.tickets.length).parent = n.parent := rfl
      simp only [Option.map_some, bind, Option.bind_some, kind, parent]
      cases n.parent with
      | none => rfl
      | some above => rw [Option.bind_some, Option.bind_some, ih]

theorem nearestEntity_behind (id : NodeId) : (t.behind p).nearestEntity id = t.nearestEntity id := by
  rw [nearestEntity, nearestEntity, nearestEntityWithin_behind, behind, List.length_map]

/-! ## Single steps -/

/-- Changing one node does not need the past. -/
theorem alter_behind {f : Node → Node} (same : ∀ k n, f (Node.behind k n) = (f n).behind k)
    (id : NodeId) : (t.behind p).alter id f = (t.alter id f).behind p := by
  have notices (n : Node) : noticesOf (n.behind p.tickets.length) ((f n).behind p.tickets.length) =
      noticesOf n (f n) := rfl
  have nodes (n : Node) : (if (n.behind p.tickets.length).id = id then
      f (n.behind p.tickets.length) else n.behind p.tickets.length) =
        (if n.id = id then f n else n).behind p.tickets.length := by
    rw [same]
    split <;> rename_i named
    · exact (congrArg _ (if_pos named)).symm
    · exact (congrArg _ (if_neg named)).symm
  simp only [alter, node?_behind, Option.map_map]
  simp only [behind, List.map_map, List.append_assoc]
  congr 1
  · exact List.map_congr_left fun n _ => nodes n
  · congr 2
    simp only [Function.comp_def, same, notices]

theorem touch_behind : (t.behind p).touch = t.touch.behind p := rfl

theorem setSelection_behind (selection : Option NodeId) :
    (t.behind p).setSelection selection = (t.setSelection selection).behind p := by
  have same : (t.behind p).selection = t.selection := rfl
  rw [setSelection, setSelection, same]
  split
  · rfl
  · simp [behind]

theorem recheckRule_behind (id : NodeId) (index : Nat) :
    (t.behind p).recheckRule id index = (t.recheckRule id index).behind p := by
  rw [recheckRule, rootAggregate_behind]
  exact t.alter_behind p (fun k n => n.recheckRule_behind k _ index) id

theorem answerCheck_behind (check : Nat) (rejection : Option String) :
    (t.behind p).answerCheck (p.tickets.length + check) rejection =
      (t.answerCheck check rejection).behind p := by
  have found : (t.behind p).nodes.find? (fun n =>
      (n.schema.map (·.number)) == some (p.tickets.length + check)) =
        (t.nodes.find? fun n => (n.schema.map (·.number)) == some check).map
          (·.behind p.tickets.length) := by
    rw [behind, List.find?_map]
    congr 2
    funext n
    cases own : n.schema <;> simp [Node.behind, SchemaCheck.behind, own]
  rw [answerCheck, found, answerCheck]
  cases t.nodes.find? fun n => (n.schema.map (·.number)) == some check with
  | none => rfl
  | some n => exact t.alter_behind p (fun k n => n.answerSchema_behind k rejection) n.id

/-- A check puts its question to the desk, if it has one. -/
def pose (t : Tree) (desk : Desk) (check : Nat) : Option Inquiry → Tree
  | none => t
  | some inquiry =>
    let asked := { t with desk := some (desk.send check inquiry) }
    match (desk.host inquiry).verdict? with
    | some verdict => asked.answerCheck check verdict.message?
    | none => asked

/-- A check withdraws what it was answered and then puts its question. -/
theorem askSchema_eq_pose {t : Tree} {desk : Desk} {n : Node} {check : SchemaCheck} {id : NodeId}
    (served : t.desk = some desk) (found : t.node? id = some n) (checked : n.schema = some check) :
    t.askSchema id =
      (Tree.alter { t with desk := some (desk.renew check.number) } id (·.answerSchema none)).pose
        (desk.renew check.number) check.number
        (n.inquiry? (((t.node? check.table).map (·.value "name")).getD "")) := by
  simp only [askSchema, served, found, Option.bind_some, checked, Option.map_some]
  cases n.inquiry? (((t.node? check.table).map (·.value "name")).getD "") <;> rfl

theorem pose_behind (desk : Desk) (check : Nat) (inquiry : Option Inquiry) :
    (t.behind p).pose (desk.behind p) (p.tickets.length + check) inquiry =
      (t.pose desk check inquiry).behind p := by
  cases inquiry with
  | none => rfl
  | some inquiry =>
    have host : (desk.behind p).host inquiry = desk.host inquiry := rfl
    have asked : { t.behind p with desk := some ((desk.send check inquiry).behind p) } =
        Tree.behind { t with desk := some (desk.send check inquiry) } p := rfl
    simp only [pose, host, desk.send_behind p check inquiry, asked]
    cases (desk.host inquiry).verdict? with
    | none => rfl
    | some verdict => exact answerCheck_behind _ p check _

theorem askSchema_behind (id : NodeId) : (t.behind p).askSchema id = (t.askSchema id).behind p := by
  cases served : t.desk with
  | none => simp only [askSchema, behind, served, Option.map_none]
  | some desk =>
    have served' : (t.behind p).desk = some (desk.behind p) := congrArg (Option.map _) served
    have found' := t.node?_behind p id
    cases found : t.node? id with
    | none =>
      rw [found] at found'
      simp only [askSchema, served, served', found, found', Option.map_none, Option.bind_none]
    | some n =>
      rw [found] at found'
      cases checked : n.schema with
      | none =>
        have checked' : (n.behind p.tickets.length).schema = none := congrArg (Option.map _) checked
        simp only [askSchema, served, served', found, found', checked, checked', Option.map_none,
          Option.map_some, Option.bind_some]
      | some check =>
        have checked' : (n.behind p.tickets.length).schema = some (check.behind p.tickets.length) :=
          congrArg (Option.map _) checked
        have table : ((t.behind p).node? check.table).map (·.value "name") =
            (t.node? check.table).map (·.value "name") := t.map_node?_behind p (fun _ _ => rfl) _
        have inquiry (name : String) : (n.behind p.tickets.length).inquiry? name = n.inquiry? name := rfl
        have waiting : Tree.alter { t.behind p with
              desk := some ((desk.renew check.number).behind p) } id (·.answerSchema none) =
            (Tree.alter { t with desk := some (desk.renew check.number) } id
              (·.answerSchema none)).behind p :=
          alter_behind { t with desk := some (desk.renew check.number) } p
            (fun k n => n.answerSchema_behind k none) id
        have renewed : (desk.behind p).renew (check.behind p.tickets.length).number =
            (desk.renew check.number).behind p := desk.renew_behind p check.number
        rw [askSchema_eq_pose served' found' checked', askSchema_eq_pose served found checked, renewed,
          ← pose_behind, ← waiting]
        have place : (check.behind p.tickets.length).table = check.table := rfl
        rw [place, table, inquiry]
        rfl

theorem displayVersion_behind (id : NodeId) (name : String) :
    ((t.behind p).node? id).map (·.displayVersion name) = (t.node? id).map (·.displayVersion name) :=
  t.map_node?_behind p (fun _ _ => rfl) id

theorem followSlot_behind (id : NodeId) (name : String) (watcher : Watcher) :
    (t.behind p).followSlot id name watcher = (t.followSlot id name watcher).behind p := by
  have changed := t.alter_behind p (f := fun n => n.followSlot name watcher)
    (fun k n => n.followSlot_behind k name watcher) id
  simp only [followSlot, changed, displayVersion_behind]
  split <;> rfl

theorem tell_behind (id : NodeId) (name : String) (watcher : Watcher) :
    (t.behind p).tell id name watcher = (t.tell id name watcher).behind p := by
  cases watcher with
  | rule owner index => exact t.recheckRule_behind p owner index
  | schema owner => exact t.askSchema_behind p owner
  | display => exact t.followSlot_behind p id name .display
  | valueCheck => exact t.followSlot_behind p id name .valueCheck

/-- Steps that do not need the past, one after the other. -/
theorem foldl_behind {α : Type} (p : Past) {step : Tree → α → Tree}
    (same : ∀ t x, step (t.behind p) x = (step t x).behind p) (t : Tree) (xs : List α) :
    xs.foldl step (t.behind p) = (xs.foldl step t).behind p := by
  induction xs generalizing t with
  | nil => rfl
  | cons x xs ih => rw [List.foldl_cons, List.foldl_cons, same, ih]

theorem writeSlot_behind (id : NodeId) (name value : String) :
    (t.behind p).writeSlot id name value = (t.writeSlot id name value).behind p := by
  rw [writeSlot, node?_behind, writeSlot]
  cases t.node? id with
  | none => rfl
  | some n =>
    have slots : (n.behind p.tickets.length).slots = n.slots := rfl
    simp only [Option.map_some, slots]
    split
    · rfl
    · rw [t.alter_behind p (f := fun n => n.setSlot name value) (fun _ _ => rfl) id]
      exact foldl_behind p (fun t w => t.tell_behind p id name w) _ _

end Tree

end QueryMarkup
