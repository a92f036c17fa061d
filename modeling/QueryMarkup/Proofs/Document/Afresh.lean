import QueryMarkup.Proofs.Document.Replies
import QueryMarkup.Proofs.Tree.Behind
import QueryMarkup.Proofs.Tree.Enrolled

/-!
# Reading afresh

Reading a text leaves nothing of what a tree held before. The tree is the one that the text
gives without any history, with the history behind it.
-/
namespace QueryMarkup

/-- A deed for a tree that so many inquiries came before. An answer to one of them is none. -/
def Deed.since (earlier : Nat) : Deed → Option Deed
  | .edit (.resolve number verdict) =>
    if number < earlier then none else some (.edit (.resolve (number - earlier) verdict))
  | d => some d

/-! ## Reading behind a past -/

namespace Builder

variable (b : Builder) (t : Tree) (p : Past)

/-- A reader with its tree behind a past. -/
def behind (p : Past) (s : Builder × Tree) : Builder × Tree := (s.1, s.2.behind p)

theorem readAttribute_behind (id : NodeId) (seen : List String) (a : StagedAttribute) :
    readAttribute id (b, t.behind p, seen) a =
      ((readAttribute id (b, t, seen) a).1, (readAttribute id (b, t, seen) a).2.1.behind p,
        (readAttribute id (b, t, seen) a).2.2) := by
  simp only [readAttribute, Tree.insertParsed_behind]
  cases a.value with
  | none => rfl
  | some value =>
    dsimp only
    cases t.insertParsed id a.name value with
    | error e => rfl
    | ok made =>
      simp only [Tree.madeBehind, Except.map, Tree.setAttributeSpan_behind]

theorem readAttributes_behind (id : NodeId) (seen : List String) (attributes : List StagedAttribute) :
    attributes.foldl (readAttribute id) (b, t.behind p, seen) =
      ((attributes.foldl (readAttribute id) (b, t, seen)).1,
        (attributes.foldl (readAttribute id) (b, t, seen)).2.1.behind p,
        (attributes.foldl (readAttribute id) (b, t, seen)).2.2) := by
  induction attributes generalizing b t seen with
  | nil => rfl
  | cons a attributes ih =>
    rw [List.foldl_cons, readAttribute_behind, List.foldl_cons]
    exact ih _ _ _

theorem finalize_behind (element : StagedElement) (selfClosing : Bool) :
    b.finalize (t.behind p) element selfClosing = behind p (b.finalize t element selfClosing) := by
  have kinds (parent : Option NodeId) : (parent.bind (t.behind p).node?).map (·.kind) =
      (parent.bind t.node?).map (·.kind) := by
    cases parent with
    | none => rfl
    | some id => exact t.map_node?_behind p (fun _ _ => rfl) id
  simp only [finalize, kinds, Tree.addParsed_behind]
  cases b.refusal element with
  | some refused => cases refused <;> rfl
  | none =>
    dsimp only
    cases t.addParsed (Kind.ofTag element.tag) element.tag (b.stack.head?.bind (·.node)) with
    | error e => rfl
    | ok made =>
      simp only [Tree.madeBehind, Except.map, Tree.setSpan_behind, readAttributes_behind]
      rfl

theorem abandon_behind : b.abandon (t.behind p) = behind p (b.abandon t) := by
  simp only [abandon, finalize_behind]
  split <;> rfl

theorem endTag_behind (span : Text.Range) (selfClosing : Bool) :
    b.endTag (t.behind p) span selfClosing = behind p (b.endTag t span selfClosing) := by
  simp only [endTag, finalize_behind]
  split
  · rfl
  · split <;> rfl

theorem readText_behind (span : Text.Range) (text : List Char) :
    b.readText (t.behind p) span text = behind p (b.readText t span text) := by
  simp only [readText, Tree.node?_behind, Tree.insertParsed_behind]
  split
  · rfl
  · split
    · rfl
    · rfl
    · rename_i id _ _ _
      cases t.node? id with
      | none => rfl
      | some n =>
        have kind : (n.behind p.tickets.length).kind = n.kind := rfl
        have value : (n.behind p.tickets.length).value = n.value := rfl
        simp only [Option.map_some, kind, value]
        split
        · cases t.insertParsed id contentName _ <;> rfl
        · rfl

theorem feed_behind (coordinator : Coordinator) (source : String) (token : Token) :
    b.feed (t.behind p) coordinator source token = behind p (b.feed t coordinator source token) := by
  unfold feed
  split
  · rfl
  · cases token.kind with
    | startTag => simp only [abandon_behind]; rfl
    | startCloseTag => simp only [abandon_behind]; rfl
    | tagName =>
      dsimp only
      split <;> rfl
    | attributeName =>
      dsimp only
      split <;> rfl
    | endTag => exact b.endTag_behind t p _ _
    | selfCloseEndTag => exact b.endTag_behind t p _ _
    | text => exact b.readText_behind t p _ _
    | attributeValue => rfl
    | error => rfl
    | equals => rfl
    | whitespace => rfl
    | comment => rfl

theorem finish_behind (coordinator : Coordinator) : b.finish (t.behind p) coordinator =
    ((b.finish t coordinator).1, (b.finish t coordinator).2.1,
      (b.finish t coordinator).2.2.behind p) := by
  simp only [finish, abandon_behind]
  split <;> rfl

end Builder

namespace Document

variable (t : Tree) (p : Past)

theorem readTokens_of_clear {t t' : Tree} (cleared : t.clear = t'.clear.behind p) (tokens : List Token)
    (source : String) (settings : Settings) : readTokens t tokens source settings =
      ((readTokens t' tokens source settings).1.behind p, (readTokens t' tokens source settings).2) := by
  have feeds (b : Builder) (t : Tree) : tokens.foldl
      (fun s token => s.1.feed s.2 ⟨.textToTree⟩ source token) (b, t.behind p) =
        Builder.behind p (tokens.foldl (fun s token => s.1.feed s.2 ⟨.textToTree⟩ source token) (b, t)) := by
    induction tokens generalizing b t with
    | nil => rfl
    | cons token tokens ih =>
      rw [List.foldl_cons, List.foldl_cons, Builder.feed_behind]
      exact ih _ _
  have fed := feeds { limit := settings.nestingLimit } t'.clear
  simp only [readTokens, cleared]
  rw [fed, Builder.behind, Builder.finish_behind]

theorem orDefault_behind : orDefault (t.behind p) = (orDefault t).behind p := by
  simp only [orDefault, Tree.isEmpty_behind, Tree.reset_behind]
  split <;> rfl

/-- Reading goes by nothing but the cleared tree. -/
theorem parse_of_clear {t t' : Tree} (cleared : t.clear = t'.clear.behind p) (source : String)
    (settings : Settings) : parse t source settings =
      ((parse t' source settings).1.behind p, (parse t' source settings).2) := by
  simp only [parse, parseTokens_idle, readTokens_of_clear p cleared, orDefault_behind]

end Document

/-! ## What is behind a tree -/

namespace Tree

/-- What a tree leaves behind when it is cleared. -/
def past (t : Tree) : Past where
  tickets := t.records.tickets
  requests := t.records.requests
  revision := t.revision
  journal := t.clear.journal

theorem enrolled_invariant (host : Option (Inquiry → Reception)) : Invariant (Enrolled host) where
  change c h := c.enrolled h
  setSpan t id _ h := h.of_keeps (keeps_alter t id _ fun _ => rfl) rfl
  setAttributeSpan t id _ _ h := h.of_keeps (keeps_alter t id _ fun _ => rfl) rfl

theorem clear_eq (t : Tree) : t.clear = ⟨[], 0, none, t.revision + 1, t.desk, t.clear.journal⟩ := by
  unfold clear setSelection touch
  split
  · rename_i unselected
    exact congrArg (Tree.mk [] 0 · _ t.desk t.journal) unselected
  · rfl

variable {host : Option (Inquiry → Reception)} {t : Tree} {p : Past}

/-- A cleared tree is a new one with all that happened behind it. -/
theorem clear_eq_behind (h : t.Enrolled host) :
    t.clear = (new (host.map .serving)).clear.behind t.past := by
  have desk : t.desk = (host.map Desk.serving).map (·.behind t.past) := by
    rw [← h.served, Option.map_map, Option.map_map]
    cases served : t.desk with
    | none => rfl
    | some desk =>
      have records : t.records = desk := by rw [records, served]; rfl
      simp [Desk.behind, Desk.serving, past, records]
  rw [clear_eq, clear_eq (new _), desk, behind]
  simp [past, new, clear, setSelection, touch]

theorem entered_past (h : t.Enrolled host) : t.past.Entered := h.requests

/-! ## What happens later -/

/-- What is done to a tree behind a past is done to the tree itself, but answers to earlier
inquiries only settle these. -/
theorem after_behind (entered : p.Entered) (t : Tree) (d : Deed) : ∃ p' : Past,
    p'.settled = p.settled ∧
      (t.behind p).after d = ((d.since p.requests.length).elim t t.after).behind p' := by
  cases d with
  | parse source settings =>
    exact ⟨p, rfl, congrArg Prod.fst (Document.parse_of_clear p (t.clear_behind p) source settings)⟩
  | edit e =>
    by_cases reply : ∃ number verdict, e = .resolve number verdict
    · obtain ⟨number, verdict, rfl⟩ := reply
      by_cases earlier : number < p.requests.length
      · have none : Deed.since p.requests.length (.edit (.resolve number verdict)) = none :=
          if_pos earlier
        rw [none]
        rcases t.edit_resolve_earlier p entered earlier verdict with same | closed
        · exact ⟨p, rfl, same⟩
        · exact ⟨p.close number, p.settled_close number, closed⟩
      · obtain ⟨own, rfl⟩ := Nat.exists_eq_add_of_le (Nat.le_of_not_lt earlier)
        have some : Deed.since p.requests.length (.edit (.resolve (p.requests.length + own) verdict)) =
            some (.edit (.resolve own verdict)) := by
          rw [Deed.since, if_neg earlier, Nat.add_sub_cancel_left]
        rw [some]
        exact ⟨p, rfl, t.edit_resolve_behind p own verdict⟩
    · have other (number : Nat) (verdict : Verdict) : e ≠ .resolve number verdict :=
        fun same => reply ⟨number, verdict, same⟩
      have some : Deed.since p.requests.length (.edit e) = some (.edit e) := by
        cases e with
        | resolve number verdict => exact absurd rfl (other number verdict)
        | _ => rfl
      rw [some]
      exact ⟨p, rfl, t.edit_behind p e other⟩

theorem run_behind (entered : p.Entered) (t : Tree) (deeds : List Deed) : ∃ p' : Past,
    p'.settled = p.settled ∧ deeds.foldl after (t.behind p) =
      ((deeds.filterMap (·.since p.requests.length)).foldl after t).behind p' := by
  induction deeds generalizing t p with
  | nil => exact ⟨p, rfl, rfl⟩
  | cons d deeds ih =>
    obtain ⟨p', same, made⟩ := after_behind entered t d
    obtain ⟨p'', same', run⟩ := ih (entered.of_settled same) ((d.since p.requests.length).elim t t.after)
    refine ⟨p'', same'.trans same, ?_⟩
    rw [List.foldl_cons, made, run, Past.length_of_settled same, List.filterMap_cons]
    cases d.since p.requests.length <;> rfl

/-- A late answer to an earlier inquiry is only recorded at the desk. -/
theorem edit_resolve_recorded (entered : p.Entered) (t : Tree) {number : Nat}
    (earlier : number < p.requests.length) (verdict : Verdict) :
    ∃ desk, (t.behind p).edit (.resolve number verdict) = { t.behind p with desk } := by
  rcases t.edit_resolve_earlier p entered earlier verdict with same | closed
  · exact ⟨_, same⟩
  · exact ⟨_, closed⟩

end Tree

namespace Document

/-- Reading a text into any tree that edits, reading and answers of the schema have led to gives
the diagnostics and the tree that the text gives without that history, whatever the host does with
the inquiries that are put to it. The nodes are the same in
all they hold, and so are the names given and the selection; only the revision, the desk and what
hosts were told go on from the past. What is done later has the same effect on both trees, and
answers to the earlier inquiries have none. -/
theorem parse_afresh {host : Option (Inquiry → Reception)} {t : Tree}
    (reached : Tree.Reached (host.map .serving) t) (source : String) (settings : Settings) :
    let again := parse t source settings
    let first := parse (.new (host.map .serving)) source settings
    again.2 = first.2 ∧ again.1 = first.1.behind t.past ∧
      (∀ deeds : List Deed, ∃ p : Past, p.settled = t.past.settled ∧ deeds.foldl Tree.after again.1 =
        ((deeds.filterMap (·.since t.past.requests.length)).foldl Tree.after first.1).behind p) ∧
      ∀ (deeds : List Deed) number verdict, number < t.past.requests.length →
        ∃ desk, (deeds.foldl Tree.after again.1).edit (.resolve number verdict) =
          { deeds.foldl Tree.after again.1 with desk } := by
  intro again first
  have enrolled := (Tree.enrolled_invariant host).of_reached (Tree.enrolled_new host) reached
  have entered := Tree.entered_past enrolled
  have read := parse_of_clear t.past (Tree.clear_eq_behind enrolled) source settings
  have diagnostics : again.2 = first.2 := (congrArg Prod.snd read :)
  have tree : again.1 = first.1.behind t.past := (congrArg Prod.fst read :)
  have later (deeds : List Deed) := Tree.run_behind entered first.1 deeds
  refine ⟨diagnostics, tree, fun deeds => tree ▸ later deeds, ?_⟩
  intro deeds number verdict earlier
  obtain ⟨p, same, run⟩ := later deeds
  rw [tree, run]
  exact Tree.edit_resolve_recorded (entered.of_settled same) _
    (Past.length_of_settled same ▸ earlier) verdict

/-- The default document gets a name, about which the schema is asked, and its root is collapsed.
Then another text is read. Nothing of this is left, and the schema answers too late. -/
theorem parse_afresh_run :
    let edits : List Edit := [.reset, .setAttribute ⟨1⟩ "name" "account", .toggle ⟨0⟩]
    let t := edits.foldl Tree.edit (.new (some (.new none)))
    let text := "<fetch><entity name='contact'/></fetch>"
    let again := (parse t text {}).1
    let first := (parse (.new (some (.new none))) text {}).1
    t.past.requests.map (·.inquiry) = [.table "account"] ∧ t.nodes.map (·.expanded) = [false, true] ∧
      again = first.behind t.past ∧ again.nodes.map (·.value "name") = ["", "contact"] ∧
      ∃ desk, again.edit (.resolve 0 (.rejected "no such table")) = { again with desk } := by
  intro edits t text again first
  have reached : Tree.Reached ((some fun _ => .kept).map Desk.serving) t :=
    .edit (.toggle ⟨0⟩) (.edit (.setAttribute ⟨1⟩ "name" "account") (.edit .reset .new))
  obtain ⟨-, tree, -, late⟩ := parse_afresh reached text {}
  have asked : t.past.requests.map (·.inquiry) = [.table "account"] := by decide +kernel
  have earlier : 0 < t.past.requests.length := by
    rw [← List.length_map (·.inquiry), asked]
    exact Nat.one_pos
  exact ⟨asked, by decide +kernel, tree, by decide +kernel, late [] 0 _ earlier⟩

end Document

end QueryMarkup
