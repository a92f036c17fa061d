import QueryMarkup.Proofs.Document.Recomputed
import QueryMarkup.Proofs.Tree.Filing

/-!
# Replies of the schema

However a document is worked on and in whatever order the schema replies, a node carries
the rejection of the request that was sent when its names last changed, and no other.
-/
namespace QueryMarkup

/-- What may happen to a document. The schema replies by an edit. -/
inductive Deed where
  | edit (edit : Edit)
  | parse (source : String) (settings : Settings)

namespace Deed

/-- The number of a request and the reply to it. -/
def reply? : Deed → Option (Nat × Verdict)
  | .edit (.resolve number verdict) => some (number, verdict)
  | _ => none

/-- All nodes go, and others may come. -/
def Replaces : Deed → Prop
  | .edit .clear | .edit .reset | .parse _ _ => True
  | _ => False

end Deed

/-- The messages of the findings of the schema at a node. -/
def Node.mismatches (n : Node) : List String :=
  (n.validation.value.filter (·.kind = .schemaMismatch)).map (·.message)

namespace Tree

def after (t : Tree) : Deed → Tree
  | .edit e => t.edit e
  | .parse source settings => (Document.parse t source settings).1

/-- The request that a check sent when a step changed its names. There is none if one of
the names was left empty. -/
def sentBy (t t' : Tree) (check : Nat) : Option Nat :=
  if ((t'.watched? check).bind Inquiry.about?).isSome then
    t'.records.sentSince t.records.requests.length check
  else none

end Tree

/-- A document, and what is known to somebody who sees its names, the requests and the replies. -/
@[ext] structure Ledger where
  tree : Tree
  /-- The request that a check sent when its names last changed, if it sent one. -/
  sent : Nat → Option Nat
  /-- The first reply to a request. -/
  replies : Nat → Option Verdict

namespace Ledger

/-- A schema is there, but it never answers at once. -/
def new : Ledger := ⟨.new (some (.new none)), fun _ => none, fun _ => none⟩

def note (l : Ledger) (d : Deed) : Ledger where
  tree := l.tree.after d
  sent check :=
    if (l.tree.after d).watched? check = l.tree.watched? check then l.sent check
    else l.tree.sentBy (l.tree.after d) check
  replies number := (l.replies number).or <|
    (d.reply?.filter fun reply =>
      reply.1 = number ∧ number < l.tree.records.requests.length).map (·.2)

/-- The ledger after deeds, the earliest first. -/
def run (deeds : List Deed) : Ledger := deeds.foldl note new

/-- The message of the reply that counts for a check, if it is a rejection. -/
def rejection? (l : Ledger) (check : Nat) : Option String :=
  ((l.sent check).bind l.replies).bind Verdict.message?

end Ledger

/-! ## What a node carries -/

theorem Rule.kind_ne_schemaMismatch (rule : Rule) (scope : Scope) :
    ∀ i ∈ rule.issues scope, i.kind ≠ .schemaMismatch := by
  cases rule <;> simp only [issues] <;> split <;> simp

theorem Attribute.kind_ne_schemaMismatch (kind : Kind) (name value : String) :
    ∀ i ∈ issuesAnew kind name value, i.kind ≠ .schemaMismatch := by
  unfold issuesAnew
  split
  · unfold ValueKind.issues
    split <;> simp
  · unfold undeclaredIssue
    split <;> simp

/-- Only the schema finds that a name is not in it. -/
theorem Node.mismatches_eq {n : Node} {aggregate : String} (settled : n.Settled) (fitted : n.Fitted)
    (fresh : n.FreshBut ⟨0⟩ "" [] aggregate) : n.mismatches = n.rejection?.toList := by
  have rules : (n.rules.flatMap (·.outcome.issues)).filter (·.kind = .schemaMismatch) = [] := by
    rw [Node.ruleIssues_eq fitted fresh, List.filter_eq_nil_iff]
    intro i hi
    obtain ⟨rule, -, hi⟩ := List.mem_flatMap.mp hi
    simpa using rule.kind_ne_schemaMismatch _ i hi
  have attributes : (n.attributes.flatMap (·.issues)).filter (·.kind = .schemaMismatch) = [] := by
    rw [Node.attributeIssues_eq fresh, List.filter_eq_nil_iff]
    intro i hi
    obtain ⟨name, -, hi⟩ := List.mem_flatMap.mp hi
    simpa using Attribute.kind_ne_schemaMismatch n.kind name _ i hi
  rw [mismatches, settled.validation, issuesNow, List.filter_append, List.filter_append, rules,
    attributes, rejection?]
  cases n.schema with
  | none => rfl
  | some check => cases rejected : check.rejection <;> simp [SchemaCheck.issues, rejected]

namespace Tree

section
variable {s t t' : Tree}

/-! ## One deed -/

theorem still_setSpan (t : Tree) (id : NodeId) (span : Option Text.Range) :
    Still t (t.setSpan id span) :=
  (keeps_alter t id (fun n => { n with span }) fun _ => rfl).still rfl

theorem still_setAttributeSpan (t : Tree) (id : NodeId) (name : String) (span : Option Text.Range) :
    Still t (t.setAttributeSpan id name span) :=
  (keeps_alter t id (fun n => n.alterAttribute name fun a => { a with span }) fun _ => rfl).still rfl

theorem rebuilt_readable (s : Tree) : Readable (Rebuilt s) where
  edited t e other h := by
    have follows := edit_follows h.filed e other
    exact h.next (h.filed.next (t.edit_changes e) follows) follows
  setSpan t id span h := h.still (sound_invariant.setSpan t id span h.filed.sound) (still_setSpan t id span)
  setAttributeSpan t id name span h :=
    h.still (sound_invariant.setAttributeSpan t id name span h.filed.sound)
      (still_setAttributeSpan t id name span)

theorem rebuilt_parse (h : t.Filed) (source : String) (settings : Settings) :
    Rebuilt t (Document.parse t source settings).1 :=
  (rebuilt_readable t).parse source settings (rebuilt_clear h)

/-- A deed is a step in which no inquiry is answered, or a reply, which may be refused. -/
theorem after_cases (h : t.Filed) (d : Deed) :
    (d.reply? = none ∧ Follows t (t.after d) ∧ (t.after d).Filed) ∨
    ∃ number verdict, d = .edit (.resolve number verdict) ∧
      ((t.resolve number verdict = none ∧ t.after d = t) ∨
        ∃ late, t.resolve number verdict = some (t.after d, late)) := by
  cases d with
  | edit e =>
    by_cases reply : ∃ number verdict, e = .resolve number verdict
    · obtain ⟨number, verdict, rfl⟩ := reply
      refine .inr ⟨number, verdict, rfl, ?_⟩
      simp only [after, Tree.edit, perform]
      cases t.resolve number verdict with
      | none => exact .inl ⟨rfl, rfl⟩
      | some made => exact .inr ⟨made.2, rfl⟩
    · have other (number : Nat) (verdict : Verdict) : e ≠ .resolve number verdict :=
        fun same => reply ⟨number, verdict, same⟩
      have follows := edit_follows h e other
      refine .inl ⟨?_, follows, h.next (t.edit_changes e) follows⟩
      unfold Deed.reply?
      split
      · rename_i same
        exact absurd (Deed.edit.inj same) (other _ _)
      · rfl
  | parse source settings =>
    have rebuilt := rebuilt_parse h source settings
    exact .inl ⟨rfl, rebuilt.follows, rebuilt.filed⟩

/-- A request keeps its number and its check. -/
theorem after_found (h : t.Filed) (d : Deed) {number : Nat} {request : Request}
    (found : t.records.requests[number]? = some request) :
    ∃ r, (t.after d).records.requests[number]? = some r ∧ r.check = request.check := by
  rcases after_cases h d with ⟨-, follows, -⟩ | ⟨k, verdict, -, ⟨-, same⟩ | ⟨late, e⟩⟩
  · exact ⟨request, follows.grows.found found, rfl⟩
  · exact ⟨request, by rw [same, found], rfl⟩
  · rw [(resolve_answered h e).records, Desk.getElem?_close, found]
    exact ⟨_, rfl, by split <;> rfl⟩

/-- No check outlives its document. -/
theorem after_rebuilt (h : t.Filed) {d : Deed} (replaces : d.Replaces) : Rebuilt t (t.after d) := by
  cases d with
  | edit e =>
    cases e with
    | clear => exact rebuilt_clear h
    | reset => exact rebuilt_reset h
    | _ => exact replaces.elim
  | parse source settings => exact rebuilt_parse h source settings

end

end Tree

namespace Ledger

/-- What was noted of a check is what it goes by. -/
structure AccurateAt (l : Ledger) (x : Docket) : Prop where
  sent : ∀ {number},
    l.sent x.check = some number ↔ ∃ request, l.tree.records.Stands x.check number request
  rejection : l.tree.rejectionAt x.owner = l.rejection? x.check

/-- What was noted is what the tree goes by. -/
structure Accurate (l : Ledger) : Prop where
  filed : l.tree.Filed
  checks : ∀ {x}, x ∈ l.tree.dockets → l.AccurateAt x
  replies : ∀ {number request}, l.tree.records.requests[number]? = some request →
    (request.isOpen = true ↔ l.replies number = none)
  unknown : ∀ {number}, l.tree.records.requests.length ≤ number → l.replies number = none

/-- A request to which a reply no longer counts. -/
def Passed (l : Ledger) (number : Nat) : Prop :=
  ∃ request, l.tree.records.requests[number]? = some request ∧
    (l.sent request.check ≠ some number ∨ l.tree.watched? request.check = none)

section
variable {l : Ledger} {d : Deed}

theorem run_of_step {P : Ledger → Prop} (start : P new) (step : ∀ l d, P l → P (l.note d))
    (deeds : List Deed) : P (run deeds) := by
  unfold run
  exact List.foldlRecOn deeds note start fun l h d _ => step l d h

theorem reached_run (deeds : List Deed) : Tree.Reached (some (.new none)) (run deeds).tree := by
  refine run_of_step (P := fun l => Tree.Reached (some (.new none)) l.tree) .new (fun l d h => ?_) deeds
  cases d with
  | edit e => exact .edit e h
  | parse source settings => exact .parse source settings h

theorem accurate_new : new.Accurate where
  filed := Tree.filed_new
  checks hx := absurd hx List.not_mem_nil
  replies found := by cases found
  unknown _ := rfl

/-- A request that was sent in a step is a new one. -/
theorem le_of_sentBy {t t' : Tree} {check number : Nat} (sent : t.sentBy t' check = some number) :
    t.records.requests.length ≤ number := by
  unfold Tree.sentBy at sent
  split at sent
  · exact Desk.le_of_sentSince sent
  · cases sent

/-! ## Deeds that are no replies -/

theorem note_replies (silent : d.reply? = none) : (l.note d).replies = l.replies := by
  funext number
  simp [note, silent]

/-- A check that is there as before goes by what was noted before. -/
theorem Accurate.kept (h : l.Accurate) (silent : d.reply? = none)
    (follows : Tree.Follows l.tree (l.note d).tree) {x : Docket} (there : x ∈ l.tree.dockets)
    (same : (l.note d).tree.watched? x.check = l.tree.watched? x.check)
    (rejection : (l.note d).tree.rejectionAt x.owner = l.tree.rejectionAt x.owner)
    (quiet : Desk.Quiet x.check l.tree.records (l.note d).tree.records) : (l.note d).AccurateAt x := by
  have sent : (l.note d).sent x.check = l.sent x.check := if_pos same
  refine ⟨fun {number} => ?_, ?_⟩
  · rw [sent, (h.checks there).sent]
    exact exists_congr fun request => (quiet.stands_iff follows.grows).symm
  · rw [rejection, (h.checks there).rejection, Ledger.rejection?, rejection?, sent, note_replies silent]

/-- A check whose names have changed awaits the reply to the request that it has sent. -/
theorem Accurate.renamed (h : l.Accurate) (silent : d.reply? = none)
    (follows : Tree.Follows l.tree (l.note d).tree) {x : Docket}
    (now : (l.note d).tree.watched? x.check = some ((l.note d).tree.names x))
    (changed : (l.note d).tree.watched? x.check ≠ l.tree.watched? x.check)
    (inOrder : (l.note d).tree.InOrder x)
    (new : ∀ {number request}, (l.note d).tree.records.Stands x.check number request →
      l.tree.records.requests.length ≤ number) : (l.note d).AccurateAt x := by
  have sent : (l.note d).sent x.check = l.tree.sentBy (l.note d).tree x.check := if_neg changed
  have unanswered : (l.note d).rejection? x.check = none := by
    rw [Ledger.rejection?, sent, note_replies silent]
    cases sent : l.tree.sentBy (l.note d).tree x.check with
    | none => rfl
    | some number => rw [Option.bind_some, h.unknown (le_of_sentBy sent), Option.bind_none]
  refine ⟨fun {number} => ?_, ?_⟩
  · rw [sent, Tree.sentBy, now, Option.bind_some]
    constructor
    · intro given
      split at given
      · rename_i asked
        obtain ⟨number', request, stands⟩ := inOrder.asked (Option.isSome_iff_ne_none.mp asked)
        rw [follows.staffed.orderly.sentSince_eq stands (new stands), Option.some.injEq] at given
        exact given ▸ ⟨request, stands⟩
      · cases given
    · rintro ⟨request, stands⟩
      rw [inOrder.current stands, if_pos (Option.isSome_some)]
      exact follows.staffed.orderly.sentSince_eq stands (new stands)
  · rw [unanswered]
    by_contra held
    obtain ⟨number, request, stands, closed⟩ := inOrder.answered held
    have opened := follows.grows.isOpen stands.found (new stands)
    rw [closed] at opened
    cases opened

theorem Accurate.note_silent (h : l.Accurate) (silent : d.reply? = none)
    (follows : Tree.Follows l.tree (l.note d).tree) (filed : (l.note d).tree.Filed) :
    (l.note d).Accurate := by
  refine ⟨filed, fun {x} hx => ?_, fun {number request} found => ?_, fun {number} beyond => ?_⟩
  · have now := filed.posted.watched?_eq hx
    cases follows.fates hx with
    | kept there names rejection quiet =>
      have before := h.filed.posted.watched?_eq there
      exact h.kept silent follows there (now.trans (names ▸ before.symm)) rejection quiet
    | renamed there changed drawn inOrder =>
      have before := h.filed.posted.watched?_eq there
      refine h.renamed silent follows now (fun same => changed ?_) inOrder fun stands => ?_
      · exact Option.some.inj (now.symm.trans (same.trans before))
      · exact h.filed.staffed.orderly.new_of_stands follows.grows drawn stands
    | entered later inOrder =>
      have before : l.tree.watched? x.check = none := by
        refine Tree.watched?_eq_none.mpr fun y hy same => ?_
        have entered := h.filed.posted.entered hy
        omega
      refine h.renamed silent follows now (fun same => ?_) inOrder fun stands => ?_
      · cases now.symm.trans (same.trans before)
      · exact h.filed.staffed.orderly.new_of_unknown follows.grows stands.found (stands.asker ▸ later)
  · rw [note_replies silent]
    by_cases old : number < l.tree.records.requests.length
    · exact h.replies (follows.grows.old found old)
    · have beyond := Nat.le_of_not_lt old
      exact iff_of_true (follows.grows.isOpen found beyond) (h.unknown beyond)
  · rw [note_replies silent]
    exact h.unknown (Nat.le_trans follows.grows.length beyond)

/-! ## Replies -/

theorem note_resolve_replies (l : Ledger) (number : Nat) (verdict : Verdict) (k : Nat) :
    (l.note (.edit (.resolve number verdict))).replies k = (l.replies k).or
      (if number = k ∧ k < l.tree.records.requests.length then some verdict else none) := by
  simp only [note, Deed.reply?, Option.filter_some, decide_eq_true_eq]
  split <;> rfl

/-- A second reply to a request is not heard. -/
theorem Accurate.note_refused (h : l.Accurate) {number : Nat} {verdict : Verdict}
    (e : l.tree.resolve number verdict = none)
    (tree : l.tree.after (.edit (.resolve number verdict)) = l.tree) :
    l.note (.edit (.resolve number verdict)) = l := by
  have unopened := Tree.openRequest?_of_resolve h.filed.staffed e
  refine Ledger.ext tree (funext fun check => ?_) (funext fun k => ?_)
  · exact if_pos (by rw [tree])
  · rw [note_resolve_replies]
    split
    · rename_i given
      obtain ⟨rfl, bound⟩ := given
      have found := List.getElem?_eq_getElem bound
      rw [Desk.openRequest?, found, Option.filter_eq_none_iff] at unopened
      have answered : l.replies number ≠ none := fun none =>
        unopened _ rfl ((h.replies found).mpr none)
      obtain ⟨first, given⟩ := Option.ne_none_iff_exists'.mp answered
      rw [given, Option.some_or]
    · exact Option.or_none

/-- The first reply to a request counts if the request stands. -/
theorem Accurate.note_answered (h : l.Accurate) {number : Nat} {verdict : Verdict} {late : Bool}
    (e : l.tree.resolve number verdict =
      some ((l.note (.edit (.resolve number verdict))).tree, late)) :
    (l.note (.edit (.resolve number verdict))).Accurate := by
  have answered := Tree.resolve_answered h.filed e
  have filed := answered.filed h.filed (.resolve e)
  obtain ⟨desk, request, found, opened, -⟩ := Tree.resolve_eq_some e
  have records : desk = l.tree.records := by rw [Tree.records, found]; rfl
  subst records
  obtain ⟨there, isOpen⟩ := Option.filter_eq_some_iff.mp opened
  have bound := (List.getElem?_eq_some_iff.mp there).1
  have sent : (l.note (.edit (.resolve number verdict))).sent = l.sent := by
    funext check
    have names := answered.names
    have dockets := answered.dockets
    exact if_pos (by rw [Tree.watched?, Tree.watched?, ← dockets, ← names]; rfl)
  have replied : (l.note (.edit (.resolve number verdict))).replies number = some verdict := by
    rw [note_resolve_replies, (h.replies there).mp isOpen, Option.none_or, if_pos ⟨rfl, bound⟩]
  have others {k : Nat} (apart : number ≠ k) :
      (l.note (.edit (.resolve number verdict))).replies k = l.replies k := by
    rw [note_resolve_replies, if_neg fun both => apart both.1, Option.or_none]
  generalize l.note (.edit (.resolve number verdict)) = l' at answered filed sent replied others ⊢
  have records := answered.records
  have dockets := answered.dockets
  refine ⟨filed, fun {x} hx => ⟨fun {k} => ?_, ?_⟩, fun {k r} found => ?_, fun {k} beyond => ?_⟩
  · rw [dockets] at hx
    rw [sent, (h.checks hx).sent, records]
    constructor
    · rintro ⟨r, stands⟩
      exact ⟨_, Desk.stands_close.mpr ⟨r, stands, rfl⟩⟩
    · rintro ⟨_, stands⟩
      obtain ⟨r, stands, -⟩ := Desk.stands_close.mp stands
      exact ⟨r, stands⟩
  · rw [dockets] at hx
    rw [rejection?, sent]
    by_cases stands : ∃ request, l.tree.records.Stands x.check number request
    · obtain ⟨r, stood⟩ := stands
      rw [answered.stood hx stood, (h.checks hx).sent.mpr ⟨r, stood⟩, Option.bind_some, replied,
        Option.bind_some]
    · rw [answered.others hx (not_exists.mp stands), (h.checks hx).rejection, rejection?]
      cases latest : l.sent x.check with
      | none => rfl
      | some k =>
        have apart : number ≠ k := fun same => stands ((h.checks hx).sent.mp (same ▸ latest))
        rw [Option.bind_some, Option.bind_some, others apart]
  · rw [records, Desk.getElem?_close, Option.map_eq_some_iff] at found
    obtain ⟨r, there, rfl⟩ := found
    by_cases mine : number = k
    · subst mine
      simp [replied]
    · rw [if_neg mine, others mine, h.replies there]
  · rw [records, Desk.length_requests_close] at beyond
    rw [others (by omega), h.unknown beyond]

theorem Accurate.note (h : l.Accurate) (d : Deed) : (l.note d).Accurate := by
  rcases Tree.after_cases h.filed d with
    ⟨silent, follows, filed⟩ | ⟨number, verdict, rfl, ⟨e, same⟩ | ⟨late, e⟩⟩
  · exact h.note_silent silent follows filed
  · rw [h.note_refused e same]
    exact h
  · exact h.note_answered e

theorem accurate_run (deeds : List Deed) : (run deeds).Accurate :=
  run_of_step accurate_new (fun _ d h => h.note d) deeds

/-! ## Replies that come too late -/

/-- A reply that counts for no check that is there changes no node. -/
theorem Accurate.idle (h : l.Accurate) {number : Nat}
    (none : ∀ x ∈ l.tree.dockets, l.sent x.check ≠ some number) (verdict : Verdict) :
    (l.tree.edit (.resolve number verdict)).nodes = l.tree.nodes := by
  simp only [Tree.edit, Tree.perform]
  cases e : l.tree.resolve number verdict with
  | none => rfl
  | some made =>
    refine (Tree.resolve_answered h.filed e).idle fun x hx request stands => ?_
    exact none x hx ((h.checks hx).sent.mpr ⟨request, stands⟩)

/-- Once the names of its check have changed, a request is not the one that counts. -/
theorem sent_ne {number : Nat} {request : Request}
    (found : l.tree.records.requests[number]? = some request)
    (changed : (l.note d).tree.watched? request.check ≠ l.tree.watched? request.check) :
    (l.note d).sent request.check ≠ some number := by
  have sent : (l.note d).sent request.check = l.tree.sentBy (l.note d).tree request.check :=
    if_neg changed
  intro same
  have new := le_of_sentBy (sent.symm.trans same)
  have old := (List.getElem?_eq_some_iff.mp found).1
  omega

/-- A reply no longer counts once the names have changed, the node is gone or the whole
document is. -/
theorem Accurate.passed (h : l.Accurate) {number : Nat} {request : Request}
    (found : l.tree.records.requests[number]? = some request)
    (past : (l.note d).tree.watched? request.check ≠ l.tree.watched? request.check ∨
      (l.note d).tree.watched? request.check = none ∨ d.Replaces) : (l.note d).Passed number := by
  obtain ⟨r, there, same⟩ := Tree.after_found h.filed d found
  refine ⟨r, there, ?_⟩
  rw [same]
  rcases past with changed | gone | replaces
  · exact .inl (sent_ne found changed)
  · exact .inr gone
  · have entered := h.filed.staffed.orderly.entered request (List.mem_of_getElem? found)
    refine .inr (Tree.watched?_eq_none.mpr fun x hx mine => ?_)
    have later := (Tree.after_rebuilt h.filed replaces).entered hx
    omega

/-- What no longer counts never counts again, even if the names are what they were. -/
theorem Passed.note {number : Nat} (passed : l.Passed number) (h : l.Accurate) (d : Deed) :
    (l.note d).Passed number := by
  obtain ⟨request, found, gone⟩ := passed
  by_cases same : (l.note d).tree.watched? request.check = l.tree.watched? request.check
  · obtain ⟨r, there, check⟩ := Tree.after_found h.filed d found
    have sent : (l.note d).sent request.check = l.sent request.check := if_pos same
    refine ⟨r, there, ?_⟩
    rw [check, same, sent]
    exact gone
  · exact h.passed found (.inl same)

theorem Passed.foldl {number : Nat} (passed : l.Passed number) (h : l.Accurate) (deeds : List Deed) :
    (deeds.foldl Ledger.note l).Passed number := by
  induction deeds generalizing l with
  | nil => exact passed
  | cons d deeds ih => exact ih (passed.note h d) (h.note d)

theorem Passed.idle {number : Nat} (passed : l.Passed number) (h : l.Accurate) (verdict : Verdict) :
    (l.tree.edit (.resolve number verdict)).nodes = l.tree.nodes := by
  obtain ⟨request, found, gone⟩ := passed
  refine h.idle (fun x hx latest => ?_) verdict
  obtain ⟨r, stands⟩ := (h.checks hx).sent.mp latest
  obtain rfl : r = request := Option.some.inj (stands.found.symm.trans found)
  rw [stands.asker, h.filed.posted.watched?_eq hx] at gone
  rcases gone with other | never
  · exact other latest
  · cases never

/-! ## What counts -/

/-- The request that counts asks about the names as they are now. -/
theorem Accurate.inquiry (h : l.Accurate) {x : Docket} (hx : x ∈ l.tree.dockets) :
    Inquiry.about? (l.tree.names x) =
      (l.sent x.check).bind fun number => l.tree.records.requests[number]?.map (·.inquiry) := by
  have inOrder := h.filed.inOrder hx
  cases sent : l.sent x.check with
  | some number =>
    obtain ⟨request, stands⟩ := (h.checks hx).sent.mp sent
    rw [Option.bind_some, stands.found, Option.map_some, inOrder.current stands]
  | none =>
    by_contra asks
    obtain ⟨number, request, stands⟩ := inOrder.asked asks
    rw [(h.checks hx).sent.mpr ⟨request, stands⟩] at sent
    cases sent

/-- However a document is worked on, and whether and in which order the schema replies: a
node with a schema check carries the rejection of the request that was sent when its names
last changed, and nothing else from the schema; that request asks about the names as they
are, and so does any request that is neither answered nor stale. No other reply changes a
node, and none to a request whose names have changed since, whose node is gone or whose
document has been replaced. -/
theorem replies_count (deeds : List Deed) :
    let l := run deeds
    (∀ n ∈ l.tree.nodes, ∀ x, n.docket? = some x →
      n.mismatches = (l.rejection? x.check).toList ∧
      Inquiry.about? (l.tree.names x) =
        (l.sent x.check).bind (fun number => l.tree.records.requests[number]?.map (·.inquiry)) ∧
      ∀ request ∈ l.tree.records.requests, request.check = x.check → request.isOpen = true →
        l.tree.records.isStale request = false →
        Inquiry.about? (l.tree.names x) = some request.inquiry) ∧
    (∀ number, (∀ x ∈ l.tree.dockets, l.sent x.check ≠ some number) → ∀ verdict,
      (l.tree.edit (.resolve number verdict)).nodes = l.tree.nodes) ∧
    ∀ before d later, deeds = before ++ d :: later → ∀ number request,
      (run before).tree.records.requests[number]? = some request →
      ((run (before ++ [d])).tree.watched? request.check ≠ (run before).tree.watched? request.check ∨
        (run (before ++ [d])).tree.watched? request.check = none ∨ d.Replaces) → ∀ verdict,
      (l.tree.edit (.resolve number verdict)).nodes = l.tree.nodes := by
  intro l
  have accurate : l.Accurate := accurate_run deeds
  have current := (reached_run deeds).current
  refine ⟨fun n hn x docket => ?_, fun number none verdict => accurate.idle none verdict, ?_⟩
  · have hx : x ∈ l.tree.dockets := Tree.mem_dockets.mpr ⟨n, hn, docket⟩
    have carried : l.tree.rejectionAt x.owner = n.rejection? := by
      rw [Tree.owner_docket? docket, Tree.rejectionAt, Tree.node?_of_mem accurate.filed.sound.nodup hn,
        Option.bind_some]
    refine ⟨?_, accurate.inquiry hx, fun request hr asker _ fresh => ?_⟩
    · rw [Node.mismatches_eq (current.settled n hn) (current.fitted n hn) (current.fresh n hn),
        ← carried, (accurate.checks hx).rejection]
    · obtain ⟨number, found⟩ := List.getElem?_of_mem hr
      have latest := Desk.isStale_eq_false.mp fresh
      exact (accurate.filed.inOrder hx).current ⟨found, asker, asker ▸ latest⟩
  · rintro before d later split number request found past verdict
    have early := accurate_run before
    rw [run, List.foldl_append] at past
    have passed := (early.passed found past).foldl (early.note d) later
    have whole : l = later.foldl Ledger.note ((run before).note d) := by
      simp only [l, run, split, List.foldl_append, List.foldl_cons]
    rw [← whole] at passed
    exact passed.idle accurate verdict

/-- A table is renamed and renamed back. The reply about its second use of the first name
counts, the one about the first use does not. -/
theorem replies_count_run :
    let rename (name : String) : Deed := .edit (.setAttribute ⟨1⟩ "name" name)
    let first : List Deed := [.edit .reset, rename "account"]
    let later : List Deed := [rename "account", .edit (.resolve 2 (.rejected "no such table"))]
    let l := run (first ++ rename "contact" :: later)
    (∃ n ∈ l.tree.nodes, n.value "name" = "account" ∧ n.mismatches = ["no such table"]) ∧
      (l.tree.edit (.resolve 0 .accepted)).nodes = l.tree.nodes := by
  intro rename first later l
  obtain ⟨carries, -, idle⟩ := replies_count (first ++ rename "contact" :: later)
  obtain ⟨n, found⟩ : ∃ n, l.tree.node? ⟨1⟩ = some n :=
    Option.isSome_iff_exists.mp (by decide +kernel)
  have shown : (l.tree.node? ⟨1⟩).map (fun n => (n.docket?, n.value "name")) =
      some (some ⟨⟨1⟩, 0, [(⟨1⟩, "name")]⟩, "account") := by decide +kernel
  rw [found, Option.map_some, Option.some.injEq, Prod.mk.injEq] at shown
  have hn := (Tree.node?_eq_some found).1
  have message : l.rejection? 0 = some "no such table" := by decide +kernel
  refine ⟨⟨n, hn, shown.2, ?_⟩, ?_⟩
  · rw [(carries n hn _ shown.1).1]
    exact congrArg Option.toList message
  · refine idle first (rename "contact") later rfl 0 ⟨.table "account", 0, 2, true⟩ ?_ (.inl ?_) _
    · decide +kernel
    · decide +kernel

end

end Ledger

end QueryMarkup
