import QueryMarkup.Proofs.Document.Refusals
import QueryMarkup.Proofs.Document.Settling

/-!
# Any tokens can be read

Tokens of any kinds, in any order, with any ranges of any text, lead to a tree of the elements that
can be placed. Of the others each is reported or is in one that is reported. What is open and what
is staged is the same for the builder as it is for the elements, and every token keeps this.
-/
namespace QueryMarkup

/-! ## Where tokens lead to -/

/-- The node of an element, if that is placed. -/
def nodeOf (fs : List Fate) (k : Nat) : Option NodeId :=
  if fs[k]? = some .placed then some ⟨rank fs k⟩ else none

/-- The reports about these elements, each about one of them. -/
def due (limit : Nat) (elements : List Element) : List Diagnostic :=
  (elements.zip (fates limit elements)).filterMap fun x => x.2.report? limit x.1.start

/-- The tree holds the elements so far, those open are open for the builder, and what is due was
reported. -/
structure Builds (limit : Nat) (g : Gathered) (b : Builder) (t : Tree) : Prop where
  laid : g.Laid
  holds : Holds limit g t
  limited : b.limit = limit
  opened : b.stack.map (·.node) = g.stack.map (nodeOf (fates limit g.elements))
  root : b.sawRoot = true ↔ .placed ∈ fates limit g.elements
  reported : refusals b.diagnostics = due limit g.elements

/-- Nothing that tokens lead to is different from what is expected of them. -/
structure Tracks (limit : Nat) (g : Gathered) (b : Builder) (t : Tree) : Prop
    extends Builds limit g b t where
  phase : b.phase = g.phase
  inTag : b.tagOpen.isSome = g.inTag
  staged : b.staged = g.staged

theorem nodeOf_append {fs : List Fate} {k : Nat} (here : k < fs.length) (f : Fate) :
    nodeOf (fs ++ [f]) k = nodeOf fs k := by
  rw [nodeOf, nodeOf, List.getElem?_append_left here, rank_append here.le]

theorem nodeOf_last (fs : List Fate) (f : Fate) :
    nodeOf (fs ++ [f]) fs.length = if f = .placed then some ⟨fs.count .placed⟩ else none := by
  rw [nodeOf, rank_append (Nat.le_refl _), rank_length, List.getElem?_append_right (Nat.le_refl _),
    Nat.sub_self]
  simp

theorem due_append (limit : Nat) (elements : List Element) (e : Element) :
    due limit (elements ++ [e]) = due limit elements ++
      (Fate.of limit (fates limit elements) e |>.report? limit e.start).toList := by
  rw [due, fates_append, List.zip_append (length_fates limit elements).symm, List.filterMap_append]
  refine congrArg (due limit elements ++ ·) ?_
  rw [List.zip_cons_cons, List.zip_nil_left, List.filterMap_cons]
  cases (Fate.of limit (fates limit elements) e).report? limit e.start <;> rfl

section
variable {limit : Nat} {g : Gathered} {b : Builder} {t : Tree}

theorem tracks_clear (t : Tree) (limit : Nat) : Tracks limit {} { limit } t.clear where
  laid := Gathered.laid_nil
  holds := holds_empty limit (Tree.clear_sound t) t.nodes_clear (Tree.issued_setSelection _ _)
  limited := rfl
  opened := rfl
  root := by simp [fates]
  reported := rfl
  phase := rfl
  inTag := rfl
  staged := rfl

namespace Builds

/-- Of what belongs to no element only what is open and what was reported matters. -/
theorem restate (h : Builds limit g b t) {g' : Gathered} {b' : Builder} {t' : Tree} (laid : g'.Laid)
    (holds : Holds limit g' t') (elements : g'.elements = g.elements)
    (opened : b'.stack.map (·.node) = g'.stack.map (nodeOf (fates limit g.elements)))
    (kept : b'.limit = b.limit ∧ b'.sawRoot = b.sawRoot)
    (reported : refusals b'.diagnostics = refusals b.diagnostics) : Builds limit g' b' t' where
  laid := laid
  holds := holds
  limited := kept.1.trans h.limited
  opened := elements ▸ opened
  root := by
    rw [kept.2, elements]
    exact h.root
  reported := by
    rw [reported, elements]
    exact h.reported

theorem congr (h : Builds limit g b t) {g' : Gathered} {b' : Builder} (elements : g'.elements = g.elements)
    (stack : g'.stack = g.stack) (texts : g'.texts = g.texts) (opened : b'.stack = b.stack)
    (kept : b'.limit = b.limit ∧ b'.sawRoot = b.sawRoot)
    (reported : refusals b'.diagnostics = refusals b.diagnostics) : Builds limit g' b' t :=
  h.restate (h.laid.congr elements stack texts) (h.holds.congr elements texts) elements
    (by rw [opened, stack]; exact h.opened) kept reported

theorem report (h : Builds limit g b t) {kind : DiagnosticKind} (mild : kind ∉ refusing) (span : Text.Range)
    (detail : Option String) : Builds limit g (b.report kind span detail) t :=
  h.congr rfl rfl rfl rfl ⟨rfl, rfl⟩ (b.refusals_report mild span detail)

/-- Where an element is open, the innermost for the builder is the innermost of these. -/
theorem top (h : Builds limit g b t) {k : Nat} {rest : List Nat} (stack : g.stack = k :: rest) :
    ∃ o below e, b.stack = o :: below ∧ below.length = rest.length ∧
      o.node = nodeOf (fates limit g.elements) k ∧ g.elements[k]? = some e ∧ e.depth = rest.length := by
  have opened := h.opened
  have opens := h.laid.opens
  rw [stack] at opened opens
  obtain ⟨o, below, top, node, others⟩ := List.map_eq_cons_iff.mp opened
  obtain ⟨⟨e, here, -, depth⟩, -⟩ := opens
  have length := congrArg List.length others
  rw [List.length_map, List.length_map] at length
  exact ⟨o, below, e, top, length, node, here, depth⟩

theorem stack_eq_nil (h : Builds limit g b t) (stack : g.stack = []) : b.stack = [] :=
  List.map_eq_nil_iff.mp (h.opened.trans (stack ▸ rfl))

/-! ## A start tag -/

/-- An element is refused as its fate says. -/
theorem refusal (h : Builds limit g b t) (start : StagedElement) : b.refusal start =
    if g.fate limit start = .placed then none else some ((g.fate limit start).finding? limit start) := by
  have root := h.root
  unfold Builder.refusal
  rw [h.limited]
  unfold Gathered.fate Fate.of Gathered.made Fate.finding?
  cases stack : g.stack with
  | nil =>
    rw [h.stack_eq_nil stack]
    simp only [List.head?_nil, Option.any_none, Bool.false_eq_true, ↓reduceIte, List.length_nil,
      List.isEmpty_nil, Bool.true_and, true_and, root]
    split
    · rfl
    · split <;> rfl
  | cons k rest =>
    obtain ⟨o, below, -, top, depth, node, -⟩ := h.top stack
    rw [top]
    obtain ⟨node?, tag, span⟩ := o
    obtain rfl : node? = nodeOf (fates limit g.elements) k := node
    unfold nodeOf
    by_cases placed : (fates limit g.elements)[k]? = some .placed
    · simp only [List.head?_cons, Option.any_some, placed, bne_self_eq_false,
        Bool.false_eq_true, ↓reduceIte, List.length_cons, depth, List.isEmpty_cons, Bool.false_and,
        reduceCtorEq, false_and]
      split <;> rfl
    · simp [placed]

/-- The tree takes an element in that can be placed. -/
theorem addParsed (h : Builds limit g b t) {start : StagedElement} (placed : g.fate limit start = .placed)
    (kind : Kind) (tag : String) :
    ∃ t1 l r, t.addParsed kind tag (b.stack.head?.bind (·.node)) = .ok (t1, ⟨t.issued⟩) ∧
      t.entries = l ++ r ∧ t1.issued = t.issued + 1 ∧
      t1.entries = l ++ ⟨⟨t.issued⟩, kind, tag, g.stack.length,
        g.stack.head?.map fun j => ⟨rank (fates limit g.elements) j⟩, [], fun _ => ""⟩ :: r := by
  obtain ⟨around, -, first⟩ := Fate.of_eq_placed_iff.mp placed
  cases stack : g.stack with
  | nil =>
    rw [h.stack_eq_nil stack]
    have rootless : Fate.placed ∉ fates limit g.elements := first (by rw [Gathered.made, stack]; rfl)
    have empty : t.nodes = [] := by
      rw [← List.length_eq_zero_iff, h.holds.size, List.count_eq_zero.mpr rootless]
    obtain ⟨t1, added, entries, issued⟩ := Tree.addParsed_root kind tag none empty
    exact ⟨t1, [], [], added, by simp [Tree.entries, empty], issued, entries⟩
  | cons k rest =>
    obtain ⟨o, below, e, top, -, node, here, depth⟩ := h.top stack
    have inside : (fates limit g.elements)[k]? = some .placed :=
      around k (by rw [Gathered.made, stack]; rfl)
    obtain ⟨n, hn, id, level, -⟩ := h.holds.exists_node here inside
    obtain ⟨before, after, split⟩ := List.append_of_mem hn
    obtain ⟨t1, added, entries, issued⟩ := Tree.addParsed_child kind tag split h.holds.sound.nodup
    have parent : b.stack.head?.bind (·.node) = some n.id := by
      rw [top, id]
      exact node.trans (if_pos inside)
    rw [id, level, depth] at entries
    refine ⟨t1, _, (after.dropWhile (Tree.passes (rest.length + 1) kind.rank)).map Node.entry,
      parent ▸ added, ?_, issued, entries⟩
    rw [← List.map_append, List.append_assoc, List.cons_append, List.takeWhile_append_dropWhile, ← split]
    rfl

/-- What one more element leaves, given what it does to the tree. -/
theorem enter (h : Builds limit g b t) {start : StagedElement} {selfClosing : Bool} {b' : Builder}
    {t' : Tree} {o : OpenElement} {root : Bool} (holds : Holds limit (g.enter start selfClosing) t')
    (node : o.node = if g.fate limit start = .placed then some ⟨t.issued⟩ else none)
    (saw : root = (b.sawRoot || decide (g.fate limit start = .placed)))
    (silent : b'.silent = ({ b with sawRoot := root }.push o selfClosing).silent)
    (reported : refusals b'.diagnostics =
      refusals b.diagnostics ++ ((g.fate limit start).report? limit start).toList) :
    Builds limit (g.enter start selfClosing) b' t' ∧ b.SameTag b' := by
  have length := length_fates limit g.elements
  have below : b.stack.map (·.node) =
      g.stack.map (nodeOf (fates limit (g.enter start selfClosing).elements)) := by
    rw [h.opened, g.fates_enter]
    exact (List.map_congr_left fun k hk => nodeOf_append (length.symm ▸ h.laid.opens.lt k hk) _).symm
  have own : o.node = nodeOf (fates limit (g.enter start selfClosing).elements) g.elements.length := by
    rw [g.fates_enter, ← length, nodeOf_last, node, h.holds.issued]
  obtain ⟨limited, saw', stack, tag⟩ := Builder.kept_of_pushed silent
  refine ⟨⟨h.laid.enter start selfClosing, holds, limited.trans h.limited, ?_, ?_, ?_⟩, tag⟩
  · rw [stack]
    cases selfClosing with
    | true => exact below
    | false => exact congrArg₂ List.cons own below
  · rw [saw', saw, Bool.or_eq_true, h.root, decide_eq_true_eq, g.fates_enter, List.mem_append,
      List.mem_singleton]
    exact or_congr_right eq_comm
  · rw [reported, h.reported]
    exact (due_append limit g.elements (g.made start)).symm

/-- An element that is not placed leaves the tree as it is. -/
theorem skip (h : Builds limit g b t) {start : StagedElement} (refused : g.fate limit start ≠ .placed)
    (selfClosing : Bool) {b' : Builder} (silent : b'.silent = b.silent) (reported : refusals b'.diagnostics =
      refusals b.diagnostics ++ ((g.fate limit start).report? limit start).toList) :
    let b'' := b'.push ⟨none, start.tag, start.span⟩ selfClosing
    Builds limit (g.enter start selfClosing) b'' t ∧ b.SameTag b'' := by
  refine h.enter (o := ⟨none, start.tag, start.span⟩) (h.holds.refuse h.laid refused selfClosing)
    (if_neg refused).symm (by rw [decide_eq_false refused, Bool.or_false]) ?_ ?_
  · rw [Builder.silent_push, silent, Builder.silent_push]
  · rw [Builder.diagnostics_push]
    exact reported

/-- A start tag that has ended makes one element. -/
theorem finalize (h : Builds limit g b t) (start : StagedElement) (selfClosing : Bool) :
    let s := b.finalize t start selfClosing
    Builds limit (g.enter start selfClosing) s.1 s.2 ∧ b.SameTag s.1 := by
  have refusal := h.refusal start
  by_cases placed : g.fate limit start = .placed
  · rw [if_pos placed] at refusal
    obtain ⟨t1, l, r, added, old, issued1, new⟩ := h.addParsed placed (.ofTag start.tag) start.tag
    obtain ⟨entries, issued, silent, reported⟩ := Builder.finalize_placed selfClosing refusal added old new
      h.holds.sound.nodup h.holds.sound.issued_not_mem
    have sound := Tree.sound_invariant.finalize b start selfClosing h.holds.sound
    have made : Entry.assignAll start.pairs ⟨⟨t.issued⟩, .ofTag start.tag, start.tag, g.stack.length,
        g.stack.head?.map fun j => ⟨rank (fates limit g.elements) j⟩, [], fun _ => ""⟩ =
          (g.made start).entry (fates limit g.elements) g.texts g.elements.length := by
      rw [Element.entry, textsIn_eq_nil h.laid.texts, ← length_fates limit g.elements, rank_length,
        h.holds.issued, Kind.keeps, ite_self]
      rfl
    refine h.enter (h.holds.place h.laid placed selfClosing sound (issued.trans issued1) old entries made)
      (if_pos placed).symm (by rw [decide_eq_true placed, Bool.or_true]) silent ?_
    rw [reported, placed]
    exact (List.append_nil _).symm
  · -- whether it is reported or not, it stays open as an element without a node
    rw [if_neg placed] at refusal
    unfold Builder.finalize
    rw [refusal]
    cases said : (g.fate limit start).finding? limit start with
    | none =>
      refine h.skip placed selfClosing rfl ?_
      rw [Fate.report?, said]
      exact (List.append_nil _).symm
    | some finding =>
      refine h.skip placed selfClosing rfl ?_
      rw [Fate.report?, said]
      exact b.refusals_refusing (Fate.mem_refusing said) start.span finding.2

/-! ## A text -/

/-- A text in an element goes to it, if it is placed and may hold text. -/
theorem holds_readText_inside (h : Builds limit g b t) {k : Nat} {rest : List Nat} (stack : g.stack = k :: rest)
    {chars : List Char} (shown : Text.isAllBlank chars = false) (span : Text.Range) :
    Holds limit { g with texts := g.texts ++ [(k, Markup.textOf chars)] } (b.readText t span chars).2 := by
  obtain ⟨o, below, e, top, -, node, here, -⟩ := h.top stack
  have first : b.stack.head? = some o := by rw [top, List.head?_cons]
  by_cases placed : (fates limit g.elements)[k]? = some .placed
  · obtain ⟨n, hn, id, -, kind⟩ := h.holds.exists_node here placed
    have node' : o.node = some n.id := id ▸ node.trans (if_pos placed)
    have nd := h.holds.sound.nodup
    cases accepts : n.kind.acceptsContent with
    | true =>
      obtain ⟨t', read, issued, entries⟩ := Builder.readText_accepted nd first node' hn accepts shown span
      have sound := Tree.sound_invariant.readText b span chars h.holds.sound
      rw [read] at sound ⊢
      exact h.holds.write _ here placed (kind ▸ accepts) sound issued (id ▸ entries)
    | false =>
      obtain ⟨b', read, -⟩ := Builder.readText_refused nd
        (fun o' ho => ⟨n, hn, Option.some.inj (first.symm.trans ho) ▸ node', accepts⟩) shown span
      rw [read]
      refine h.holds.ignore _ fun e' here' _ => ?_
      rw [← Option.some.inj (here.symm.trans here'), ← kind]
      exact accepts
  · have skipped : o.node = none := node.trans (if_neg placed)
    have read : b.readText t span chars = (b, t) := by
      obtain ⟨_, tag, place⟩ := o
      obtain rfl : _ = none := skipped
      unfold Builder.readText
      simp only [Text.isEmpty_trim shown, Bool.false_eq_true, ↓reduceIte, first]
    rw [read]
    exact h.holds.ignore _ fun e' _ inside => absurd inside placed

/-- A text belongs to the innermost open element, unless it is blank. -/
theorem holds_readText (h : Builds limit g b t) (span : Text.Range) (chars : List Char) :
    Holds limit (g.readText chars) (b.readText t span chars).2 := by
  cases shown : Text.isAllBlank chars with
  | true =>
    have trimmed : Text.trim chars = [] := Text.trim_eq_nil.mpr shown
    have read : b.readText t span chars = (b, t) := by simp [Builder.readText, trimmed]
    rw [read, Gathered.readText, if_pos shown]
    exact h.holds
  | false =>
    have added : g.readText chars =
        { g with texts := g.texts ++ g.stack.head?.toList.map fun k => (k, Markup.textOf chars) } :=
      if_neg (by rw [shown]; exact Bool.false_ne_true)
    cases stack : g.stack with
    | nil =>
      obtain ⟨b', read, -⟩ := Builder.readText_refused (b := b) h.holds.sound.nodup
        (by simp [h.stack_eq_nil stack]) shown span
      rw [read, added, stack]
      exact h.holds.congr rfl (List.append_nil _)
    | cons k rest =>
      have inside : g.readText chars = { g with texts := g.texts ++ [(k, Markup.textOf chars)] } := by
        rw [added, stack]
        rfl
      rw [inside]
      exact h.holds_readText_inside stack shown span

/-- A text changes no element and nothing that is open. -/
theorem readText (h : Builds limit g b t) (span : Text.Range) (chars : List Char) :
    let s := b.readText t span chars
    Builds limit (g.readText chars) s.1 s.2 ∧ b.SameTag s.1 := by
  obtain ⟨silent, reported⟩ := b.readText_mild t span chars
  obtain ⟨elements, stack, -⟩ := g.readText_keeps chars
  have kept : (b.readText t span chars).1.silent.limit = b.limit ∧
      (b.readText t span chars).1.silent.sawRoot = b.sawRoot ∧
      (b.readText t span chars).1.silent.stack = b.stack ∧ b.SameTag (b.readText t span chars).1.silent := by
    rw [silent]
    exact ⟨rfl, rfl, rfl, rfl, rfl, rfl⟩
  obtain ⟨limited, root, opened, tag⟩ := kept
  refine ⟨h.restate (h.laid.readText chars) (h.holds_readText span chars) elements ?_ ⟨limited, root⟩
    reported, tag⟩
  rw [stack, ← h.opened]
  exact congrArg _ opened

/-! ## A close tag -/

/-- A close tag closes the innermost open element. -/
theorem close (h : Builds limit g b t) (stop : Text.Range) :
    Builds limit { g with stack := g.stack.tail } (b.close stop) t ∧ b.SameTag (b.close stop) := by
  have closed {b' : Builder} (stack : b'.stack = b.stack.tail)
      (kept : b'.limit = b.limit ∧ b'.sawRoot = b.sawRoot)
      (reported : refusals b'.diagnostics = refusals b.diagnostics) :
      Builds limit { g with stack := g.stack.tail } b' t :=
    h.restate ⟨h.laid.ordered, h.laid.opens.tail, h.laid.texts⟩ (h.holds.congr rfl rfl) rfl
      (by rw [stack, List.map_tail, h.opened, List.map_tail]) kept reported
  cases stack : b.stack with
  | nil =>
    rw [Builder.close_nil stack]
    refine ⟨closed ?_ ⟨rfl, rfl⟩ (b.refusals_report (by decide) _ _), rfl, rfl, rfl⟩
    rw [stack]
    exact stack
  | cons o outer =>
    rw [Builder.close_cons stack]
    exact ⟨closed (by rw [stack]; rfl) ⟨rfl, rfl⟩ rfl, rfl, rfl, rfl⟩

end Builds

/-! ## Every token -/

namespace Tracks

theorem report (h : Tracks limit g b t) {kind : DiagnosticKind} (mild : kind ∉ refusing) (span : Text.Range)
    (detail : Option String) : Tracks limit g (b.report kind span detail) t :=
  ⟨h.toBuilds.report mild span detail, h.phase, h.inTag, h.staged⟩

theorem abandon (h : Tracks limit g b t) : Tracks limit g.abandon (b.abandon t).1 (b.abandon t).2 := by
  have closed : Tracks limit { g with inTag := false, staged := none }
      { b with tagOpen := none, staged := none } t :=
    ⟨h.toBuilds.congr rfl rfl rfl rfl ⟨rfl, rfl⟩ rfl, h.phase, rfl, rfl⟩
  cases b.abandon_outcome t with
  | @element start staged broken =>
    have reported := closed.report (show .syntaxError ∉ refusing by decide) start.span
      s!"`<{start.tag}` is missing its closing `>`"
    obtain ⟨builds, phase, tagOpen, staged'⟩ := reported.toBuilds.finalize start true
    rw [broken, Gathered.abandon, show g.staged = some start from h.staged.symm.trans staged]
    exact ⟨builds, phase.trans h.phase, by rw [tagOpen]; rfl, staged'⟩
  | nothing staged _ broken =>
    rw [broken, Gathered.abandon, show g.staged = none from h.staged.symm.trans staged]
    exact closed
  | nameless staged _ _ broken =>
    rw [broken, Gathered.abandon, show g.staged = none from h.staged.symm.trans staged]
    exact closed.report (by decide) _ _

/-- The end of a tag, whichever it is. -/
theorem endTag (h : Tracks limit g b t) (span : Text.Range) (selfClosing : Bool) :
    Tracks limit (g.endTag selfClosing) (b.endTag t span selfClosing).1 (b.endTag t span selfClosing).2 := by
  have rests {b' : Builder} {t' : Tree} (builds : Builds limit (g.leave selfClosing) b' t')
      (phase : b'.phase = b.phase) (staged : b'.staged = (g.leave selfClosing).staged) :
      Tracks limit (g.endTag selfClosing) (b'.past selfClosing) t' :=
    ⟨builds.congr rfl rfl rfl rfl ⟨rfl, rfl⟩ rfl, by rw [Builder.past, phase, h.phase]; rfl, rfl, staged⟩
  have bare (phase : b.phase ≠ .closing) (staged : b.staged = none) : g.leave selfClosing = g := by
    rw [Gathered.leave, if_neg (h.phase ▸ phase), show g.staged = none from h.staged.symm.trans staged]
  cases b.endTag_outcome t span selfClosing with
  | close closing ended =>
    have left : g.leave selfClosing = { g with stack := g.stack.tail } := if_pos (h.phase.symm.trans closing)
    obtain ⟨builds, phase, -, staged⟩ := h.toBuilds.close span
    exact ended ▸ rests (left ▸ builds) phase (left ▸ staged.trans h.staged)
  | @element start phase staged ended =>
    have left : g.leave selfClosing = { g with staged := none }.enter start selfClosing := by
      rw [Gathered.leave, if_neg (h.phase ▸ phase),
        show g.staged = some start from h.staged.symm.trans staged]
    have unstaged : Builds limit { g with staged := none } { b with staged := none } t :=
      h.toBuilds.congr rfl rfl rfl rfl ⟨rfl, rfl⟩ rfl
    obtain ⟨builds, phase', -, staged'⟩ := unstaged.finalize start selfClosing
    exact ended ▸ rests (left ▸ builds) phase' (left ▸ staged')
  | nameless phase staged _ ended =>
    have left := bare phase staged
    exact ended ▸ rests (left.symm ▸ h.toBuilds.report (by decide) _ _) rfl (left.symm ▸ h.staged)
  | nothing phase staged _ ended =>
    have left := bare phase staged
    exact ended ▸ rests (left.symm ▸ h.toBuilds) rfl (left.symm ▸ h.staged)

/-- Only the start tag that is read matters. -/
theorem restage (h : Tracks limit g b t) {staged : Option StagedElement} {b' : Builder}
    (same : b' = { b with staged }) : Tracks limit { g with staged } b' t := by
  subst same
  exact ⟨h.toBuilds.congr rfl rfl rfl rfl ⟨rfl, rfl⟩ rfl, h.phase, h.inTag, rfl⟩

theorem readValue (h : Tracks limit g b t) (span : Text.Range) (raw : String) :
    Tracks limit { g with staged := g.staged.map (·.takeValue raw) } (b.readValue span raw) t := by
  cases staged : b.staged with
  | none =>
    have unstaged : g.staged = none := h.staged.symm.trans staged
    rw [Builder.readValue, staged, unstaged]
    exact ⟨h.toBuilds.congr rfl rfl rfl rfl ⟨rfl, rfl⟩ rfl, h.phase, h.inTag, staged⟩
  | some e =>
    rw [show g.staged = some e from h.staged.symm.trans staged, Option.map_some]
    rcases b.readValue_cases staged span raw with taken | ⟨same, said⟩
    · rw [taken]
      exact h.restage rfl
    · have reported := h.report (show .syntaxError ∉ refusing by decide) span
        "value without an attribute name"
      rw [said, same]
      exact ⟨reported.toBuilds.congr rfl rfl rfl rfl ⟨rfl, rfl⟩ rfl, h.phase, h.inTag, staged⟩

theorem next (h : Tracks limit g b t) (source : String) (token : Token) :
    let s := b.feed t ⟨.textToTree⟩ source token
    Tracks limit (g.next source token) s.1 s.2 := by
  have opened {g : Gathered} {s : Builder × Tree} (h : Tracks limit g s.1 s.2) (span : Text.Range)
      (phase : Phase) : Tracks limit { g with inTag := true, phase } { s.1 with tagOpen := some span, phase } s.2 :=
    ⟨h.toBuilds.congr rfl rfl rfl rfl ⟨rfl, rfl⟩ rfl, rfl, rfl, h.staged⟩
  cases kind : token.kind with
  | startTag =>
    rw [Builder.feed_start kind, Gathered.next, kind]
    exact opened h.abandon token.span .opening
  | startCloseTag =>
    rw [Builder.feed_startClose kind, Gathered.next, kind]
    exact opened h.abandon token.span .closing
  | tagName =>
    have here : b.phase ≠ .closing ∧ b.tagOpen.isSome = true ↔ g.phase ≠ .closing ∧ g.inTag = true := by
      rw [h.phase, h.inTag]
    rw [Gathered.next, kind]
    dsimp only
    by_cases named : b.phase ≠ .closing ∧ b.tagOpen.isSome = true
    · rw [Builder.feed_tagName kind named.1 named.2, if_pos (here.mp named)]
      exact h.restage rfl
    · rw [Builder.feed_tagName_apart kind named, if_neg (mt here.mpr named)]
      exact h
  | attributeName =>
    rw [Gathered.next, kind]
    dsimp only
    cases staged : b.staged with
    | none =>
      rw [Builder.feed_attributeName_unstaged kind staged,
        show g.staged = none from h.staged.symm.trans staged]
      exact ⟨h.toBuilds.congr rfl rfl rfl rfl ⟨rfl, rfl⟩ rfl, h.phase, h.inTag, staged⟩
    | some e =>
      rw [Builder.feed_attributeName kind staged,
        show g.staged = some e from h.staged.symm.trans staged]
      exact h.restage rfl
  | attributeValue =>
    rw [Builder.feed_attributeValue kind, Gathered.next, kind]
    exact h.readValue _ _
  | endTag =>
    rw [Builder.feed_endTag kind, Gathered.next, kind]
    exact h.endTag _ _
  | selfCloseEndTag =>
    rw [Builder.feed_selfCloseEndTag kind, Gathered.next, kind]
    exact h.endTag _ _
  | text =>
    rw [Builder.feed_text kind, Gathered.next, kind]
    obtain ⟨builds, phase, tagOpen, staged⟩ :=
      h.toBuilds.readText token.span (Text.slice source token.span).toList
    obtain ⟨-, -, phase', inTag', staged'⟩ := g.readText_keeps (Text.slice source token.span).toList
    exact ⟨builds, phase.trans (h.phase.trans phase'.symm), by rw [tagOpen, inTag', h.inTag],
      staged.trans (h.staged.trans staged'.symm)⟩
  | error =>
    rw [Builder.feed_error kind, Gathered.next, kind]
    exact h.report (by decide) _ _
  | equals =>
    rw [Builder.feed_quiet (.inl kind), Gathered.next, kind]
    exact h
  | whitespace =>
    rw [Builder.feed_quiet (.inr (.inl kind)), Gathered.next, kind]
    exact h
  | comment =>
    rw [Builder.feed_quiet (.inr (.inr kind)), Gathered.next, kind]
    exact h

theorem readAll {s : Builder × Tree} (h : Tracks limit g s.1 s.2) (source : String) (tokens : List Token) :
    let s' := Builder.readAll source s tokens
    Tracks limit (tokens.foldl (Gathered.next source) g) s'.1 s'.2 := by
  induction tokens generalizing g s with
  | nil => exact h
  | cons token tokens ih => exact ih (h.next source token)

end Tracks

end

/-- That elements were never closed is no reason not to place them. -/
theorem Builder.refusals_unclosed (b : Builder) (open' : List OpenElement) :
    refusals (open'.foldl (fun (b : Builder) e => b.report .unclosedTag e.span e.tag) b).diagnostics =
      refusals b.diagnostics := by
  induction open' generalizing b with
  | nil => rfl
  | cons e open' ih => exact (ih _).trans (b.refusals_report (by decide) e.span e.tag)

namespace Document

variable (t : Tree) (tokens : List Token) (source : String) (settings : Settings)

/-- All tokens are read. -/
theorem holds_readTokens : let read := readTokens t tokens source settings
    Holds settings.nestingLimit (.ofTokens source tokens) read.1 ∧
      refusals read.2 = due settings.nestingLimit (Gathered.ofTokens source tokens).elements := by
  have last := ((tracks_clear t settings.nestingLimit).readAll
    (s := ({ limit := settings.nestingLimit }, t.clear)) source tokens).abandon
  exact ⟨last.holds, (Builder.refusals_unclosed _ _).trans last.reported⟩

/-- Any tokens can be read, in any order. No pass is running any more, the tree has a node, and its
links are as they should be. What is reported of nesting and of second roots is reported of one
element each. The elements that are not placed are these and those inside them, at any depth. The
tree holds all others and nothing else, within the limit, and no more of them than there are names
of tags; or there are none and it is the default document. -/
theorem parseTokens_safe :
    let read := parseTokens t tokens source {} settings
    let g := Gathered.ofTokens source tokens
    let fs := fates settings.nestingLimit g.elements
    read.2.2.isIdle = true ∧ read.1.nodes ≠ [] ∧ read.1.verify = some (.ok ()) ∧
      refusals read.2.1 = due settings.nestingLimit g.elements ∧
      (∀ k < g.elements.length, fs[k]? ≠ some .placed ↔
        ∃ j, Within g.elements k j ∧ (fs[j]? = some .tooDeep ∨ fs[j]? = some .secondRoot)) ∧
      (.placed ∉ fs ∧ read.1.entries = [⟨⟨0⟩, .fetch, "fetch", 0, none, [], fun _ => ""⟩,
          ⟨⟨1⟩, .entity, "entity", 1, some ⟨0⟩, [], fun _ => ""⟩] ∨
        Holds settings.nestingLimit g read.1 ∧ (∀ n ∈ read.1.nodes, n.level < settings.nestingLimit) ∧
          read.1.nodes.length ≤ tokens.countP (·.kind = .tagName)) := by
  intro read g fs
  obtain ⟨holds, reported⟩ := holds_readTokens t tokens source settings
  have laid := Gathered.laid_ofTokens source tokens
  have sound : read.1.Sound := Tree.sound_invariant.parseTokens tokens source settings (Tree.clear_sound t)
  have tree : read.1 = orDefault (readTokens t tokens source settings).1 := rfl
  -- both forms of the tree follow from whether any element is placed
  suffices filled : read.1.nodes ≠ [] ∧ (.placed ∉ fs ∧ read.1.entries =
        [⟨⟨0⟩, .fetch, "fetch", 0, none, [], fun _ => ""⟩,
          ⟨⟨1⟩, .entity, "entity", 1, some ⟨0⟩, [], fun _ => ""⟩] ∨
      Holds settings.nestingLimit g read.1) by
    refine ⟨rfl, filled.1, sound.verify, reported, fun k hk => laid.ordered.not_placed_iff hk, ?_⟩
    refine filled.2.imp_right fun holds => ⟨holds, fun n hn => holds.level_lt hn, ?_⟩
    exact holds.length_le.trans (Gathered.length_elements_le source tokens)
  by_cases some' : .placed ∈ fs
  · have live : (readTokens t tokens source settings).1.nodes ≠ [] := by
      rw [← List.length_pos_iff, holds.size]
      exact List.count_pos_iff.mpr some'
    have kept : read.1 = (readTokens t tokens source settings).1 := by
      rw [tree, orDefault, Tree.isEmpty, List.isEmpty_eq_false_iff.mpr live]
      rfl
    rw [kept]
    exact ⟨live, .inr holds⟩
  · have empty : (readTokens t tokens source settings).1.nodes = [] := by
      rw [← List.length_eq_zero_iff, holds.size, List.count_eq_zero.mpr some']
    have default : read.1 = (readTokens t tokens source settings).1.reset := by
      rw [tree, orDefault, Tree.isEmpty, empty]
      rfl
    have entries := (readTokens t tokens source settings).1.entries_reset
    rw [default]
    refine ⟨fun none => ?_, .inl ⟨some', entries⟩⟩
    rw [Tree.entries, none] at entries
    cases entries

/-- A tag in another one is given up because of its depth, one behind its end as a second root. -/
example :
    let kinds : List TokenKind := [.endTag, .startTag, .tagName, .endTag, .startTag, .tagName,
      .startCloseTag, .endTag, .startTag, .tagName]
    let g := Gathered.ofTokens "a" (kinds.map (⟨·, .ofLength 0 1⟩))
    fates 1 g.elements = [.placed, .tooDeep, .secondRoot] := by decide +kernel

end Document

end QueryMarkup
