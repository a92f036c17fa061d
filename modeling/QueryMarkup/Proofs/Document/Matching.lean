import QueryMarkup.Proofs.Document.Recovery
import QueryMarkup.Proofs.Document.Tags
import QueryMarkup.Proofs.Markup.Brackets

/-!
# Open elements are brackets

Reading keeps the open elements as the brackets that still wait for their partner. Every token
either goes on with a tag, and then the bracket that the tag is going to be stays the same, or ends
one, and then the bracket is put on the stack or takes its partner off it. Elements that
are skipped are kept there like all others, and a tag that breaks off is none.
-/
namespace QueryMarkup

open Markup

/-- The findings about how tags are nested. -/
def nesting : List DiagnosticKind := [.unclosedTag, .unexpectedCloseTag]

def nestings (ds : List Diagnostic) : List Diagnostic := ds.filter (·.kind ∈ nesting)

theorem nestings_append (ds ds' : List Diagnostic) : nestings (ds ++ ds') = nestings ds ++ nestings ds' :=
  List.filter_append ds ds'

theorem nestings_eq_nil {ds : List Diagnostic} : nestings ds = [] ↔ ∀ d ∈ ds, d.kind ∉ nesting := by
  rw [nestings, List.filter_eq_nil_iff]
  simp only [decide_eq_true_eq]

namespace Builder

/-! ## Where brackets stay as they are -/

/-- The name of the start tag that is read, and its place. -/
def heading (b : Builder) : Option (String × Text.Range) := b.staged.map fun e => (e.tag, e.span)

/-- All that has to do with brackets is the same: the open elements, the tag that is read, and the
reports about how tags are nested. -/
structure Still (b b' : Builder) : Prop where
  stack : b'.stack = b.stack
  phase : b'.phase = b.phase
  tagOpen : b'.tagOpen = b.tagOpen
  heading : b'.heading = b.heading
  said : nestings b'.diagnostics = nestings b.diagnostics

section
variable {b b' b'' : Builder} {t : Tree}

theorem Still.refl (b : Builder) : b.Still b := ⟨rfl, rfl, rfl, rfl, rfl⟩

theorem Still.trans (h : b.Still b') (h' : b'.Still b'') : b.Still b'' :=
  ⟨h'.stack.trans h.stack, h'.phase.trans h.phase, h'.tagOpen.trans h.tagOpen, h'.heading.trans h.heading,
    h'.said.trans h.said⟩

theorem still_report (b : Builder) {kind : DiagnosticKind} (other : kind ∉ nesting) (span : Text.Range)
    (detail : Option String) : b.Still (b.report kind span detail) := by
  refine ⟨rfl, rfl, rfl, rfl, ?_⟩
  have nothing : nestings [.report kind span detail] = [] :=
    nestings_eq_nil.mpr (List.forall_mem_singleton.mpr other)
  rw [report, nestings_append, nothing, List.append_nil]

theorem still_issues (b : Builder) {issues : List StructuralIssue} (other : ∀ i ∈ issues, i.kind ∉ nesting)
    (span : Text.Range) :
    b.Still (issues.foldl (fun (b : Builder) i => b.report i.kind span i.detail) b) := by
  induction issues generalizing b with
  | nil => exact .refl b
  | cons i issues ih =>
    obtain ⟨this, others⟩ := List.forall_mem_cons.mp other
    exact (still_report b this span i.detail).trans (ih _ others)

theorem Still.push (h : b.Still b') (o : OpenElement) (selfClosing : Bool) :
    (b.push o selfClosing).Still (b'.push o selfClosing) := by
  cases selfClosing with
  | true => exact h
  | false => exact ⟨congrArg (o :: ·) h.stack, h.phase, h.tagOpen, h.heading, h.said⟩

/-- The name of an attribute is unknown at worst. -/
theorem insertParsed_other {t' : Tree} {id : NodeId} {name value : String} {issues : List StructuralIssue}
    (e : t.insertParsed id name value = .ok (t', issues)) : ∀ i ∈ issues, i.kind ∉ nesting := by
  intro i hi
  rw [(Tree.insertParsed_issues e i hi).1]
  decide

theorem still_named (b : Builder) (seen : List String) (a : StagedAttribute) : b.Still (b.named seen a) := by
  unfold named
  split
  · exact still_report b (by decide) _ _
  · exact .refl b

theorem still_readAttribute (id : NodeId) (s : Builder × Tree × List String) (a : StagedAttribute) :
    s.1.Still (readAttribute id s a).1 := by
  obtain ⟨b, t, seen⟩ := s
  have first := b.still_named seen a
  cases readAttribute_outcome id b t seen a with
  | missing _ read => exact read ▸ first.trans (still_report _ (by decide) _ _)
  | lost _ _ read => exact read ▸ first
  | stored _ inserted read => exact read ▸ first.trans (still_issues _ (insertParsed_other inserted) _)

theorem still_readAttributes (id : NodeId) (s : Builder × Tree × List String)
    (attributes : List StagedAttribute) : s.1.Still (attributes.foldl (readAttribute id) s).1 := by
  induction attributes generalizing s with
  | nil => exact .refl _
  | cons a attributes ih => exact (still_readAttribute id s a).trans (ih _)

theorem refusal_other {e : StagedElement} {kind : DiagnosticKind} {detail : String}
    (said : b.refusal e = some (some (kind, detail))) : kind ∉ nesting := by
  unfold refusal at said
  split at said
  · cases said
  · split at said
    · obtain ⟨rfl, -⟩ := Prod.mk.inj (Option.some.inj (Option.some.inj said))
      decide
    · split at said
      · obtain ⟨rfl, -⟩ := Prod.mk.inj (Option.some.inj (Option.some.inj said))
        decide
      · cases said

theorem checkPlacement_other {kind : Kind} {tag : String} {parent : Option Kind} :
    ∀ i ∈ checkPlacement kind tag parent, i.kind ∉ nesting := by
  intro i hi
  obtain ⟨unknown, -⟩ | misplaced := kind_of_checkPlacement i hi
  · rw [unknown]
    decide
  · rw [misplaced]
    decide

/-- An element that has ended is put on the stack, placed or skipped, unless it closed itself. -/
theorem still_finalize (b : Builder) (t : Tree) (e : StagedElement) (selfClosing : Bool) :
    ∃ node, (b.push ⟨node, e.tag, e.span⟩ selfClosing).Still (b.finalize t e selfClosing).1 := by
  have placed : b.Still (b.placing t e) := b.still_issues checkPlacement_other e.span
  cases b.finalize_outcome t e selfClosing with
  | skipped _ made => exact ⟨none, made ▸ .refl _⟩
  | refused said made => exact ⟨none, made ▸ (still_report b (refusal_other said) e.span _).push _ _⟩
  | lost _ _ made => exact ⟨none, made ▸ placed.push _ _⟩
  | @added t' id _ _ made =>
    have filled := still_readAttributes id
      ({ b.placing t e with sawRoot := true }, t'.setSpan id (some e.span), []) e.attributes
    refine ⟨some id, made ▸ (placed.trans ?_).push _ _⟩
    exact ⟨filled.stack, filled.phase, filled.tagOpen, filled.heading, filled.said⟩

/-- Of a text at most this is said, that it is in a place without text. -/
theorem still_readText (b : Builder) (t : Tree) (span : Text.Range) (chars : List Char) :
    b.Still (b.readText t span chars).1 := by
  cases b.readText_outcome t span chars with
  | ignored read => exact read ▸ .refl b
  | unexpected read => exact read ▸ still_report b (by decide) _ none
  | stored _ _ _ read => exact read ▸ .refl b

/-- A value leaves the name of the tag as it is. -/
theorem still_readValue (b : Builder) (span : Text.Range) (raw : String) :
    b.Still (b.readValue span raw) := by
  cases b.readValue_outcome span raw with
  | unstaged _ read => exact read.symm ▸ .refl b
  | taken staged _ read =>
    rw [read]
    refine ⟨rfl, rfl, rfl, ?_, rfl⟩
    rw [heading, heading, staged]
    rfl
  | stray _ read => exact read ▸ still_report b (by decide) span _

/-- A tag that breaks off leaves no element open. -/
theorem still_abandon (b : Builder) (t : Tree) :
    ({ b with tagOpen := none, staged := none } : Builder).Still (b.abandon t).1 := by
  have report (span : Text.Range) (detail : String) :
      ({ b with tagOpen := none, staged := none } : Builder).Still
        (({ b with tagOpen := none, staged := none } : Builder).report .syntaxError span detail) :=
    still_report _ (by decide) span detail
  cases b.abandon_outcome t with
  | @element e _ broken =>
    obtain ⟨node, pushed⟩ := still_finalize
      (({ b with tagOpen := none, staged := none } : Builder).report .syntaxError e.span
        (some s!"`<{e.tag}` is missing its closing `>`")) t e true
    exact broken ▸ (report e.span _).trans pushed
  | nothing _ _ broken => exact broken ▸ .refl _
  | nameless _ _ _ broken => exact broken ▸ report _ _

/-! ## What is ahead -/

/-- The `<` or `</` of the tag that is read. -/
def opener? (b : Builder) : Option Token :=
  b.tagOpen.map fun span => ⟨if b.phase = .closing then .startCloseTag else .startTag, span⟩

/-- The bracket that the tag is going to be which is read. -/
def pending? (source : String) (b : Builder) (rest : List Token) : Option Bracket :=
  b.opener?.bind fun start => (bound? rest).bind (Bracket.ofTag? start ((named? source rest).or b.heading))

/-- The brackets that tokens go on with. -/
def ahead (source : String) (b : Builder) (rest : List Token) : List Bracket :=
  (b.pending? source rest).toList ++ brackets source rest

/-- The open elements are the brackets on the stack, and every closing bracket without a partner was
reported. -/
structure Tallies (b : Builder) (m : Matching) : Prop where
  stack : b.stack.map (fun o => (o.tag, o.span)) = m.stack
  said : nestings b.diagnostics = m.strays.map fun span => .report .unexpectedCloseTag span
  named : b.heading.isSome = true → b.tagOpen.isSome = true ∧ b.phase ≠ .closing
  closing : b.phase = .closing → b.tagOpen.isSome = true

section
variable {m : Matching} {source : String} {token : Token} {rest : List Token}

theorem Tallies.still (h : b.Tallies m) (still : b.Still b') : b'.Tallies m := by
  refine ⟨?_, still.said.trans h.said, ?_, ?_⟩
  · rw [still.stack]
    exact h.stack
  · rw [still.heading, still.tagOpen, still.phase]
    exact h.named
  · rw [still.tagOpen, still.phase]
    exact h.closing

theorem Still.ahead (h : b.Still b') : b'.ahead source rest = b.ahead source rest := by
  simp only [Builder.ahead, pending?, opener?, h.phase, h.tagOpen, h.heading]

/-- Where no tag is read, all brackets are those of the tokens. -/
theorem ahead_closed (tagOpen : b.tagOpen = none) (rest : List Token) :
    b.ahead source rest = brackets source rest := by
  simp [ahead, pending?, opener?, tagOpen]

theorem ahead_nil (source : String) (b : Builder) : b.ahead source [] = [] := by
  unfold ahead pending?
  cases b.opener? <;> rfl

/-- A token that does not bound a tag leaves the bracket of the tag to the same end. -/
theorem brackets_inner (inner : token.kind.bounds = false) :
    brackets source (token :: rest) = brackets source rest := by
  have none : bracket? source token rest = none := by
    apply bracket?_startless
    · rintro kind
      rw [kind] at inner
      cases inner
    · rintro kind
      rw [kind] at inner
      cases inner
  rw [brackets, none]
  rfl

theorem ahead_inner (inner : token.kind.bounds = false) (unnamed : token.kind ≠ .tagName) :
    b.ahead source (token :: rest) = b.ahead source rest := by
  rw [ahead, ahead, pending?, pending?, bound?_inner inner, brackets_inner inner, named?_inner inner unnamed]

/-! ## What each token does -/

/-- A new tag breaks the one off that is read, and is a bracket from now on if it is one. -/
theorem Tallies.start (h : b.Tallies m) (t : Tree)
    (kind : token.kind = .startTag ∨ token.kind = .startCloseTag) (phase : Phase)
    (fits : (if phase = .closing then .startCloseTag else .startTag) = token.kind) (rest : List Token) :
    let b' : Builder := { (b.abandon t).1 with tagOpen := some token.span, phase }
    b'.Tallies m ∧ b.ahead source (token :: rest) = b'.ahead source rest := by
  intro b'
  have still := still_abandon b t
  have unnamed : b'.heading = none := still.heading
  have stack : b'.stack = b.stack := still.stack
  refine ⟨⟨stack ▸ h.stack, still.said.trans h.said, fun named => ?_, fun _ => rfl⟩, ?_⟩
  · rw [unnamed] at named
    cases named
  · have broken : b.pending? source (token :: rest) = none := by
      rw [pending?, bound?_bound (by obtain kind | kind := kind <;> rw [kind] <;> rfl)]
      cases b.opener? with
      | none => rfl
      | some start => exact Bracket.ofTag?_broken start _ kind
    have opener : b'.opener? = some token := by
      change some (Token.mk (if phase = .closing then .startCloseTag else .startTag) token.span) = some token
      rw [fits]
    rw [ahead, ahead, broken, pending?, opener, unnamed, Option.or_none]
    rfl

/-- Where a tag has ended, none is read. -/
theorem Tallies.settle (h : b.Tallies m) (unnamed : b.heading = none) {phase : Phase}
    (outside : phase ≠ .closing) : ({ b with tagOpen := none, phase } : Builder).Tallies m := by
  refine ⟨h.stack, h.said, fun named => ?_, fun closing => absurd closing outside⟩
  replace named : b.heading.isSome = true := named
  rw [unnamed] at named
  cases named

/-- A close tag takes the last bracket off the stack, if there is one. -/
theorem Tallies.close (h : b.Tallies m) {span : Text.Range} (tagOpen : b.tagOpen = some span)
    (stop : Text.Range) : (b.close stop).Tallies (m.next (.closing (span.cover stop))) := by
  obtain ⟨strays, stack⟩ := m
  obtain ⟨opened, said, named, closing⟩ := h
  dsimp only at opened said
  subst opened
  cases opened : b.stack with
  | nil =>
    rw [close_nil opened, tagOpen]
    refine ⟨congrArg _ opened, ?_, named, closing⟩
    refine (nestings_append _ _).trans ?_
    rw [said]
    change _ = List.map _ (strays ++ [span.cover stop])
    rw [List.map_append]
    rfl
  | cons o outer =>
    rw [close_cons opened]
    exact ⟨rfl, said, named, closing⟩

/-- An element is put on the stack, unless it closed itself. -/
theorem Tallies.push (h : b.Tallies m) (node : Option NodeId) (tag : String) (span : Text.Range)
    (selfClosing : Bool) : (b.push ⟨node, tag, span⟩ selfClosing).Tallies
      (if selfClosing then m else m.next (.opening tag span)) := by
  cases selfClosing with
  | true => exact h
  | false => exact ⟨congrArg ((tag, span) :: ·) h.stack, h.said, h.named, h.closing⟩

theorem Tallies.finalize (h : b.Tallies m) (e : StagedElement) (t : Tree) (selfClosing : Bool) :
    let b' := (({ b with staged := none } : Builder).finalize t e selfClosing).1
    b'.Tallies (if selfClosing then m else m.next (.opening e.tag e.span)) ∧ b'.heading = none := by
  obtain ⟨node, still⟩ := still_finalize { b with staged := none } t e selfClosing
  have bare : ({ b with staged := none } : Builder).Tallies m := ⟨h.stack, h.said, nofun, h.closing⟩
  refine ⟨(bare.push node e.tag e.span selfClosing).still still, still.heading.trans ?_⟩
  cases selfClosing <;> rfl

/-- The end of a tag without a name is at most reported. -/
theorem endTag_unnamed (phase : b.phase ≠ .closing) (unstaged : b.staged = none) (t : Tree)
    (stop : Text.Range) (selfClosing : Bool) : ∃ b', b.Still b' ∧ ∃ phase' ≠ Phase.closing,
      b.endTag t stop selfClosing = ({ b' with tagOpen := none, phase := phase' }, t) := by
  cases b.endTag_outcome t stop selfClosing with
  | close closing => exact absurd closing phase
  | element _ staged =>
    rw [unstaged] at staged
    cases staged
  | nameless _ _ _ ended =>
    exact ⟨_, still_report b (by decide) _ "tag has no name", _, phase_past _ selfClosing, ended⟩
  | nothing _ _ _ ended => exact ⟨b, .refl b, _, phase_past _ selfClosing, ended⟩

/-- The bracket that the tag is which ends with a token. -/
def ended? (b : Builder) (stop : Token) : Option Bracket :=
  b.opener?.bind fun start => Bracket.ofTag? start b.heading stop

/-- With the end of a tag the bracket is read that it is. -/
theorem Tallies.ends (h : b.Tallies m) (t : Tree)
    (kind : token.kind = .endTag ∨ token.kind = .selfCloseEndTag) :
    (b.endTag t token.span (token.kind == .selfCloseEndTag)).1.Tallies (m.run (b.ended? token).toList) := by
  by_cases phase : b.phase = .closing
  · obtain ⟨span, tagOpen⟩ := Option.isSome_iff_exists.mp (h.closing phase)
    have unnamed : b.heading = none := by
      by_contra named
      exact (h.named (Option.isSome_iff_ne_none.mpr named)).2 phase
    have closing : b.ended? token = some (.closing (span.cover token.span)) := by
      rw [ended?, opener?, tagOpen, phase]
      exact Bracket.ofTag?_closing span b.heading kind
    have kept : (b.close token.span).heading = b.heading := by rw [heading, staged_close, heading]
    obtain ⟨phase', outside, ended⟩ := endTag_closing (t := t) phase token.span (token.kind == .selfCloseEndTag)
    rw [ended, closing]
    exact (h.close tagOpen token.span).settle (kept.trans unnamed) outside
  · have opener : b.opener? = b.tagOpen.map fun span => ⟨.startTag, span⟩ := by
      rw [opener?, if_neg phase]
    cases staged : b.staged with
    | none =>
      have unnamed : b.heading = none := by rw [heading, staged]; rfl
      have nothing : b.ended? token = none := by
        rw [ended?, opener, unnamed]
        cases b.tagOpen with
        | none => rfl
        | some span => exact Bracket.ofTag?_unnamed span token
      obtain ⟨b', still, phase', outside, ended⟩ :=
        endTag_unnamed phase staged t token.span (token.kind == .selfCloseEndTag)
      rw [ended, nothing]
      exact (h.still still).settle (still.heading.trans unnamed) outside
    | some e =>
      have named : b.heading = some (e.tag, e.span) := by rw [heading, staged]; rfl
      obtain ⟨span, tagOpen⟩ := Option.isSome_iff_exists.mp (h.named (by rw [named]; rfl)).1
      have opening : m.run (b.ended? token).toList =
          if token.kind == .selfCloseEndTag then m else m.next (.opening e.tag e.span) := by
        rw [ended?, opener, named, tagOpen, Option.map_some, Option.bind_some,
          Bracket.ofTag?_opening span _ kind]
        split <;> rfl
      obtain ⟨phase', outside, ended⟩ :=
        endTag_named (t := t) phase staged token.span (token.kind == .selfCloseEndTag)
      obtain ⟨kept, unnamed⟩ := h.finalize e t (token.kind == .selfCloseEndTag)
      rw [ended, opening]
      exact kept.settle unnamed outside

theorem ahead_ends (kind : token.kind = .endTag ∨ token.kind = .selfCloseEndTag) (t : Tree)
    (rest : List Token) : b.ahead source (token :: rest) = (b.ended? token).toList ++
      (b.endTag t token.span (token.kind == .selfCloseEndTag)).1.ahead source rest := by
  have bounds : token.kind.bounds = true := by
    obtain kind | kind := kind <;> rw [kind] <;> rfl
  have none : bracket? source token rest = none := by
    apply bracket?_startless
    · obtain kind | kind := kind <;> rw [kind] <;> decide
    · obtain kind | kind := kind <;> rw [kind] <;> decide
  have closed : (b.endTag t token.span (token.kind == .selfCloseEndTag)).1.tagOpen = Option.none := rfl
  rw [ahead_closed closed, ahead, pending?, bound?_bound bounds, named?_bound bounds, brackets, none]
  rfl

/-- A name is the name of the tag until another one comes. -/
theorem Tallies.name (h : b.Tallies m) (kind : token.kind = .tagName) (phase : b.phase ≠ .closing)
    (tagOpen : b.tagOpen.isSome = true) (source : String) (rest : List Token) :
    let b' : Builder := { b with staged := some ⟨Text.slice source token.span, token.span, []⟩ }
    b'.Tallies m ∧ b.ahead source (token :: rest) = b'.ahead source rest := by
  have inner : token.kind.bounds = false := by rw [kind]; rfl
  refine ⟨⟨h.stack, h.said, fun _ => ⟨tagOpen, phase⟩, h.closing⟩, ?_⟩
  rw [ahead, ahead, pending?, pending?, bound?_inner inner, brackets_inner inner, named?_name kind, Option.or_assoc]
  rfl

/-- A name without a start tag to it changes nothing about the brackets. -/
theorem ahead_name (kind : token.kind = .tagName) (apart : b.phase = .closing ∨ b.tagOpen = none)
    (rest : List Token) : b.ahead source (token :: rest) = b.ahead source rest := by
  have inner : token.kind.bounds = false := by rw [kind]; rfl
  rw [ahead, ahead, pending?, pending?, bound?_inner inner, brackets_inner inner]
  obtain phase | tagOpen := apart
  · rw [opener?, if_pos phase]
    cases b.tagOpen with
    | none => rfl
    | some span =>
      simp only [Option.map_some, Option.bind_some, Bracket.ofTag?_nameless span _ none]
  · rw [opener?, tagOpen]
    rfl

/-- Some tokens leave all as it is that has to do with brackets. -/
theorem still_feed (inner : token.kind.bounds = false) (unnamed : token.kind ≠ .tagName) (b : Builder)
    (t : Tree) (source : String) : b.Still (b.feed t ⟨.textToTree⟩ source token).1 := by
  cases kind : token.kind with
  | startTag | startCloseTag | endTag | selfCloseEndTag =>
    rw [kind] at inner
    cases inner
  | tagName => exact absurd kind unnamed
  | attributeName =>
    cases staged : b.staged with
    | none =>
      rw [feed_attributeName_unstaged kind staged]
      exact .refl b
    | some e =>
      rw [feed_attributeName kind staged]
      refine ⟨rfl, rfl, rfl, ?_, rfl⟩
      rw [heading, heading, staged]
      rfl
  | attributeValue =>
    rw [feed_attributeValue kind]
    exact still_readValue b _ _
  | text =>
    rw [feed_text kind]
    exact still_readText b t _ _
  | error =>
    rw [feed_error kind]
    exact still_report b (by decide) _ _
  | equals | whitespace | comment =>
    rw [feed_quiet (by simp only [kind, true_or, or_true])]
    exact .refl b

/-- One token: the brackets that end with it are read, all others are still ahead. -/
theorem Tallies.feed (h : b.Tallies m) (t : Tree) (source : String) (token : Token) (rest : List Token) :
    let b' := (b.feed t ⟨.textToTree⟩ source token).1
    ∃ ended, b'.Tallies (m.run ended) ∧ b.ahead source (token :: rest) = ended ++ b'.ahead source rest := by
  have other (inner : token.kind.bounds = false) (unnamed : token.kind ≠ .tagName) :
      let b' := (b.feed t ⟨.textToTree⟩ source token).1
      ∃ ended, b'.Tallies (m.run ended) ∧
        b.ahead source (token :: rest) = ended ++ b'.ahead source rest := by
    have still := still_feed inner unnamed b t source
    exact ⟨[], h.still still, (ahead_inner inner unnamed).trans still.ahead.symm⟩
  cases kind : token.kind with
  | startTag =>
    rw [feed_start kind]
    obtain ⟨kept, same⟩ := h.start t (.inl kind) .opening kind.symm rest
    exact ⟨[], kept, same⟩
  | startCloseTag =>
    rw [feed_startClose kind]
    obtain ⟨kept, same⟩ := h.start t (.inr kind) .closing kind.symm rest
    exact ⟨[], kept, same⟩
  | tagName =>
    by_cases staging : b.phase ≠ .closing ∧ b.tagOpen.isSome = true
    · rw [feed_tagName kind staging.1 staging.2]
      obtain ⟨kept, same⟩ := h.name kind staging.1 staging.2 source rest
      exact ⟨[], kept, same⟩
    · have apart : b.phase = .closing ∨ b.tagOpen = none := by
        rwa [not_and_or, not_not, Option.not_isSome_iff_eq_none] at staging
      rw [feed_tagName_apart kind staging]
      exact ⟨[], h, ahead_name kind apart rest⟩
  | endTag | selfCloseEndTag =>
    have ends : token.kind = .endTag ∨ token.kind = .selfCloseEndTag := by
      simp only [kind, true_or, or_true]
    rw [feed_ends (by simp [Lexeme.endsTag, lexemeOf, kind])]
    exact ⟨_, h.ends t ends, ahead_ends ends t rest⟩
  | attributeName | attributeValue | text | error | equals | whitespace | comment =>
    exact other (by rw [kind]; rfl) (by rw [kind]; decide)

/-- All tokens: every bracket among them is read. -/
theorem Tallies.readAll (h : b.Tallies m) (t : Tree) (source : String) (tokens : List Token) :
    (readAll source (b, t) tokens).1.Tallies (m.run (b.ahead source tokens)) := by
  induction tokens generalizing b m t with
  | nil =>
    rw [ahead_nil]
    exact h
  | cons token tokens ih =>
    obtain ⟨ended, kept, same⟩ := h.feed t source token tokens
    rw [readAll_cons, same, Matching.run_append]
    exact ih kept _

/-! ## The end of the text -/

theorem foldl_unclosed (b : Builder) (opened : List OpenElement) :
    (opened.foldl (fun (b : Builder) e => b.report .unclosedTag e.span e.tag) b).diagnostics =
      b.diagnostics ++ opened.map fun e => .report .unclosedTag e.span (some e.tag) := by
  induction opened generalizing b with
  | nil => exact (List.append_nil _).symm
  | cons o opened ih =>
    rw [List.foldl_cons, ih, List.map_cons, report, List.append_assoc]
    rfl

/-- At the end all brackets on the stack are reported, the outermost first. -/
theorem Tallies.finish (h : b.Tallies m) (t : Tree) : ∃ early,
    (b.finish t ⟨.textToTree⟩).1 =
        early ++ m.stack.reverse.map (fun (tag, span) => .report .unclosedTag span (some tag)) ∧
      nestings early = m.strays.map fun span => .report .unexpectedCloseTag span := by
  have still := still_abandon b t
  refine ⟨(b.abandon t).1.diagnostics, ?_, still.said.trans h.said⟩
  have stack : (b.abandon t).1.stack = b.stack := still.stack
  rw [finish_fst, foldl_unclosed, stack, ← h.stack, ← List.map_reverse, List.map_map]
  rfl

end

end

end Builder

namespace Document

/-- Reading tokens is matching their brackets. -/
theorem readTokens_matching (t : Tree) (tokens : List Token) (source : String) (settings : Settings) :
    let m := Matching.run {} (brackets source tokens)
    ∃ early, (readTokens t tokens source settings).2 =
        early ++ m.stack.reverse.map (fun (tag, span) => .report .unclosedTag span (some tag)) ∧
      nestings early = m.strays.map fun span => .report .unexpectedCloseTag span := by
  have empty : ({ limit := settings.nestingLimit } : Builder).Tallies {} := ⟨rfl, rfl, nofun, nofun⟩
  have read := empty.readAll t.clear source tokens
  rw [Builder.ahead_closed rfl] at read
  exact read.finish _

/-- Nothing is said about how tags are nested exactly if they are balanced. In general every closing
tag without a partner is reported where it stands, and at the end every opening tag without one, in the order
of the text and at its name. It makes no difference which elements were skipped. -/
theorem parse_nesting (t : Tree) (source : String) (settings : Settings) :
    let tags := brackets source (lex source)
    let ds := (parse t source settings).2
    ((∀ d ∈ ds, d.kind ≠ .unclosedTag ∧ d.kind ≠ .unexpectedCloseTag) ↔ Balanced tags) ∧
      ∃ strays left, Unmatched tags strays left ∧
        (∀ strays' left', Unmatched tags strays' left' → strays' = strays ∧ left' = left) ∧
        ∃ early, ds = early ++ left.map (fun (tag, span) => .report .unclosedTag span (some tag)) ∧
          nestings early = strays.map fun span => .report .unexpectedCloseTag span := by
  intro tags ds
  obtain ⟨early, all, said⟩ := readTokens_matching t (lex source) source settings
  have parts : Unmatched tags _ _ := unmatched_run tags
  refine ⟨?_, _, _, parts, fun _ _ => parts.unique, early, all, said⟩
  have unclosed (left : List (String × Text.Range)) :
      let ds := left.map fun (tag, span) => Diagnostic.report .unclosedTag span (some tag)
      nestings ds = ds := by
    refine List.filter_eq_self.mpr fun d hd => ?_
    obtain ⟨_, -, rfl⟩ := List.mem_map.mp hd
    rfl
  have silent : nestings ds = [] ↔ ∀ d ∈ ds, d.kind ≠ .unclosedTag ∧ d.kind ≠ .unexpectedCloseTag := by
    rw [nestings_eq_nil]
    simp only [nesting, List.mem_cons, List.not_mem_nil, or_false, not_or]
  rw [← silent, parts.balanced_iff, show ds = _ from all, nestings_append, said, unclosed,
    List.append_eq_nil_iff, List.map_eq_nil_iff, List.map_eq_nil_iff]

/-- A close tag needs no name, and what closes itself, has no name or does not end is no bracket. -/
example : let source := "<a><b/><></><c </"
    brackets source (lex source) = [.opening "a" (.ofLength 1 1), .closing (.ofLength 9 3)] := by
  decide +kernel

end Document

end QueryMarkup
