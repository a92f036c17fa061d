import QueryMarkup.Proofs.Diagnostic.Lines
import QueryMarkup.Proofs.Document.Recovery

/-!
# The lines of reports

Reading speaks of tags and attributes by their names, and no name has a line break. Only what the
lexer made nothing of is quoted as it stands. Every token keeps this (`Voiced.feed`), so it holds of
all that is reported about a text (`told_readTokens`).
-/
namespace QueryMarkup

open Markup

/-! ## Messages -/

theorem OneLine.of_isName {s : String} (h : isName s.toList = true) : OneLine s := by
  intro broken
  cases isNameChar_of_isName h _ broken

/-- The text around the detail of a message is on one line. -/
theorem DiagnosticKind.oneLine_frame (kind : DiagnosticKind) :
    OneLine kind.plainMessage ∧ OneLine kind.frame.1 ∧ OneLine kind.frame.2 := by
  cases kind <;> decide

theorem DiagnosticKind.oneLine_message (kind : DiagnosticKind) {detail : Option String}
    (plain : ∀ s ∈ detail, OneLine s) : OneLine (kind.message detail) := by
  obtain ⟨alone, before, after⟩ := kind.oneLine_frame
  cases detail with
  | none => exact alone
  | some s => exact (before.append (plain s rfl)).append after

/-- The report about a piece of a text that the lexer made nothing of. -/
def Token.quote (source : String) (token : Token) : Diagnostic :=
  .report .syntaxError token.span (some s!"unexpected `{Text.slice source token.span}`")

/-- The message is on one line, or it quotes a piece of the text that the lexer made nothing of. -/
def Diagnostic.Told (source : String) (tokens : List Token) (d : Diagnostic) : Prop :=
  OneLine d.message ∨ ∃ token ∈ tokens, token.kind = .error ∧ d = token.quote source

theorem Kind.oneLine_tag? (kind : Kind) : ∀ tag ∈ kind.tag?, OneLine tag := by
  cases kind <;> decide

/-- What is said about the place of an element names tags only. -/
theorem oneLine_checkPlacement {kind : Kind} {tag : String} (plain : OneLine tag)
    (parent : Option Kind) : ∀ i ∈ checkPlacement kind tag parent, OneLine i.detail := by
  intro i hi
  unfold checkPlacement at hi
  split at hi
  · cases List.mem_singleton.mp hi
    exact plain
  · split at hi
    · cases hi
    · have start : OneLine "<" := by decide
      split at hi
      · rename_i parentTag found
        cases List.mem_singleton.mp hi
        obtain ⟨above, -, tagged⟩ := Option.bind_eq_some_iff.mp found
        have inside : OneLine ">` inside `<" ∧ OneLine ">" := by decide
        have named := above.oneLine_tag? parentTag tagged
        exact (((start.append plain).append inside.1).append named).append inside.2
      · cases List.mem_singleton.mp hi
        have top : OneLine ">` at the top level" := by decide
        exact (start.append plain).append top

/-- What reading says of an attribute that it stores names the attribute. -/
theorem Tree.insertParsed_detail {t t' : Tree} {id : NodeId} {name value : String}
    {issues : List StructuralIssue} (e : t.insertParsed id name value = .ok (t', issues)) :
    ∀ i ∈ issues, i.detail = name := by
  intro i hi
  obtain ⟨n, -, ⟨-, -, rfl⟩ | ⟨-, -, rfl⟩⟩ := insertParsed_eq_ok e
  · cases hi
  · obtain ⟨-, rfl⟩ := Attribute.mem_nameIssues.mp hi
    rfl

namespace Builder

/-- What every token keeps: the start tag that is read and the open elements go by names, and
nothing is reported over several lines but what is quoted. -/
structure Voiced (source : String) (tokens : List Token) (b : Builder) : Prop where
  staged : ∀ e ∈ b.staged, e.Lettered
  stack : ∀ o ∈ b.stack, OneLine o.tag
  told : ∀ d ∈ b.diagnostics, d.Told source tokens

/-- An element is refused with a number or with its tag. -/
theorem oneLine_refusal {b : Builder} {e : StagedElement} (plain : OneLine e.tag)
    {said : DiagnosticKind × String} (refused : b.refusal e = some (some said)) :
    OneLine said.2 := by
  unfold refusal at refused
  split at refused
  · cases refused
  · split at refused
    · cases refused
      have start : OneLine "limit is " := by decide
      exact start.append (oneLine_toString b.limit)
    · split at refused
      · cases refused
        have start : OneLine "`<" ∧ OneLine ">` is a second top-level element" := by decide
        exact (start.1.append plain).append start.2
      · cases refused

namespace Voiced

variable {source : String} {tokens : List Token} {b : Builder}

theorem report (h : b.Voiced source tokens) (kind : DiagnosticKind) (span : Text.Range)
    {detail : Option String} (plain : ∀ s ∈ detail, OneLine s) :
    (b.report kind span detail).Voiced source tokens := by
  refine ⟨h.staged, h.stack, fun d hd => ?_⟩
  rcases List.mem_append.mp hd with old | new
  · exact h.told d old
  · cases List.mem_singleton.mp new
    exact .inl (kind.oneLine_message plain)

theorem reports {α : Type} {step : Builder → α → Builder} {xs : List α}
    (each : ∀ b, ∀ x ∈ xs, b.Voiced source tokens → (step b x).Voiced source tokens)
    (h : b.Voiced source tokens) : (xs.foldl step b).Voiced source tokens :=
  List.foldlRecOn xs step h fun b kept x mem => each b x mem kept

theorem push (h : b.Voiced source tokens) {o : OpenElement} (plain : OneLine o.tag)
    (selfClosing : Bool) : (b.push o selfClosing).Voiced source tokens := by
  cases selfClosing with
  | true => exact h
  | false => exact ⟨h.staged, List.forall_mem_cons.mpr ⟨plain, h.stack⟩, h.told⟩

/-! ## Start tags -/

theorem readAttribute {s : Builder × Tree × List String} (h : s.1.Voiced source tokens) (id : NodeId)
    {a : StagedAttribute} (plain : OneLine a.name) :
    (Builder.readAttribute id s a).1.Voiced source tokens := by
  obtain ⟨b, t, seen⟩ := s
  have named : ∀ s ∈ some a.name, OneLine s := by
    rintro _ ⟨⟩
    exact plain
  have first : (b.named seen a).Voiced source tokens := by
    unfold Builder.named
    split
    · exact h.report _ _ named
    · exact h
  cases readAttribute_outcome id b t seen a with
  | missing _ read => exact read ▸ first.report _ _ named
  | lost _ _ read => exact read ▸ first
  | stored _ inserted read =>
    refine read ▸ first.reports fun b i hi hb => ?_
    rw [Tree.insertParsed_detail inserted i hi]
    exact hb.report _ _ named

theorem readAttributes {s : Builder × Tree × List String} (h : s.1.Voiced source tokens)
    (id : NodeId) {attributes : List StagedAttribute} (plain : ∀ a ∈ attributes, OneLine a.name) :
    (attributes.foldl (Builder.readAttribute id) s).1.Voiced source tokens := by
  induction attributes generalizing s with
  | nil => exact h
  | cons a attributes ih =>
    obtain ⟨here, later⟩ := List.forall_mem_cons.mp plain
    exact ih (h.readAttribute id here) later

theorem placing (h : b.Voiced source tokens) (t : Tree) {e : StagedElement} (plain : OneLine e.tag) :
    (b.placing t e).Voiced source tokens :=
  h.reports fun b i hi hb => hb.report i.kind e.span (by
    rintro _ ⟨⟩
    exact oneLine_checkPlacement plain _ i hi)

theorem finalize (h : b.Voiced source tokens) (t : Tree) {e : StagedElement} (lettered : e.Lettered)
    (selfClosing : Bool) : (b.finalize t e selfClosing).1.Voiced source tokens := by
  have plain : OneLine e.tag := .of_isName lettered.tag
  have placed := h.placing t plain
  cases b.finalize_outcome t e selfClosing with
  | skipped _ made => exact made ▸ h.push plain selfClosing
  | refused refused made =>
    refine made ▸ (h.report _ e.span ?_).push plain selfClosing
    rintro _ ⟨⟩
    exact oneLine_refusal plain refused
  | lost _ _ made => exact made ▸ placed.push plain selfClosing
  | @added t1 id _ _ made =>
    have rooted : Voiced source tokens { b.placing t e with sawRoot := true } :=
      ⟨placed.staged, placed.stack, placed.told⟩
    have filled := @readAttributes source tokens (_, t1.setSpan id (some e.span), []) rooted id
      e.attributes fun a ha => .of_isName (lettered.named a ha)
    exact made ▸ filled.push plain selfClosing

theorem abandon (h : b.Voiced source tokens) (t : Tree) : (b.abandon t).1.Voiced source tokens := by
  have closed : Voiced source tokens { b with tagOpen := none, staged := none } :=
    ⟨by simp, h.stack, h.told⟩
  cases b.abandon_outcome t with
  | @element e staged broken =>
    have lettered := h.staged e staged
    have words : OneLine "`<" ∧ OneLine "` is missing its closing `>`" := by decide
    have worded : ∀ s ∈ some s!"`<{e.tag}` is missing its closing `>`", OneLine s := by
      rintro _ ⟨⟩
      exact (words.1.append (.of_isName lettered.tag)).append words.2
    exact broken ▸ (closed.report .syntaxError e.span worded).finalize t lettered true
  | nothing _ _ broken => exact broken ▸ closed
  | nameless _ _ detail broken =>
    refine broken ▸ closed.report _ _ ?_
    rintro _ ⟨⟩
    subst detail
    split <;> decide

/-! ## The other tokens -/

theorem close (h : b.Voiced source tokens) (stop : Text.Range) :
    (b.close stop).Voiced source tokens := by
  cases stack : b.stack with
  | nil => exact close_nil stack stop ▸ h.report _ _ (by simp)
  | cons o outer =>
    have plain := h.stack
    rw [stack] at plain
    exact close_cons stack stop ▸ ⟨h.staged, (List.forall_mem_cons.mp plain).2, h.told⟩

theorem past (h : b.Voiced source tokens) (selfClosing : Bool) : (b.past selfClosing).Voiced source tokens :=
  ⟨h.staged, h.stack, h.told⟩

theorem endTag (h : b.Voiced source tokens) (t : Tree) (span : Text.Range) (selfClosing : Bool) :
    (b.endTag t span selfClosing).1.Voiced source tokens := by
  cases b.endTag_outcome t span selfClosing with
  | close _ ended => exact ended ▸ (h.close span).past selfClosing
  | element _ staged ended =>
    have unstaged : Voiced source tokens { b with staged := none } := ⟨by simp, h.stack, h.told⟩
    exact ended ▸ (unstaged.finalize t (h.staged _ staged) selfClosing).past selfClosing
  | nameless _ _ _ ended =>
    refine ended ▸ (h.report _ _ ?_).past selfClosing
    rintro _ ⟨⟩
    decide
  | nothing _ _ _ ended => exact ended ▸ h.past selfClosing

/-- Only the start tag that is read changes. -/
theorem stage (h : b.Voiced source tokens) {e : StagedElement} (lettered : e.Lettered) :
    Voiced source tokens { b with staged := some e } := by
  refine ⟨?_, h.stack, h.told⟩
  rintro _ ⟨⟩
  exact lettered

theorem readValue (h : b.Voiced source tokens) (span : Text.Range) (raw : String) :
    (b.readValue span raw).Voiced source tokens := by
  cases b.readValue_outcome span raw with
  | unstaged _ read => exact read.symm ▸ h
  | taken staged last read => exact read ▸ h.stage ((h.staged _ staged).takeValue last _)
  | stray _ read =>
    refine read ▸ h.report _ _ ?_
    rintro _ ⟨⟩
    decide

theorem readText (h : b.Voiced source tokens) (t : Tree) (span : Text.Range) (text : List Char) :
    (b.readText t span text).1.Voiced source tokens := by
  cases b.readText_outcome t span text with
  | ignored read => exact read ▸ h
  | unexpected read => exact read ▸ h.report _ _ (by simp)
  | stored _ _ _ read => exact read ▸ h

theorem feed (h : b.Voiced source tokens) (t : Tree) {token : Token} (mem : token ∈ tokens)
    (fits : (lexemeOf source token).Fits) :
    (b.feed t ⟨.textToTree⟩ source token).1.Voiced source tokens := by
  cases b.feed_outcome t source token with
  | starts _ fed =>
    have broken := h.abandon t
    exact fed ▸ ⟨broken.staged, broken.stack, broken.told⟩
  | tagName kind _ _ fed => exact fed ▸ h.stage ⟨isName_slice fits (.inl kind), by simp⟩
  | attributeName kind staged fed =>
    exact fed ▸ h.stage ((h.staged _ staged).extend (isName_slice fits (.inr kind)))
  | attributeValue fed => exact fed ▸ h.readValue _ _
  | ends _ fed => exact fed ▸ h.endTag t _ _
  | text fed => exact fed ▸ h.readText t _ _
  | error kind fed =>
    -- the only report that quotes the text
    refine fed ▸ ⟨h.staged, h.stack, fun d hd => ?_⟩
    rcases List.mem_append.mp hd with old | new
    · exact h.told d old
    · exact .inr ⟨token, mem, kind, List.mem_singleton.mp new⟩
  | passed fed => exact fed ▸ h

theorem readAll {s : Builder × Tree} (h : s.1.Voiced source tokens) {rest : List Token}
    (sub : rest ⊆ tokens) (fits : ∀ token ∈ tokens, (lexemeOf source token).Fits) :
    (Builder.readAll source s rest).1.Voiced source tokens :=
  List.foldlRecOn (motive := fun s : Builder × Tree => s.1.Voiced source tokens) rest _ h
    fun s kept token mem => kept.feed s.2 (sub mem) (fits token (sub mem))

/-- The elements that were never closed are reported with their tags. -/
theorem finish (h : b.Voiced source tokens) (t : Tree) :
    ∀ d ∈ (b.finish t ⟨.textToTree⟩).1, d.Told source tokens := by
  have abandoned := h.abandon t
  have emptied : Voiced source tokens { (b.abandon t).1 with stack := [] } :=
    ⟨abandoned.staged, by simp, abandoned.told⟩
  have reported := @reports source tokens _ _
    (fun b (o : OpenElement) => b.report .unclosedTag o.span o.tag) (b.abandon t).1.stack.reverse
    (fun b o ho hb => hb.report .unclosedTag o.span (by
      rintro _ ⟨⟩
      exact abandoned.stack o (List.mem_reverse.mp ho))) emptied
  rw [finish_fst]
  exact reported.told

end Voiced

end Builder

/-- All that is reported about a text is on one line, but for what it quotes. -/
theorem Document.told_readTokens (t : Tree) (source : String) (settings : Settings) :
    ∀ d ∈ (readTokens t (lex source) source settings).2, d.Told source (lex source) := by
  have start : Builder.Voiced source (lex source) { limit := settings.nestingLimit } :=
    ⟨by simp, by simp, by simp⟩
  have last := Builder.Voiced.readAll
    (s := ({ limit := settings.nestingLimit }, t.clear)) start (List.Subset.refl _) fits_of_mem_lex
  exact last.finish _

end QueryMarkup
