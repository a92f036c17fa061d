import QueryMarkup.Proofs.Document.Containment
import QueryMarkup.Proofs.Document.Findings
import QueryMarkup.Proofs.Document.Messages
import QueryMarkup.Proofs.Document.Tolerance

/-!
# Line breaks in compact diagnostics

The checks of the nodes speak of tags and names as well, and of values. A value can have line breaks,
in the text as it stands or as references to characters, and where it is not what the attribute is
declared to hold it is quoted. So compact diagnostics have one line each, but for those that quote
such a value or a piece of the text that is no word of markup (`print_check`).
-/
namespace QueryMarkup

open Markup

/-- The value is what the text gives to an attribute. -/
def Taken (source : String) (tokens : List Token) (value : String) : Prop :=
  ∃ token ∈ tokens, token.kind = .attributeValue ∧
    value = valueOf (Text.slice source token.span).toList

/-- What is said about a value that is not of a kind. -/
def ValueKind.complaint (kind : ValueKind) (name value : String) : String :=
  s!"`{name}` must be {kind.describe}, found `{value}`"

/-! ## Findings -/

/-- The name of the attribute that a rule looks at. -/
def Watch.name : Watch → String
  | own name | root name => name

theorem Kind.oneLine_rules (kind : Kind) :
    ∀ rule ∈ kind.rules, ∀ w ∈ rule.watches, OneLine w.name := by
  cases kind <;> decide

/-- The values that are all that is accepted. -/
def ValueKind.choices : ValueKind → List String
  | choice values => values
  | text | bool | number => []

theorem Kind.oneLine_choices (kind : Kind) :
    ∀ spec ∈ kind.attributes, ∀ value ∈ spec.valueKind.choices, OneLine value := by
  cases kind <;> decide

theorem Kind.oneLine_describe (kind : Kind) :
    ∀ spec ∈ kind.attributes, OneLine spec.valueKind.describe := by
  intro spec hs
  have plain := kind.oneLine_choices spec hs
  cases declared : spec.valueKind with
  | text | bool | number => decide
  | choice values =>
    rw [declared] at plain
    have words : OneLine "one of " ∧ OneLine ", " ∧ OneLine "`" := by decide
    obtain ⟨start, sep, quote⟩ := words
    apply start.append
    apply sep.intercalate
    intro quoted hq
    obtain ⟨value, hv, rfl⟩ := List.mem_map.mp hq
    exact (quote.append (plain value hv)).append quote

theorem Kind.oneLine_mandatoryChild? (kind : Kind) :
    OneLine ((kind.mandatoryChild?.bind Kind.tag?).getD "child") := by
  cases kind <;> decide

/-- Rules speak of attributes and elements by their names. -/
theorem Rule.oneLine_issues {kind : Kind} {rule : Rule} (mem : rule ∈ kind.rules) (scope : Scope) :
    ∀ i ∈ rule.issues scope, OneLine i.message := by
  have plain := kind.oneLine_rules rule mem
  intro i hi
  cases rule with
  | requireAttribute name =>
    simp only [issues] at hi
    split at hi
    · cases hi
    · cases List.mem_singleton.mp hi
      apply DiagnosticKind.oneLine_message
      rintro _ ⟨⟩
      exact plain (.own name) List.mem_cons_self
  | requireAnyOf names =>
    simp only [issues] at hi
    split at hi
    · cases hi
    · cases List.mem_singleton.mp hi
      have words : OneLine "one of " ∧ OneLine " or " ∧ OneLine " is required" ∧ OneLine "`" := by
        decide
      obtain ⟨start, sep, stop, quote⟩ := words
      refine (start.append (sep.intercalate ?_)).append stop
      intro quoted hq
      obtain ⟨name, hn, rfl⟩ := List.mem_map.mp hq
      exact (quote.append (plain (.own name) (List.mem_map_of_mem hn))).append quote
  | aliasWhenAggregated =>
    simp only [issues] at hi
    split at hi
    · cases List.mem_singleton.mp hi
      decide
    · cases hi
  | requireChild =>
    simp only [issues] at hi
    split at hi
    · cases hi
    · cases List.mem_singleton.mp hi
      have words : OneLine "`<" ∧ OneLine ">` needs at least one `<" ∧ OneLine ">`" := by decide
      obtain ⟨start, needs, stop⟩ := words
      have tag : OneLine (scope.kind.tag?.getD "element") := by
        cases named : scope.kind.tag? with
        | none => decide
        | some tag => exact scope.kind.oneLine_tag? tag named
      exact (((start.append tag).append needs).append scope.kind.oneLine_mandatoryChild?).append stop

/-- What is found about an attribute is on one line, or it quotes a value that is not. -/
theorem Attribute.said_issuesAnew (kind : Kind) {name : String} (plain : OneLine name)
    (value : String) : ∀ i ∈ issuesAnew kind name value, OneLine i.message ∨
      name ≠ contentName ∧ i.kind = .invalidValue ∧ ¬ OneLine value ∧
        ∃ declared : ValueKind, i.message = declared.complaint name value := by
  intro i hi
  have found := hi
  unfold issuesAnew at hi
  have quote : OneLine "`" := by decide
  split at hi
  · rename_i spec declared
    unfold ValueKind.issues at hi
    split at hi
    · cases hi
    · cases List.mem_singleton.mp hi
      by_cases line : OneLine value
      · have words : OneLine "` must be " ∧ OneLine ", found `" := by decide
        have describe := kind.oneLine_describe spec (Kind.attribute?_eq_some declared).1
        left
        exact (((((quote.append plain).append words.1).append describe).append words.2).append
          line).append quote
      · refine .inr ⟨?_, rfl, line, spec.valueKind, rfl⟩
        rintro rfl
        have accepts : kind.acceptsContent = true := Option.isSome_iff_exists.mpr ⟨spec, declared⟩
        rw [Kind.issuesAnew_content accepts] at found
        cases found
  · cases List.mem_singleton.mp hi
    left
    unfold undeclaredIssue
    split
    · rename_i tag tagged
      have words : OneLine "` is not a known attribute of `<" ∧ OneLine ">`" := by decide
      exact (((quote.append plain).append words.1).append (kind.oneLine_tag? tag tagged)).append
        words.2
    · apply DiagnosticKind.oneLine_message
      rintro _ ⟨⟩
      exact plain

/-- What is found about a node is on one line, or it quotes a value of the node that is not. -/
theorem Node.said_issuesNow {n : Node} {aggregate : String} (fitted : n.Fitted)
    (fresh : n.FreshBut ⟨0⟩ "" [] aggregate) (schema : n.schema = none)
    (lettered : n.entry.Lettered) : ∀ i ∈ n.issuesNow, OneLine i.message ∨
      i.kind = .invalidValue ∧ ∃ p ∈ n.pairs, p.1 ≠ contentName ∧ ¬ OneLine p.2 ∧
        ∃ declared : ValueKind, i.message = declared.complaint p.1 p.2 := by
  intro i hi
  rw [n.issuesNow_eq fitted fresh schema, issuesAnew] at hi
  rcases List.mem_append.mp hi with ruled | valued
  · obtain ⟨rule, hr, hi⟩ := List.mem_flatMap.mp ruled
    exact .inl (rule.oneLine_issues hr _ i hi)
  · obtain ⟨name, hm, hi⟩ := List.mem_flatMap.mp valued
    obtain ⟨a, ha, rfl⟩ := List.mem_map.mp hm
    have plain : OneLine a.name := by
      rcases lettered.named a.base (List.mem_map_of_mem ha) with named | ⟨content, -⟩
      · exact .of_isName named
      · have same : a.name = contentName := content
        rw [same]
        decide
    rcases Attribute.said_issuesAnew n.kind plain (n.value a.name) i hi with line | quotes
    · exact .inl line
    · obtain ⟨other, kind, broken, declared, message⟩ := quotes
      have filled : (!(n.value a.name).isEmpty) = true := by
        rw [Bool.not_eq_true', String.isEmpty_eq_false_iff]
        rintro empty
        rw [empty] at broken
        exact broken List.not_mem_nil
      have pair : (a.name, n.value a.name) ∈ n.pairs :=
        List.mem_filter.mpr ⟨List.mem_map_of_mem ha, filled⟩
      exact .inr ⟨kind, _, pair, other, broken, declared, message⟩

/-! ## Where values come from -/

/-- All values of a start tag are taken from the text. -/
def StagedElement.Draws (source : String) (tokens : List Token) (e : StagedElement) : Prop :=
  ∀ a ∈ e.attributes, ∀ value ∈ a.value, Taken source tokens value

theorem decode_unquote {source : String} {token : Token} (kind : token.kind = .attributeValue)
    (fits : (lexemeOf source token).Fits) :
    String.ofList (Text.decodeChars (Builder.unquote (Text.slice source token.span).toList)) =
      valueOf (Text.slice source token.span).toList := by
  obtain ⟨q, inner, quote, chars⟩ : ∃ q inner, (q = '"' ∨ q = '\'') ∧
      (Text.slice source token.span).toList = q :: (inner ++ [q]) := by
    simpa only [lexemeOf, Lexeme.Fits, kind] using fits
  rw [chars, Builder.unquote_quoted quote]
  simp [valueOf]

/-- A value is stored as the text has it. -/
theorem StagedElement.Draws.takeValue {source : String} {tokens : List Token} {e : StagedElement}
    (h : e.Draws source tokens) {token : Token} (mem : token ∈ tokens)
    (kind : token.kind = .attributeValue) (fits : (lexemeOf source token).Fits) :
    (e.takeValue (Text.slice source token.span)).Draws source tokens := by
  unfold StagedElement.takeValue
  split
  · intro a ha value hv
    rcases List.mem_append.mp ha with old | new
    · exact h a (List.dropLast_subset _ old) value hv
    · cases List.mem_singleton.mp new
      cases hv
      exact ⟨token, mem, kind, decode_unquote kind fits⟩
  · exact h

namespace Gathered

/-- All values of all start tags are taken from the text. -/
structure Draws (source : String) (tokens : List Token) (g : Gathered) : Prop where
  staged : ∀ e ∈ g.staged, e.Draws source tokens
  elements : ∀ e ∈ g.elements, e.start.Draws source tokens

variable {source : String} {tokens : List Token} {g : Gathered}

theorem Draws.enter (h : g.Draws source tokens) {start : StagedElement}
    (drawn : start.Draws source tokens) (selfClosing : Bool) :
    (g.enter start selfClosing).Draws source tokens := by
  refine ⟨h.staged, fun e he => ?_⟩
  rcases List.mem_append.mp he with old | new
  · exact h.elements e old
  · cases List.mem_singleton.mp new
    exact drawn

theorem Draws.abandon (h : g.Draws source tokens) : g.abandon.Draws source tokens := by
  have closed : Draws source tokens { g with inTag := false, staged := none } :=
    ⟨by simp, h.elements⟩
  unfold Gathered.abandon
  dsimp only
  split
  · rename_i start staged
    exact closed.enter (h.staged start staged) true
  · exact closed

theorem Draws.endTag (h : g.Draws source tokens) (selfClosing : Bool) :
    (g.endTag selfClosing).Draws source tokens := by
  have left : (g.leave selfClosing).Draws source tokens := by
    unfold Gathered.leave
    split
    · exact ⟨h.staged, h.elements⟩
    · split
      · rename_i start staged
        have unstaged : Draws source tokens { g with staged := none } := ⟨by simp, h.elements⟩
        exact unstaged.enter (h.staged start staged) selfClosing
      · exact h
  exact ⟨left.staged, left.elements⟩

theorem Draws.next (h : g.Draws source tokens) {token : Token} (mem : token ∈ tokens)
    (fits : (lexemeOf source token).Fits) : (g.next source token).Draws source tokens := by
  unfold Gathered.next
  dsimp only
  cases kind : token.kind with
  | startTag => exact ⟨h.abandon.staged, h.abandon.elements⟩
  | startCloseTag => exact ⟨h.abandon.staged, h.abandon.elements⟩
  | tagName =>
    dsimp only
    split
    · refine ⟨?_, h.elements⟩
      rintro _ ⟨⟩
      exact fun a ha => nomatch ha
    · exact h
  | attributeName =>
    refine ⟨fun e he => ?_, h.elements⟩
    obtain ⟨e, staged, rfl⟩ := Option.map_eq_some_iff.mp he
    intro a ha value hv
    rcases List.mem_append.mp ha with old | new
    · exact h.staged e staged a old value hv
    · cases List.mem_singleton.mp new
      cases hv
  | attributeValue =>
    refine ⟨fun e he => ?_, h.elements⟩
    obtain ⟨e, staged, rfl⟩ := Option.map_eq_some_iff.mp he
    exact (h.staged e staged).takeValue mem kind fits
  | endTag => exact h.endTag false
  | selfCloseEndTag => exact h.endTag true
  | text =>
    obtain ⟨elements, -, -, -, staged⟩ := g.readText_keeps (Text.slice source token.span).toList
    exact ⟨staged ▸ h.staged, elements ▸ h.elements⟩
  | error | equals | whitespace | comment => exact h

theorem draws_ofTokens (fits : ∀ token ∈ tokens, (lexemeOf source token).Fits) :
    (ofTokens source tokens).Draws source tokens :=
  (List.foldlRecOn (motive := fun g : Gathered => g.Draws source tokens) tokens (next source)
    ⟨by simp, by simp⟩ fun _ h token mem => h.next mem (fits token mem)).abandon

end Gathered

/-! ## What an element says -/

namespace Entry

variable {e : Entry} {p : String × String}

theorem mem_pairs_assignAll {pairs : List (String × String)}
    (hp : p ∈ (e.assignAll pairs).sketch.pairs) : p ∈ pairs ∨ p ∈ e.sketch.pairs := by
  induction pairs generalizing e with
  | nil => exact .inr hp
  | cons q pairs ih =>
    rcases ih hp with later | here
    · exact .inl (List.mem_cons_of_mem _ later)
    · rcases mem_pairs_assign here with ⟨rfl, -⟩ | old
      · exact .inl List.mem_cons_self
      · exact .inr old

theorem mem_pairs_addTexts {texts : List String}
    (hp : p ∈ (texts.foldl (fun x text => x.addText text) e).sketch.pairs) :
    p.1 = contentName ∨ p ∈ e.sketch.pairs := by
  induction texts generalizing e with
  | nil => exact .inr hp
  | cons text texts ih =>
    rcases ih hp with content | here
    · exact .inl content
    · rcases mem_pairs_assign here with ⟨rfl, -⟩ | old
      · exact .inl rfl
      · exact .inr old

end Entry

/-- An element says what its start tag gives, and its text. -/
theorem Element.mem_pairs_entry {fs : List Fate} {texts : List (Nat × String)} {k : Nat} {e : Element}
    {p : String × String} (hp : p ∈ (e.entry fs texts k).sketch.pairs) :
    p.1 = contentName ∨ p ∈ e.start.pairs := by
  rcases Entry.mem_pairs_addTexts hp with content | here
  · exact .inl content
  · rcases Entry.mem_pairs_assignAll here with given | none
    · exact .inr given
    · cases none

/-- A diagnostic about a node has the message of a finding. -/
theorem Session.issue_of_mem_nodeDiagnostics {n : Node} {d : Diagnostic}
    (hd : d ∈ nodeDiagnostics n) : ∃ i ∈ n.issuesNow, d.kind = i.kind ∧ d.message = i.message := by
  unfold nodeDiagnostics at hd
  cases place : n.span with
  | none =>
    rw [place] at hd
    cases hd
  | some span =>
    rw [place] at hd
    rcases List.mem_append.mp hd with own | hd
    · obtain ⟨i, hi, rfl⟩ := List.mem_map.mp own
      exact ⟨i, List.mem_append_left _ hi, rfl, rfl⟩
    · obtain ⟨a, ha, hd⟩ := List.mem_flatMap.mp hd
      obtain ⟨i, hi, rfl⟩ := List.mem_map.mp hd
      exact ⟨i, List.mem_append_right _ (List.mem_flatMap.mpr ⟨a, ha, hi⟩), rfl, rfl⟩

namespace Document

variable (text : String) (settings : Settings)

/-- What an element says beside its text is taken from the markup. -/
theorem taken_readTokens : ∀ e ∈ (readTokens .empty (lex text) text settings).1.entries,
    ∀ p ∈ e.sketch.pairs, p.1 = contentName ∨ Taken text (lex text) p.2 := by
  intro x hx p hp
  obtain ⟨k, e, here, -, rfl⟩ :=
    ((holds_readTokens .empty (lex text) text settings).1.entries x).mp hx
  rcases e.mem_pairs_entry hp with content | given
  · exact .inl content
  · obtain ⟨a, ha, pair⟩ := List.mem_filterMap.mp given
    obtain ⟨value, hv, rfl⟩ := Option.map_eq_some_iff.mp pair
    have drawn := (Gathered.draws_ofTokens fits_of_mem_lex).elements e (List.mem_of_getElem? here)
    exact .inr (drawn a ha value hv)

theorem schemaless_opened : (opened text settings).tree.Schemaless := by
  have read : (readTokens .empty (lex text) text settings).1.Schemaless :=
    Tree.schemaless_invariant.readTokens (lex text) text settings ⟨rfl, by simp [Tree.nodes_clear]⟩
  rw [tree_opened, orDefault]
  split
  · have reset := Tree.schemaless_invariant.edit
      (readTokens .empty (lex text) text settings).1.quiet .reset ⟨read.desk, read.nodes⟩
    exact ⟨reset.desk, reset.nodes⟩
  · exact ⟨read.desk, read.nodes⟩

/-- So it is in an editor, where the default document says nothing. -/
theorem taken_opened : ∀ n ∈ (opened text settings).tree.nodes,
    ∀ p ∈ n.pairs, p.1 = contentName ∨ Taken text (lex text) p.2 := by
  intro n hn p hp
  have here : n.entry ∈ (opened text settings).tree.entries := List.mem_map_of_mem hn
  have pairs : n.pairs = n.entry.sketch.pairs := congrArg Sketch.pairs n.sketch_entry.symm
  rw [pairs] at hp
  rw [tree_opened, orDefault] at here
  split at here
  · have entries : n.entry ∈ (readTokens .empty (lex text) text settings).1.quiet.reset.entries := here
    rw [Tree.entries_reset] at entries
    rcases List.mem_cons.mp entries with root | entity
    · rw [root] at hp
      cases hp
    · rw [List.mem_singleton.mp entity] at hp
      cases hp
  · exact taken_readTokens text settings n.entry here p hp

/-- Everything that is found in a text is on one line, or it quotes a piece of the text that is no
word of markup, or a value that has a line break. -/
theorem line_of_mem_check : ∀ d ∈ check text settings, OneLine d.message ∨
    (∃ token ∈ lex text, token.kind = .error ∧ d = token.quote text) ∨
    (d.kind = .invalidValue ∧ ∃ token ∈ lex text, token.kind = .attributeValue ∧
      ¬ OneLine (valueOf (Text.slice text token.span).toList) ∧
      ∃ (name : String) (declared : ValueKind),
        d.message = declared.complaint name (valueOf (Text.slice text token.span).toList)) := by
  obtain ⟨recovered, current⟩ := recovered_readTokens .empty text settings
  obtain ⟨kept, current', -⟩ := recovered.quiet.orDefault current.quiet
  have schemaless := schemaless_opened text settings
  intro d hd
  rw [check_eq] at hd
  rcases List.mem_append.mp (Diagnostics.deduplicated_subset _ _ hd) with reported | found
  · rw [(opened_spec text settings).2.2] at reported
    rcases told_readTokens .empty text settings d reported with line | quotes
    · exact .inl line
    · exact .inr (.inl quotes)
  · obtain ⟨n, hn, hd⟩ := List.mem_flatMap.mp found
    obtain ⟨i, hi, kind, message⟩ := Session.issue_of_mem_nodeDiagnostics hd
    have here := hn
    rw [tree_opened] at here
    have said := Node.said_issuesNow (current'.fitted n here) (current'.fresh n here)
      (schemaless.nodes n hn) (kept.lettered n.entry (List.mem_map_of_mem here)) i hi
    rw [kind, message]
    rcases said with line | ⟨invalid, p, hp, other, broken, declared, complaint⟩
    · exact .inl line
    · obtain ⟨token, hm, value, taken⟩ := (taken_opened text settings n hn p hp).resolve_left other
      rw [taken] at broken complaint
      exact .inr (.inr ⟨invalid, token, hm, value, broken, p.1, declared, complaint⟩)

/-- Compact diagnostics of a text have one line each, and beside these only the line breaks of their
messages. Only a piece of the text that is no word of markup and a value are quoted with line
breaks, so where none of these has any there is one line for each diagnostic. -/
theorem print_check (path : Option String) (colored : Bool)
    (plain : ∀ name ∈ path, OneLine name) :
    let ds := check text settings
    let printer : Diagnostics.Printer := ⟨some text, path, colored, true⟩
    breaks (printer.print ds) = ds.length + (ds.map fun d => breaks d.message).sum ∧
      (∀ d ∈ ds, OneLine d.message ∨
        (∃ token ∈ lex text, token.kind = .error ∧ d = token.quote text) ∨
        (d.kind = .invalidValue ∧ ∃ token ∈ lex text, token.kind = .attributeValue ∧
          ¬ OneLine (valueOf (Text.slice text token.span).toList) ∧
          ∃ (name : String) (declared : ValueKind),
            d.message = declared.complaint name (valueOf (Text.slice text token.span).toList))) ∧
      ((∀ token ∈ lex text, token.kind = .error → OneLine (Text.slice text token.span)) →
        (∀ token ∈ lex text, token.kind = .attributeValue →
          OneLine (valueOf (Text.slice text token.span).toList)) →
        breaks (printer.print ds) = ds.length) := by
  intro ds printer
  have count := Diagnostics.breaks_print plain text colored ds
  have lines := line_of_mem_check text settings
  refine ⟨count, lines, fun pieces values => ?_⟩
  have none : (ds.map fun d => breaks d.message).sum = 0 := by
    apply List.sum_eq_zero_iff_forall_eq_nat.mpr
    intro k hk
    obtain ⟨d, hd, rfl⟩ := List.mem_map.mp hk
    apply oneLine_iff.mp
    rcases lines d hd with line | ⟨token, hm, error, rfl⟩ | ⟨-, token, hm, value, broken, -⟩
    · exact line
    · apply DiagnosticKind.oneLine_message
      rintro _ ⟨⟩
      have words : OneLine "unexpected `" ∧ OneLine "`" := by decide
      exact (words.1.append (pieces token hm error)).append words.2
    · exact absurd (values token hm value) broken
  rw [count, none, Nat.add_zero]

/-- A value that is not quoted, an element that is not closed, and nothing with a line break. -/
theorem print_check_run :
    let text := "<fetch top='a'><b c=d>"
    let path := some "query.xml"
    let ds := check text {}
    let printer : Diagnostics.Printer := ⟨some text, path, false, true⟩
    (∀ name ∈ path, OneLine name) ∧
      breaks (printer.print ds) = ds.length + (ds.map fun d => breaks d.message).sum ∧
      (∀ d ∈ ds, OneLine d.message ∨
        (∃ token ∈ lex text, token.kind = .error ∧ d = token.quote text) ∨
        (d.kind = .invalidValue ∧ ∃ token ∈ lex text, token.kind = .attributeValue ∧
          ¬ OneLine (valueOf (Text.slice text token.span).toList) ∧
          ∃ (name : String) (declared : ValueKind),
            d.message = declared.complaint name (valueOf (Text.slice text token.span).toList))) ∧
      breaks (printer.print ds) = ds.length := by
  intro text path ds printer
  have plain : ∀ name ∈ path, OneLine name := by decide
  obtain ⟨count, lines, one⟩ := print_check text {} path false plain
  refine ⟨plain, count, lines, one ?_ ?_⟩
  · decide +kernel
  · decide +kernel

/-- A value with a line break is quoted, and then one diagnostic takes two lines. -/
theorem print_check_broken :
    let text := "<fetch top='a&#10;b'/>"
    let printer : Diagnostics.Printer := ⟨some text, none, false, true⟩
    (check text {}).length = 1 ∧ breaks (printer.print (check text {})) = 2 := by
  intro text printer
  have found : (opened text {}).found =
      [.new .invalidValue ⟨7, 10, by decide⟩ "`top` must be an integer, found `a\nb`"] := by
    decide +kernel
  have shown : check text {} =
      [.new .invalidValue ⟨7, 10, by decide⟩ "`top` must be an integer, found `a\nb`"] := by
    have sorted : (opened text {}).found.zipIdx.mergeSort Diagnostics.prior =
        (opened text {}).found.zipIdx := by
      rw [found]
      exact List.mergeSort_singleton _
    rw [check_eq, Diagnostics.deduplicated, sorted, found]
    exact congrArg _ (List.mergeSort_singleton _)
  rw [shown]
  exact ⟨rfl, by decide +kernel⟩

end Document

end QueryMarkup
