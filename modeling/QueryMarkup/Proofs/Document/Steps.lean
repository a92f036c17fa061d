import QueryMarkup.Document.Parse

/-!
# What one step of reading does

All that each step of the builder can come to, one case for each branch, with what is known
there. What every reading keeps is proved from these cases.
-/
namespace QueryMarkup

namespace Builder

/-! ## Attributes -/

/-- Reporting issues adds their diagnostics and changes nothing else. -/
theorem foldl_report (b : Builder) (span : Text.Range) (issues : List StructuralIssue) :
    issues.foldl (fun (b : Builder) i => b.report i.kind span i.detail) b =
      { b with diagnostics :=
          b.diagnostics ++ issues.map fun i => .report i.kind span (some i.detail) } := by
  induction issues generalizing b with
  | nil => simp
  | cons i issues ih =>
    rw [List.foldl_cons, ih]
    simp [report]

/-- The builder after the name of an attribute. A name that came before is reported. -/
def named (b : Builder) (seen : List String) (a : StagedAttribute) : Builder :=
  if seen.contains a.name then b.report .duplicateAttribute a.span a.name else b

theorem readAttribute_stored {id : NodeId} {t t' : Tree} {name value : String} {issues : List StructuralIssue}
    (inserted : t.insertParsed id name value = .ok (t', issues)) (b : Builder) (seen : List String)
    (span : Text.Range) : readAttribute id (b, t, seen) ⟨name, span, some value⟩ =
      (issues.foldl (fun b i => b.report i.kind span i.detail) (b.named seen ⟨name, span, some value⟩),
        t'.setAttributeSpan id name (some span), name :: seen) := by
  simp only [readAttribute, inserted]
  rfl

/-- What an attribute of a new node comes to. -/
inductive AttributeOutcome (id : NodeId) (b : Builder) (t : Tree) (seen : List String)
    (a : StagedAttribute) : Prop where
  | missing (valueless : a.value = none) (read : readAttribute id (b, t, seen) a =
      ((b.named seen a).report .missingAttributeValue a.span a.name, t, a.name :: seen))
  | lost {value : String} {error : TreeError} (valued : a.value = some value)
      (refused : t.insertParsed id a.name value = .error error)
      (read : readAttribute id (b, t, seen) a = (b.named seen a, t, a.name :: seen))
  | stored {value : String} {t' : Tree} {issues : List StructuralIssue} (valued : a.value = some value)
      (inserted : t.insertParsed id a.name value = .ok (t', issues))
      (read : readAttribute id (b, t, seen) a =
        (issues.foldl (fun b i => b.report i.kind a.span i.detail) (b.named seen a),
          t'.setAttributeSpan id a.name (some a.span), a.name :: seen))

theorem readAttribute_outcome (id : NodeId) (b : Builder) (t : Tree) (seen : List String)
    (a : StagedAttribute) : AttributeOutcome id b t seen a := by
  obtain ⟨name, span, value⟩ := a
  cases value with
  | none => exact .missing rfl rfl
  | some value =>
    cases inserted : t.insertParsed id name value with
    | error e =>
      refine .lost rfl inserted ?_
      simp only [readAttribute, inserted]
      rfl
    | ok made => exact .stored rfl inserted (readAttribute_stored inserted b seen span)

/-! ## Elements -/

/-- The kind of the innermost open element. -/
def parentKind (b : Builder) (t : Tree) : Option Kind :=
  ((b.stack.head?.bind (·.node)).bind t.node?).map (·.kind)

/-- The builder once it was checked whether an element may be where it is. -/
def placing (b : Builder) (t : Tree) (e : StagedElement) : Builder :=
  (checkPlacement (.ofTag e.tag) e.tag (b.parentKind t)).foldl
    (fun b i => b.report i.kind e.span i.detail) b

/-- An element that is not refused and that the tree takes in. -/
theorem finalize_added {b : Builder} {t t' : Tree} {e : StagedElement} {id : NodeId}
    (accepted : b.refusal e = none)
    (added : t.addParsed (.ofTag e.tag) e.tag (b.stack.head?.bind (·.node)) = .ok (t', id))
    (selfClosing : Bool) : b.finalize t e selfClosing =
      let s := e.attributes.foldl (readAttribute id)
        ({ b.placing t e with sawRoot := true }, t'.setSpan id (some e.span), [])
      (s.1.push ⟨some id, e.tag, e.span⟩ selfClosing, s.2.1) := by
  simp only [finalize, accepted, added]
  rfl

/-- What a start tag that has ended comes to. -/
inductive ElementOutcome (b : Builder) (t : Tree) (e : StagedElement) (selfClosing : Bool) : Prop where
  /-- What is inside a skipped element is skipped. -/
  | skipped (inside : b.refusal e = some none)
      (made : b.finalize t e selfClosing = (b.push ⟨none, e.tag, e.span⟩ selfClosing, t))
  | refused {kind : DiagnosticKind} {detail : String} (refused : b.refusal e = some (some (kind, detail)))
      (made : b.finalize t e selfClosing =
        ((b.report kind e.span detail).push ⟨none, e.tag, e.span⟩ selfClosing, t))
  | lost {error : TreeError} (accepted : b.refusal e = none)
      (refused : t.addParsed (.ofTag e.tag) e.tag (b.stack.head?.bind (·.node)) = .error error)
      (made : b.finalize t e selfClosing = ((b.placing t e).push ⟨none, e.tag, e.span⟩ selfClosing, t))
  | added {t' : Tree} {id : NodeId} (accepted : b.refusal e = none)
      (added : t.addParsed (.ofTag e.tag) e.tag (b.stack.head?.bind (·.node)) = .ok (t', id))
      (made : b.finalize t e selfClosing =
        let s := e.attributes.foldl (readAttribute id)
          ({ b.placing t e with sawRoot := true }, t'.setSpan id (some e.span), [])
        (s.1.push ⟨some id, e.tag, e.span⟩ selfClosing, s.2.1))

theorem finalize_outcome (b : Builder) (t : Tree) (e : StagedElement) (selfClosing : Bool) :
    b.ElementOutcome t e selfClosing := by
  cases refused : b.refusal e with
  | some said =>
    cases said with
    | none =>
      refine .skipped refused ?_
      rw [finalize, refused]
    | some finding =>
      refine .refused refused ?_
      rw [finalize, refused]
  | none =>
    cases added : t.addParsed (.ofTag e.tag) e.tag (b.stack.head?.bind (·.node)) with
    | error err =>
      refine .lost refused added ?_
      simp only [finalize, refused, added]
      rfl
    | ok made => exact .added refused added (finalize_added refused added selfClosing)

/-! ## Tags -/

/-- What it comes to that a tag breaks off. -/
inductive BreakOutcome (b : Builder) (t : Tree) : Prop where
  | element {e : StagedElement} (staged : b.staged = some e) (broken : b.abandon t =
      (({ b with tagOpen := none, staged := none } : Builder).report .syntaxError e.span
        s!"`<{e.tag}` is missing its closing `>`").finalize t e true)
  /-- No tag is read. -/
  | nothing (staged : b.staged = none) (tagOpen : b.tagOpen = none)
      (broken : b.abandon t = ({ b with tagOpen := none, staged := none }, t))
  | nameless {opening : Text.Range} {detail : String} (staged : b.staged = none)
      (tagOpen : b.tagOpen = some opening)
      (detail_eq : detail = if b.phase = .closing then "close tag is missing its `>`"
        else "`<` is not followed by a tag name")
      (broken : b.abandon t = (({ b with tagOpen := none, staged := none } : Builder).report .syntaxError
        opening detail, t))

theorem abandon_outcome (b : Builder) (t : Tree) : b.BreakOutcome t := by
  cases staged : b.staged with
  | some e =>
    refine .element staged ?_
    rw [abandon, staged]
  | none =>
    cases tagOpen : b.tagOpen with
    | none =>
      refine .nothing staged tagOpen ?_
      rw [abandon, staged, tagOpen]
    | some opening =>
      refine .nameless staged tagOpen rfl ?_
      rw [abandon, staged, tagOpen]

theorem close_nil {b : Builder} (closed : b.stack = []) (stop : Text.Range) :
    b.close stop = b.report .unexpectedCloseTag ((b.tagOpen.map (·.cover stop)).getD stop) := by
  rw [close, closed]

theorem close_cons {b : Builder} {o : OpenElement} {outer : List OpenElement}
    (opened : b.stack = o :: outer) (stop : Text.Range) : b.close stop = { b with stack := outer } := by
  rw [close, opened]

/-- A builder that has read a tag to its end. -/
def past (b : Builder) (selfClosing : Bool) : Builder :=
  { b with
    tagOpen := none
    phase := if selfClosing then .flat else if b.phase = .closing then .opening else b.phase }

theorem phase_past (b : Builder) (selfClosing : Bool) : (b.past selfClosing).phase ≠ .closing := by
  cases selfClosing with
  | true => simp [past]
  | false =>
    simp only [past, Bool.false_eq_true, ↓reduceIte]
    split
    · simp
    · assumption

/-- What the end of a tag comes to. -/
inductive EndOutcome (b : Builder) (t : Tree) (span : Text.Range) (selfClosing : Bool) : Prop where
  | close (phase : b.phase = .closing)
      (ended : b.endTag t span selfClosing = ((b.close span).past selfClosing, t))
  | element {e : StagedElement} (phase : b.phase ≠ .closing) (staged : b.staged = some e)
      (ended : b.endTag t span selfClosing =
        let s := ({ b with staged := none } : Builder).finalize t e selfClosing
        (s.1.past selfClosing, s.2))
  | nameless {opening : Text.Range} (phase : b.phase ≠ .closing) (staged : b.staged = none)
      (tagOpen : b.tagOpen = some opening)
      (ended : b.endTag t span selfClosing =
        ((b.report .syntaxError (opening.cover span) "tag has no name").past selfClosing, t))
  /-- No tag is read. -/
  | nothing (phase : b.phase ≠ .closing) (staged : b.staged = none) (tagOpen : b.tagOpen = none)
      (ended : b.endTag t span selfClosing = (b.past selfClosing, t))

theorem endTag_outcome (b : Builder) (t : Tree) (span : Text.Range) (selfClosing : Bool) :
    b.EndOutcome t span selfClosing := by
  by_cases phase : b.phase = .closing
  · refine .close phase ?_
    rw [endTag, if_pos phase]
    rfl
  · cases staged : b.staged with
    | some e =>
      refine .element phase staged ?_
      rw [endTag, if_neg phase, staged]
      rfl
    | none =>
      cases tagOpen : b.tagOpen with
      | some opening =>
        refine .nameless phase staged tagOpen ?_
        rw [endTag, if_neg phase, staged, tagOpen]
        rfl
      | none =>
        refine .nothing phase staged tagOpen ?_
        rw [endTag, if_neg phase, staged, tagOpen]
        rfl

/-! ## Values and text -/

/-- What a value comes to. -/
inductive ValueOutcome (b : Builder) (span : Text.Range) (raw : String) : Prop where
  | unstaged (staged : b.staged = none) (read : b.readValue span raw = b)
  /-- The last attribute waits for a value. -/
  | taken {e : StagedElement} {name : String} {place : Text.Range} (staged : b.staged = some e)
      (last : e.attributes.getLast? = some ⟨name, place, none⟩)
      (read : b.readValue span raw = { b with staged := some { e with
        attributes := e.attributes.dropLast ++
          [⟨name, place, some (.ofList (Text.decodeChars (unquote raw.toList)))⟩] } })
  | stray {e : StagedElement} (staged : b.staged = some e)
      (read : b.readValue span raw = b.report .syntaxError span "value without an attribute name")

theorem readValue_outcome (b : Builder) (span : Text.Range) (raw : String) : b.ValueOutcome span raw := by
  cases staged : b.staged with
  | none =>
    refine .unstaged staged ?_
    rw [readValue, staged]
  | some e =>
    cases last : e.attributes.getLast? with
    | none =>
      refine .stray staged ?_
      simp only [readValue, staged, last]
    | some a =>
      obtain ⟨name, place, value⟩ := a
      cases value with
      | none =>
        refine .taken staged last ?_
        simp only [readValue, staged, last]
      | some value =>
        refine .stray staged ?_
        simp only [readValue, staged, last]

/-- What a text comes to. -/
inductive TextOutcome (b : Builder) (t : Tree) (span : Text.Range) (text : List Char) : Prop where
  /-- It is blank or in a skipped element. -/
  | ignored (read : b.readText t span text = (b, t))
  /-- No text may be where it is. It is reported without the blanks around it. -/
  | unexpected (read : b.readText t span text = (b.report .unexpectedText (.ofLength
      (span.start + (Text.byteLength text - Text.byteLength (Text.trimStart text)))
      (Text.byteLength (Text.trim text))), t))
  | stored {id : NodeId} {n : Node} {value : String} {t' : Tree} {issues : List StructuralIssue}
      (found : t.node? id = some n) (accepts : n.kind.acceptsContent = true)
      (inserted : t.insertParsed id contentName value = .ok (t', issues))
      (read : b.readText t span text = (b, t'))

theorem readText_outcome (b : Builder) (t : Tree) (span : Text.Range) (text : List Char) :
    b.TextOutcome t span text := by
  generalize read : b.readText t span text = s
  have branch := read
  unfold readText at branch
  dsimp only at branch
  split at branch
  · exact .ignored (read.trans branch.symm)
  · split at branch
    · exact .unexpected (read.trans branch.symm)
    · exact .ignored (read.trans branch.symm)
    · split at branch
      · exact .unexpected (read.trans branch.symm)
      · rename_i found
        split at branch
        · rename_i accepts
          split at branch
          · rename_i inserted
            exact .stored found accepts inserted (read.trans branch.symm)
          · exact .ignored (read.trans branch.symm)
        · exact .unexpected (read.trans branch.symm)

/-! ## Tokens -/

section
variable {b : Builder} {t : Tree} {source : String} {token : Token}

theorem feed_start (h : token.kind = .startTag) : b.feed t ⟨.textToTree⟩ source token =
    ({ (b.abandon t).1 with tagOpen := some token.span, phase := .opening }, (b.abandon t).2) := by
  simp [feed, h, Coordinator.acceptsTokens]

theorem feed_startClose (h : token.kind = .startCloseTag) : b.feed t ⟨.textToTree⟩ source token =
    ({ (b.abandon t).1 with tagOpen := some token.span, phase := .closing }, (b.abandon t).2) := by
  simp [feed, h, Coordinator.acceptsTokens]

theorem feed_tagName (h : token.kind = .tagName) (phase : b.phase ≠ .closing)
    (tagOpen : b.tagOpen.isSome = true) : b.feed t ⟨.textToTree⟩ source token =
      ({ b with staged := some ⟨Text.slice source token.span, token.span, []⟩ }, t) := by
  simp [feed, h, Coordinator.acceptsTokens, phase, tagOpen]

/-- A name without a start tag to it. -/
theorem feed_tagName_apart (h : token.kind = .tagName)
    (apart : ¬ (b.phase ≠ .closing ∧ b.tagOpen.isSome = true)) :
    b.feed t ⟨.textToTree⟩ source token = (b, t) := by
  simp [feed, h, Coordinator.acceptsTokens, apart]

theorem feed_tagName_closing (h : token.kind = .tagName) (phase : b.phase = .closing) :
    b.feed t ⟨.textToTree⟩ source token = (b, t) :=
  feed_tagName_apart h fun opens => opens.1 phase

theorem feed_attributeName {e : StagedElement} (h : token.kind = .attributeName)
    (staged : b.staged = some e) : b.feed t ⟨.textToTree⟩ source token =
      ({ b with staged := some { e with
          attributes := e.attributes ++ [⟨Text.slice source token.span, token.span, none⟩] } }, t) := by
  simp [feed, h, Coordinator.acceptsTokens, staged]

theorem feed_attributeName_unstaged (h : token.kind = .attributeName) (staged : b.staged = none) :
    b.feed t ⟨.textToTree⟩ source token = (b, t) := by
  simp [feed, h, Coordinator.acceptsTokens, staged]

theorem feed_attributeValue (h : token.kind = .attributeValue) :
    b.feed t ⟨.textToTree⟩ source token =
      (b.readValue token.span (Text.slice source token.span), t) := by
  simp [feed, h, Coordinator.acceptsTokens]

theorem feed_endTag (h : token.kind = .endTag) :
    b.feed t ⟨.textToTree⟩ source token = b.endTag t token.span false := by
  simp [feed, h, Coordinator.acceptsTokens]

theorem feed_selfCloseEndTag (h : token.kind = .selfCloseEndTag) :
    b.feed t ⟨.textToTree⟩ source token = b.endTag t token.span true := by
  simp [feed, h, Coordinator.acceptsTokens]

theorem feed_text (h : token.kind = .text) : b.feed t ⟨.textToTree⟩ source token =
    b.readText t token.span (Text.slice source token.span).toList := by
  simp [feed, h, Coordinator.acceptsTokens]

theorem feed_error (h : token.kind = .error) : b.feed t ⟨.textToTree⟩ source token =
    (b.report .syntaxError token.span s!"unexpected `{Text.slice source token.span}`", t) := by
  simp [feed, h, Coordinator.acceptsTokens]

theorem feed_quiet (h : token.kind = .equals ∨ token.kind = .whitespace ∨ token.kind = .comment) :
    b.feed t ⟨.textToTree⟩ source token = (b, t) := by
  rcases h with h | h | h <;> simp [feed, h, Coordinator.acceptsTokens]

end

/-- What a token comes to while tokens are read. -/
inductive TokenOutcome (b : Builder) (t : Tree) (source : String) (token : Token) : Prop where
  /-- A tag starts. The one that was read breaks off. -/
  | starts {phase : Phase} (kind : token.kind = .startTag ∨ token.kind = .startCloseTag)
      (fed : b.feed t ⟨.textToTree⟩ source token =
        ({ (b.abandon t).1 with tagOpen := some token.span, phase }, (b.abandon t).2))
  | tagName (kind : token.kind = .tagName) (phase : b.phase ≠ .closing) (tagOpen : b.tagOpen.isSome = true)
      (fed : b.feed t ⟨.textToTree⟩ source token =
        ({ b with staged := some ⟨Text.slice source token.span, token.span, []⟩ }, t))
  | attributeName {e : StagedElement} (kind : token.kind = .attributeName) (staged : b.staged = some e)
      (fed : b.feed t ⟨.textToTree⟩ source token = ({ b with staged := some { e with
        attributes := e.attributes ++ [⟨Text.slice source token.span, token.span, none⟩] } }, t))
  | attributeValue (fed : b.feed t ⟨.textToTree⟩ source token =
      (b.readValue token.span (Text.slice source token.span), t))
  | ends {selfClosing : Bool} (kind : token.kind = .endTag ∨ token.kind = .selfCloseEndTag)
      (fed : b.feed t ⟨.textToTree⟩ source token = b.endTag t token.span selfClosing)
  | text (fed : b.feed t ⟨.textToTree⟩ source token =
      b.readText t token.span (Text.slice source token.span).toList)
  | error (kind : token.kind = .error) (fed : b.feed t ⟨.textToTree⟩ source token =
      (b.report .syntaxError token.span s!"unexpected `{Text.slice source token.span}`", t))
  /-- It means nothing, or nothing where it is. -/
  | passed (fed : b.feed t ⟨.textToTree⟩ source token = (b, t))

theorem feed_outcome (b : Builder) (t : Tree) (source : String) (token : Token) :
    b.TokenOutcome t source token := by
  cases kind : token.kind with
  | startTag => exact .starts (.inl kind) (feed_start kind)
  | startCloseTag => exact .starts (.inr kind) (feed_startClose kind)
  | tagName =>
    by_cases staging : b.phase ≠ .closing ∧ b.tagOpen.isSome = true
    · exact .tagName kind staging.1 staging.2 (feed_tagName kind staging.1 staging.2)
    · exact .passed (feed_tagName_apart kind staging)
  | attributeName =>
    cases staged : b.staged with
    | none => exact .passed (feed_attributeName_unstaged kind staged)
    | some e => exact .attributeName kind staged (feed_attributeName kind staged)
  | attributeValue => exact .attributeValue (feed_attributeValue kind)
  | endTag => exact .ends (.inl kind) (feed_endTag kind)
  | selfCloseEndTag => exact .ends (.inr kind) (feed_selfCloseEndTag kind)
  | text => exact .text (feed_text kind)
  | error => exact .error kind (feed_error kind)
  | equals => exact .passed (feed_quiet (.inl kind))
  | whitespace => exact .passed (feed_quiet (.inr (.inl kind)))
  | comment => exact .passed (feed_quiet (.inr (.inr kind)))

end Builder

end QueryMarkup
