import QueryMarkup.Proofs.Document.Reports
import QueryMarkup.Proofs.Markup.Items

/-!
# Reading tag by tag

Where nothing obscures what a text says, the words of a start tag are staged and the word
that ends the tag makes an element of them; the words of a close tag close one element.
Every lemma follows the contexts of the lexer through one tag.
-/
namespace QueryMarkup

open Markup

namespace StagedElement

def names (e : StagedElement) : List String := e.attributes.map (·.name)

def values (e : StagedElement) : List String := e.attributes.filterMap (·.value)

end StagedElement

namespace Builder

/-- No tag is being read. -/
structure AtRest (b : Builder) : Prop where
  tagOpen : b.tagOpen = none
  staged : b.staged = none
  phase : b.phase ≠ .closing

section
variable {b : Builder} {t : Tree} {source : String} {token : Token}

theorem AtRest.abandon (h : b.AtRest) (t : Tree) : b.abandon t = (b, t) := by
  have same : { b with tagOpen := none, staged := none } = b := by
    obtain ⟨tagOpen, staged, _⟩ := h
    cases b
    cases tagOpen
    cases staged
    rfl
  rw [Builder.abandon, h.staged, h.tagOpen]
  exact congrArg (·, t) same

/-! ## What single tokens do -/

theorem not_clean_feed_error (h : token.kind = .error) :
    ¬ (b.feed t ⟨.textToTree⟩ source token).1.Clean := by
  rw [feed_error h]
  exact not_clean_report (by decide)

theorem feed_attributeValue_unstaged (h : token.kind = .attributeValue) (staged : b.staged = none) :
    b.feed t ⟨.textToTree⟩ source token = (b, t) := by
  rw [feed_attributeValue h, readValue, staged]

/-- The word that ends a tag. -/
theorem feed_ends (h : (lexemeOf source token).endsTag = true) :
    b.feed t ⟨.textToTree⟩ source token =
      b.endTag t token.span (token.kind == .selfCloseEndTag) := by
  simp only [Lexeme.endsTag, lexemeOf, Bool.or_eq_true, beq_iff_eq] at h
  rcases h with h | h
  · rw [feed_endTag h, h]
    rfl
  · rw [feed_selfCloseEndTag h, h]
    rfl

/-- What breaks a tag off is reported: no tag may start inside another. -/
theorem feed_breaks (h : token.kind = .startTag ∨ token.kind = .startCloseTag ∨
      token.kind = .error) (tagOpen : b.tagOpen.isSome = true) :
    ¬ (b.feed t ⟨.textToTree⟩ source token).1.Clean := by
  rcases h with h | h | h
  · rw [feed_start h]
    exact not_clean_abandon (t := t) tagOpen
  · rw [feed_startClose h]
    exact not_clean_abandon (t := t) tagOpen
  · exact not_clean_feed_error h

/-- Some tokens begin with the rest of a tag: these, and one that ends the tag. -/
structure TagEnds (source : String) (tokens inside : List Token) (last : Token)
    (rest : List Token) : Prop where
  split : tokens = inside ++ last :: rest
  ends : (lexemeOf source last).endsTag = true
  content : Laid .content (rest.map (lexemeOf source))

theorem TagEnds.cons {tokens inside rest : List Token} {last : Token}
    (h : TagEnds source tokens inside last rest) (token : Token) :
    TagEnds source (token :: tokens) (token :: inside) last rest :=
  ⟨congrArg (token :: ·) h.split, h.ends, h.content⟩

/-! ## The words of a start tag -/

theorem charsOf_append (kind : TokenKind) (xs ys : List Lexeme) :
    charsOf kind (xs ++ ys) = charsOf kind xs ++ charsOf kind ys := by
  simp [charsOf]

/-- What some words inside a start tag add to the staged element. -/
structure Stages (inside : List Lexeme) (e e' : StagedElement) : Prop where
  tag : e'.tag = e.tag
  names : e'.names = e.names ++ (charsOf .attributeName inside).map String.ofList
  values : e'.values = e.values ++ (charsOf .attributeValue inside).map valueOf
  nameless : charsOf .tagName inside = []
  goesOn : ∀ w ∈ inside, w.endsTag = false
  inner : ∀ w ∈ inside, w.Inner

theorem stages_nil (e : StagedElement) : Stages [] e e where
  tag := rfl
  names := by simp [charsOf]
  values := by simp [charsOf]
  nameless := rfl
  goesOn := by simp
  inner := by simp

theorem Stages.cons {w : Lexeme} {ws : List Lexeme} {e e' e'' : StagedElement}
    (h : Stages [w] e e') (h' : Stages ws e' e'') : Stages (w :: ws) e e'' where
  tag := h'.tag.trans h.tag
  names := by
    rw [← List.singleton_append, charsOf_append, List.map_append, ← List.append_assoc, ← h.names,
      h'.names]
  values := by
    rw [← List.singleton_append, charsOf_append, List.map_append, ← List.append_assoc, ← h.values,
      h'.values]
  nameless := by
    rw [← List.singleton_append, charsOf_append, h.nameless, h'.nameless]
    rfl
  goesOn := List.forall_mem_cons.mpr ⟨h.goesOn w List.mem_cons_self, h'.goesOn⟩
  inner := List.forall_mem_cons.mpr ⟨h.inner w List.mem_cons_self, h'.inner⟩

theorem stages_quiet {w : Lexeme} (h : w.kind = .equals ∨ w.kind = .whitespace) (e : StagedElement) :
    Stages [w] e e := by
  rcases h with h | h
  all_goals
    exact ⟨rfl, by simp [charsOf, h], by simp [charsOf, h], by simp [charsOf, h],
      by simp [Lexeme.endsTag, h], by simp [Lexeme.Inner, h]⟩

theorem stages_attributeName {w : Lexeme} (h : w.kind = .attributeName) (e : StagedElement)
    (span : Text.Range) : Stages [w] e { e with
      attributes := e.attributes ++ [⟨String.ofList w.chars, span, none⟩] } where
  tag := rfl
  names := by simp [StagedElement.names, charsOf, h]
  values := by simp [StagedElement.values, charsOf, h]
  nameless := by simp [charsOf, h]
  goesOn := by simp [Lexeme.endsTag, h]
  inner := by simp [Lexeme.Inner, h]

theorem unquote_quoted {q : Char} (hq : q = '"' ∨ q = '\'') (inner : List Char) :
    unquote (q :: (inner ++ [q])) = inner := by
  simp [unquote, hq]

/-- A quoted value becomes the value of the last name. -/
theorem readValue_stages {e : StagedElement} {w : Lexeme} {span : Text.Range}
    (staged : b.staged = some e) (kind : w.kind = .attributeValue) (fits : w.Fits)
    (clean : (b.readValue span (String.ofList w.chars)).Clean) :
    ∃ e', b.readValue span (String.ofList w.chars) = { b with staged := some e' } ∧
      Stages [w] e e' := by
  obtain ⟨q, inner, hq, chars⟩ : ∃ q inner, (q = '"' ∨ q = '\'') ∧ w.chars = q :: (inner ++ [q]) := by
    simpa only [Lexeme.Fits, kind] using fits
  cases b.readValue_outcome span (String.ofList w.chars) with
  | unstaged none =>
    rw [staged] at none
    cases none
  | stray _ read =>
    rw [read] at clean
    exact absurd clean (not_clean_report (by decide))
  | @taken _ name place held last read =>
    obtain rfl := Option.some.inj (staged.symm.trans held)
    obtain ⟨init, attributes⟩ := List.getLast?_eq_some_iff.mp last
    refine ⟨_, read, ⟨rfl, ?_, ?_, ?_, ?_, ?_⟩⟩
    · simp [StagedElement.names, attributes, charsOf, kind]
    · have value : valueOf (q :: (inner ++ [q])) = String.ofList (Text.decodeChars inner) := by
        simp [valueOf]
      simp [StagedElement.values, attributes, charsOf, kind, value, chars, unquote_quoted hq]
    · simp [charsOf, kind]
    · simp [Lexeme.endsTag, kind]
    · simp [Lexeme.Inner, kind]

/-- The words behind the name of a start tag, up to the word that ends it. -/
theorem readAll_named {tokens : List Token} {e : StagedElement} (phase : b.phase = .opening)
    (tagOpen : b.tagOpen.isSome = true) (staged : b.staged = some e)
    (laid : Laid (.tag false) (tokens.map (lexemeOf source)))
    (clean : EndsClean (readAll source (b, t) tokens)) :
    ∃ inside last rest e', TagEnds source tokens inside last rest ∧
      Stages (inside.map (lexemeOf source)) e e' ∧
      readAll source (b, t) inside = ({ b with staged := some e' }, t) := by
  induction tokens generalizing b e with
  | nil => exact absurd clean.abandon (not_clean_abandon tagOpen)
  | cons token tokens ih =>
    rw [readAll_cons] at clean
    -- a word that goes on with the tag, and how it changes the staged element
    have step {b' : Builder} {e' : StagedElement}
        (fed : b.feed t ⟨.textToTree⟩ source token = (b', t))
        (hb : b' = { b with staged := some e' }) (stages : Stages [lexemeOf source token] e e')
        (laid : Laid (.tag false) (tokens.map (lexemeOf source))) :
        ∃ inside last rest e', TagEnds source (token :: tokens) inside last rest ∧
          Stages (inside.map (lexemeOf source)) e e' ∧
          readAll source (b, t) inside = ({ b with staged := some e' }, t) := by
      subst hb
      rw [fed] at clean
      obtain ⟨inside, last, rest, e'', ends, more, read⟩ :=
        @ih { b with staged := some e' } e' phase tagOpen rfl laid clean
      refine ⟨token :: inside, last, rest, e'', ends.cons token, stages.cons more, ?_⟩
      rw [readAll_cons, fed, read]
    have same : b = { b with staged := some e } := by
      cases b
      cases staged
      rfl
    cases laid.inTag with
    | breaks kind => exact absurd clean.before (feed_breaks kind tagOpen)
    | ends ends content =>
      refine ⟨[], token, tokens, e, ⟨rfl, ends, content⟩, stages_nil e, ?_⟩
      rw [readAll_nil, ← same]
    | tagName kind first => cases first
    | attributeName kind later laid =>
      refine step (feed_attributeName kind staged) rfl ?_ laid
      have chars : Text.slice source token.span =
          String.ofList (lexemeOf source token).chars := (String.ofList_toList).symm
      rw [chars]
      exact stages_attributeName kind e token.span
    | attributeValue kind later =>
      have fed : b.feed t ⟨.textToTree⟩ source token =
          (b.readValue token.span (String.ofList (lexemeOf source token).chars), t) := by
        rw [feed_attributeValue kind, lexemeOf, String.ofList_toList]
      have read := clean.before
      rw [fed] at read
      obtain ⟨e', hb, stages⟩ := readValue_stages staged kind laid.1 read
      exact step fed hb stages later
    | equals kind laid => exact step (feed_quiet (.inl kind)) same (stages_quiet (.inl kind) e) laid
    | blank kind laid =>
      exact step (feed_quiet (.inr (.inl kind))) same (stages_quiet (.inr kind) e) laid

theorem endTag_nameless (phase : b.phase = .opening) (tagOpen : b.tagOpen.isSome = true)
    (staged : b.staged = none) (ends : (lexemeOf source token).endsTag = true) :
    ¬ (b.feed t ⟨.textToTree⟩ source token).1.Clean := by
  obtain ⟨opening, ho⟩ := Option.isSome_iff_exists.mp tagOpen
  rw [feed_ends ends]
  simp only [endTag, phase, staged, ho, reduceCtorEq, ↓reduceIte]
  exact not_clean_report (b := b) (by decide)

/-- A tag without a name in the place of the name is reported. -/
theorem not_endsClean_nameless {tokens : List Token} (phase : b.phase = .opening)
    (tagOpen : b.tagOpen.isSome = true) (staged : b.staged = none)
    (laid : Laid (.tag false) (tokens.map (lexemeOf source))) :
    ¬ EndsClean (readAll source (b, t) tokens) := by
  intro clean
  induction tokens with
  | nil => exact not_clean_abandon tagOpen clean.abandon
  | cons token tokens ih =>
    rw [readAll_cons] at clean
    have step (fed : b.feed t ⟨.textToTree⟩ source token = (b, t))
        (laid : Laid (.tag false) (tokens.map (lexemeOf source))) : False := by
      rw [fed] at clean
      exact ih laid clean
    cases laid.inTag with
    | breaks kind => exact feed_breaks kind tagOpen clean.before
    | ends ends => exact endTag_nameless phase tagOpen staged ends clean.before
    | tagName kind first => cases first
    | attributeName kind later laid => exact step (feed_attributeName_unstaged kind staged) laid
    | attributeValue kind laid => exact step (feed_attributeValue_unstaged kind staged) laid
    | equals kind laid => exact step (feed_quiet (.inl kind)) laid
    | blank kind laid => exact step (feed_quiet (.inr (.inl kind))) laid

/-- A tag's name and the words behind it are its start tag. -/
theorem startTag_named {w last : Lexeme} {inside : List Lexeme} {span : Text.Range}
    {e : StagedElement} (kind : w.kind = .tagName)
    (stages : Stages inside ⟨String.ofList w.chars, span, []⟩ e) (ends : last.endsTag = true)
    (rest : List Lexeme) : startTag (w :: (inside ++ last :: rest)) =
      ⟨e.tag, e.names, e.values, last.kind == .selfCloseEndTag⟩ := by
  have open' : ∀ v ∈ w :: inside, v.endsTag = false :=
    List.forall_mem_cons.mpr ⟨by simp [Lexeme.endsTag, kind], stages.goesOn⟩
  rw [← List.cons_append, startTag_append rest open' ends, stages.tag, stages.names,
    stages.values]
  simp [charsOf, kind, StagedElement.names, StagedElement.values]

/-- A start tag from behind its `<`: blanks, the name, the words that stage the element, and the
word that ends the tag. -/
structure Opens (source : String) (tokens blanks : List Token) (name : Token) (inside : List Token)
    (last : Token) (rest : List Token) (e : StagedElement) : Prop where
  ends : TagEnds source tokens (blanks ++ name :: inside) last rest
  blank : ∀ token ∈ blanks, token.kind = .whitespace
  named : name.kind = .tagName
  laid : Laid (.tag false) ((inside ++ last :: rest).map (lexemeOf source))
  stages : Stages (inside.map (lexemeOf source)) ⟨Text.slice source name.span, name.span, []⟩ e
  reads : ∃ (b : Builder) (t : Tree), b.Clean ∧
    b.staged = some ⟨Text.slice source name.span, name.span, []⟩ ∧
    readAll source (b, t) inside = ({ b with staged := some e }, t)

section
variable {tokens blanks inside rest : List Token} {name last : Token} {e : StagedElement}

theorem Opens.inner (h : Opens source tokens blanks name inside last rest e) :
    ∀ w ∈ (blanks ++ name :: inside).map (lexemeOf source), w.Inner := by
  rw [List.map_append, List.map_cons, List.forall_mem_append, List.forall_mem_cons]
  refine ⟨fun w hw => ?_, by simp [Lexeme.Inner, lexemeOf, h.named], h.stages.inner⟩
  obtain ⟨token, hm, rfl⟩ := List.mem_map.mp hw
  simp [Lexeme.Inner, lexemeOf, h.blank token hm]

/-- What is staged is the start tag. -/
theorem Opens.startTag_eq (h : Opens source tokens blanks name inside last rest e) :
    startTag (tokens.map (lexemeOf source)) =
      ⟨e.tag, e.names, e.values, last.kind == .selfCloseEndTag⟩ := by
  obtain ⟨⟨rfl, ends, -⟩, blank, named, -, stages, -⟩ := h
  have chars : Text.slice source name.span = String.ofList (lexemeOf source name).chars :=
    (String.ofList_toList).symm
  rw [chars] at stages
  induction blanks with
  | nil =>
    rw [List.nil_append, List.cons_append, List.map_cons, List.map_append, List.map_cons]
    exact startTag_named named stages ends _
  | cons token blanks ih =>
    rw [List.cons_append, List.cons_append, List.map_cons,
      startTag_cons_blank (blank token List.mem_cons_self)]
    exact ih fun token hm => blank token (List.mem_cons_of_mem _ hm)

end

/-- The words of a start tag, from behind its `<` up to the word that ends it. -/
theorem readAll_start {tokens : List Token} (phase : b.phase = .opening)
    (tagOpen : b.tagOpen.isSome = true) (staged : b.staged = none)
    (laid : Laid (.tag true) (tokens.map (lexemeOf source)))
    (clean : EndsClean (readAll source (b, t) tokens)) :
    ∃ blanks name inside last rest e, Opens source tokens blanks name inside last rest e ∧
      readAll source (b, t) (blanks ++ name :: inside) = ({ b with staged := some e }, t) := by
  induction tokens with
  | nil => exact absurd clean.abandon (not_clean_abandon tagOpen)
  | cons token tokens ih =>
    have calm : b.Clean := clean.before
    rw [readAll_cons] at clean
    have doomed (fed : b.feed t ⟨.textToTree⟩ source token = (b, t))
        (laid : Laid (.tag false) (tokens.map (lexemeOf source))) : False := by
      rw [fed] at clean
      exact not_endsClean_nameless phase tagOpen staged laid clean
    cases laid.inTag with
    | breaks kind => exact absurd clean.before (feed_breaks kind tagOpen)
    | ends ends => exact absurd clean.before (endTag_nameless phase tagOpen staged ends)
    | tagName kind first laid =>
      have fed : b.feed t ⟨.textToTree⟩ source token = _ :=
        feed_tagName kind (by rw [phase]; simp) tagOpen
      rw [fed] at clean
      obtain ⟨inside, last, rest, e, ends, stages, read⟩ :=
        readAll_named (b := { b with
          staged := some ⟨Text.slice source token.span, token.span, []⟩ })
          phase tagOpen rfl laid clean
      refine ⟨[], token, inside, last, rest, e,
        ⟨ends.cons token, by simp, kind, ends.split ▸ laid, stages,
          { b with staged := some ⟨Text.slice source token.span, token.span, []⟩ }, t, calm, rfl, read⟩, ?_⟩
      rw [List.nil_append, readAll_cons, fed, read]
    | attributeName kind later => cases later
    | attributeValue kind laid => exact (doomed (feed_attributeValue_unstaged kind staged) laid).elim
    | equals kind laid => exact (doomed (feed_quiet (.inl kind)) laid).elim
    | blank kind laid =>
      have fed : b.feed t ⟨.textToTree⟩ source token = (b, t) := feed_quiet (.inr (.inl kind))
      rw [fed] at clean
      obtain ⟨blanks, name, inside, last, rest, e, opens, read⟩ := ih laid clean
      refine ⟨token :: blanks, name, inside, last, rest, e, ⟨opens.ends.cons token,
        List.forall_mem_cons.mpr ⟨kind, opens.blank⟩, opens.named, opens.laid, opens.stages,
        opens.reads⟩, ?_⟩
      rw [List.cons_append, readAll_cons, fed, read]

/-! ## The end of a tag -/

/-- The end of a start tag. -/
theorem endTag_named {e : StagedElement} (phase : b.phase ≠ .closing) (staged : b.staged = some e)
    (span : Text.Range) (selfClosing : Bool) : ∃ phase' ≠ Phase.closing,
      b.endTag t span selfClosing =
        ({ ({ b with staged := none }.finalize t e selfClosing).1 with
            tagOpen := none, phase := phase' },
          ({ b with staged := none }.finalize t e selfClosing).2) := by
  cases b.endTag_outcome t span selfClosing with
  | close closing => exact absurd closing phase
  | element _ held ended =>
    obtain rfl := Option.some.inj (staged.symm.trans held)
    exact ⟨_, phase_past _ selfClosing, ended⟩
  | nameless _ none | nothing _ none =>
    rw [staged] at none
    cases none

/-- The end of a close tag. -/
theorem endTag_closing (phase : b.phase = .closing) (span : Text.Range) (selfClosing : Bool) :
    ∃ phase' ≠ Phase.closing,
      b.endTag t span selfClosing = ({ b.close span with tagOpen := none, phase := phase' }, t) := by
  cases b.endTag_outcome t span selfClosing with
  | close _ ended => exact ⟨_, phase_past _ selfClosing, ended⟩
  | element other | nameless other | nothing other => exact absurd phase other

theorem staged_close (b : Builder) (span : Text.Range) : (b.close span).staged = b.staged := by
  cases stack : b.stack with
  | nil => rw [close_nil stack, report]
  | cons o outer => rw [close_cons stack]

/-! ## The words of a close tag -/

/-- The words of a close tag, from behind its `</` up to the word that ends it. -/
theorem readAll_close {tokens : List Token} {nameNext : Bool} (phase : b.phase = .closing)
    (tagOpen : b.tagOpen.isSome = true) (staged : b.staged = none)
    (laid : Laid (.tag nameNext) (tokens.map (lexemeOf source)))
    (clean : EndsClean (readAll source (b, t) tokens)) :
    ∃ inside last rest, TagEnds source tokens inside last rest ∧
      (∀ w ∈ inside.map (lexemeOf source), w.Inner) ∧
      readAll source (b, t) inside = (b, t) := by
  induction tokens generalizing nameNext with
  | nil => exact absurd clean.abandon (not_clean_abandon tagOpen)
  | cons token tokens ih =>
    rw [readAll_cons] at clean
    have step {nameNext' : Bool} (fed : b.feed t ⟨.textToTree⟩ source token = (b, t))
        (inner : (lexemeOf source token).Inner)
        (laid : Laid (.tag nameNext') (tokens.map (lexemeOf source))) :
        ∃ inside last rest, TagEnds source (token :: tokens) inside last rest ∧
          (∀ w ∈ inside.map (lexemeOf source), w.Inner) ∧
          readAll source (b, t) inside = (b, t) := by
      rw [fed] at clean
      obtain ⟨inside, last, rest, ends, all, read⟩ := ih laid clean
      refine ⟨token :: inside, last, rest, ends.cons token, ?_, ?_⟩
      · rw [List.map_cons]
        exact List.forall_mem_cons.mpr ⟨inner, all⟩
      · rw [readAll_cons, fed, read]
    cases laid.inTag with
    | breaks kind => exact absurd clean.before (feed_breaks kind tagOpen)
    | ends ends content => exact ⟨[], token, tokens, ⟨rfl, ends, content⟩, by simp, rfl⟩
    | tagName kind _ laid =>
      exact step (feed_tagName_closing kind phase) (by simp [Lexeme.Inner, kind]) laid
    | attributeName kind _ laid =>
      exact step (feed_attributeName_unstaged kind staged) (by simp [Lexeme.Inner, kind]) laid
    | attributeValue kind laid =>
      exact step (feed_attributeValue_unstaged kind staged) (by simp [Lexeme.Inner, kind]) laid
    | equals kind laid =>
      exact step (feed_quiet (.inl kind)) (by simp [Lexeme.Inner, kind]) laid
    | blank kind laid =>
      exact step (feed_quiet (.inr (.inl kind))) (by simp [Lexeme.Inner, kind]) laid

end

end Builder

end QueryMarkup
