import QueryMarkup.Proofs.Document.Tags
import QueryMarkup.Proofs.Markup.Writing

/-!
# Reading a written tag

What is read is given by its words here, whatever tokens they come from. The words of a
written start tag stage its element with all its values; those of a written close tag close.
-/
namespace QueryMarkup.Builder

open Markup

variable {source : String} {b : Builder} {t : Tree} {s : Builder × Tree}

/-- Whatever tokens make up some words, reading them comes to a state with a property. -/
def Reads (source : String) (words : List Lexeme) (s : Builder × Tree)
    (P : Builder × Tree → Prop) : Prop :=
  ∀ tokens : List Token, tokens.map (lexemeOf source) = words → P (readAll source s tokens)

section
variable {w : Lexeme} {ws ws' : List Lexeme} {P Q : Builder × Tree → Prop}

theorem reads_nil (h : P s) : Reads source [] s P := by
  intro tokens e
  rw [List.map_eq_nil_iff.mp e]
  exact h

theorem reads_cons (h : ∀ token, lexemeOf source token = w →
    Reads source ws (s.1.feed s.2 ⟨.textToTree⟩ source token) P) : Reads source (w :: ws) s P := by
  intro tokens e
  obtain ⟨token, rest, rfl, hw, hrest⟩ := List.map_eq_cons_iff.mp e
  exact h token hw rest hrest

theorem Reads.append (h : Reads source ws s Q) (next : ∀ s', Q s' → Reads source ws' s' P) :
    Reads source (ws ++ ws') s P := by
  intro tokens e
  obtain ⟨xs, ys, rfl, hx, hy⟩ := List.map_eq_append_iff.mp e
  rw [readAll_append]
  exact next _ (h xs hx) ys hy

end

section
variable {token : Token} {kind : TokenKind} {chars : List Char}

theorem kind_of_lexemeOf (h : lexemeOf source token = ⟨kind, chars⟩) : token.kind = kind :=
  congrArg Lexeme.kind h

theorem slice_of_lexemeOf (h : lexemeOf source token = ⟨kind, chars⟩) :
    Text.slice source token.span = String.ofList chars := by
  have named : (lexemeOf source token).chars = chars := congrArg Lexeme.chars h
  rw [← named, lexemeOf, String.ofList_toList]

end

/-! ## Blanks between words -/

/-- A blank between tags changes nothing. -/
theorem reads_blank {run : List Char} (blank : ∀ c ∈ run, Text.isBlank c = true)
    {P : Builder × Tree → Prop} (h : P s) : Reads source (runWords run) s P := by
  unfold runWords
  split
  · exact reads_nil h
  · have all : Text.isAllBlank run = true := List.all_eq_true.mpr blank
    refine reads_cons fun token e => ?_
    rw [if_pos all] at e
    rw [feed_quiet (.inr (.inl (kind_of_lexemeOf e)))]
    exact reads_nil h

/-! ## A start tag -/

/-- Attributes are staged with these values. -/
def StagedPairs (attributes : List StagedAttribute) (pairs : List (String × String)) : Prop :=
  attributes.map (fun a => (a.name, a.value)) = pairs.map fun p => (p.1, some p.2)

/-- Of a start tag the name and these attributes have been read. -/
structure Staging (b : Builder) (t : Tree) (tag : String) (pairs : List (String × String))
    (s : Builder × Tree) : Prop where
  tree : s.2 = t
  builder : ∃ opening span attributes, StagedPairs attributes pairs ∧
    s.1 = { b with
      tagOpen := some opening, phase := .opening, staged := some ⟨tag, span, attributes⟩ }

/-- The value of the last name is read as it was before it was written. -/
theorem readValue_written {e : StagedElement} (attributes : List StagedAttribute) (name value : String)
    (nameSpan span : Text.Range) (staged : b.staged = some e)
    (last : e.attributes = attributes ++ [⟨name, nameSpan, none⟩]) :
    b.readValue span (String.ofList ('"' :: (Text.encodeChars value.toList ++ ['"']))) =
      { b with staged := some { e with
          attributes := attributes ++ [⟨name, nameSpan, some value⟩] } } := by
  unfold readValue
  rw [staged]
  dsimp only
  rw [last, List.getLast?_concat, String.toList_ofList, unquote_quoted (.inl rfl),
    Text.decodeChars_encodeChars, String.ofList_toList, List.dropLast_concat]

theorem Staging.pair {tag : String} {pairs : List (String × String)} (h : Staging b t tag pairs s)
    (p : String × String) : Reads source (Tag.pairWords p) s (Staging b t tag (pairs ++ [p])) := by
  obtain ⟨b', t'⟩ := s
  obtain ⟨rfl, opening, span, attributes, hpairs, rfl⟩ := h
  refine reads_cons fun blank hb => ?_
  rw [feed_quiet (.inr (.inl (kind_of_lexemeOf hb)))]
  refine reads_cons fun name hn => ?_
  rw [feed_attributeName (kind_of_lexemeOf hn) rfl, slice_of_lexemeOf hn, String.ofList_toList]
  refine reads_cons fun equals he => ?_
  rw [feed_quiet (.inl (kind_of_lexemeOf he))]
  refine reads_cons fun value hv => ?_
  rw [feed_attributeValue (kind_of_lexemeOf hv), slice_of_lexemeOf hv,
    readValue_written attributes p.1 p.2 name.span value.span rfl rfl]
  refine reads_nil ⟨rfl, opening, span, _, ?_, rfl⟩
  rw [StagedPairs, List.map_append, List.map_append, hpairs]
  rfl

theorem Staging.pairs {tag : String} {before : List (String × String)} (h : Staging b t tag before s)
    (pairs : List (String × String)) :
    Reads source (pairs.flatMap Tag.pairWords) s (Staging b t tag (before ++ pairs)) := by
  induction pairs generalizing before s with
  | nil =>
    rw [List.append_nil]
    exact reads_nil h
  | cons p pairs ih =>
    rw [List.flatMap_cons]
    refine (h.pair p).append fun s' hs => ?_
    have := ih hs
    rwa [List.append_assoc] at this

/-- A start tag is staged, and the word that ends it makes an element of it. -/
theorem reads_opening (rest : b.AtRest) (tag : String) (pairs : List (String × String))
    (selfClosing : Bool) {P : Builder × Tree → Prop}
    (ends : ∀ opening span attributes phase, StagedPairs attributes pairs → phase ≠ .closing →
      let unstaged : Builder := { b with tagOpen := some opening, phase := .opening, staged := none }
      P ({ (unstaged.finalize t ⟨tag, span, attributes⟩ selfClosing).1 with tagOpen := none, phase },
        (unstaged.finalize t ⟨tag, span, attributes⟩ selfClosing).2)) :
    Reads source (Tag.opening tag pairs selfClosing).words (b, t) P := by
  refine reads_cons fun opening ho => ?_
  rw [feed_start (kind_of_lexemeOf ho), rest.abandon]
  refine reads_cons fun name hn => ?_
  rw [feed_tagName (kind_of_lexemeOf hn) (by simp) rfl, slice_of_lexemeOf hn, String.ofList_toList]
  have started : Staging b t tag [] ({ b with
      tagOpen := some opening.span, phase := .opening, staged := some ⟨tag, name.span, []⟩ }, t) :=
    ⟨rfl, _, _, [], rfl, rfl⟩
  refine (started.pairs pairs).append fun s hs => ?_
  obtain ⟨b', t'⟩ := s
  obtain ⟨rfl, start, span, attributes, hpairs, rfl⟩ := hs
  have last {token : Token} (hk : (lexemeOf source token).endsTag = true)
      (self : (token.kind == .selfCloseEndTag) = selfClosing) :
      P (feed { b with
        tagOpen := some start, phase := .opening, staged := some ⟨tag, span, attributes⟩ } t'
          ⟨.textToTree⟩ source token) := by
    obtain ⟨phase, hphase, ended⟩ := endTag_named (t := t')
      (b := { b with
        tagOpen := some start, phase := .opening, staged := some ⟨tag, span, attributes⟩ })
      (by simp) rfl token.span selfClosing
    rw [feed_ends hk, self, ended]
    exact ends start span attributes phase hpairs hphase
  cases selfClosing with
  | true =>
    refine reads_cons fun blank hb => ?_
    rw [feed_quiet (.inr (.inl (kind_of_lexemeOf hb)))]
    refine reads_cons fun token e => reads_nil (last ?_ ?_)
    · rw [e]
      rfl
    · rw [kind_of_lexemeOf e]
      rfl
  | false =>
    refine reads_cons fun token e => reads_nil (last ?_ ?_)
    · rw [e]
      rfl
    · rw [kind_of_lexemeOf e]
      rfl

/-! ## A close tag -/

/-- A close tag takes the innermost open element off the stack. -/
theorem reads_closing (rest : b.AtRest) (tag : String) {P : Builder × Tree → Prop}
    (ends : ∀ opening span phase, phase ≠ .closing →
      P ({ ({ b with tagOpen := some opening, phase := .closing } : Builder).close span with
        tagOpen := none, phase }, t)) :
    Reads source (Tag.closing tag).words (b, t) P := by
  refine reads_cons fun opening ho => ?_
  rw [feed_startClose (kind_of_lexemeOf ho), rest.abandon]
  refine reads_cons fun name hn => ?_
  rw [feed_tagName_closing (kind_of_lexemeOf hn) rfl]
  refine reads_cons fun token e => reads_nil ?_
  obtain ⟨phase, hphase, ended⟩ := endTag_closing (t := t)
    (b := { b with tagOpen := some opening.span, phase := .closing }) rfl token.span
      (token.kind == .selfCloseEndTag)
  rw [feed_ends (by rw [e]; rfl), ended]
  exact ends opening.span token.span phase hphase

end QueryMarkup.Builder
