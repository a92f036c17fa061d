import QueryMarkup.Proofs.Document.Faithful
import QueryMarkup.Proofs.Markup.Content

/-!
# A clear text has a content

The words of a text about which nothing obscuring is reported, and no name that is given twice,
are those of a content in which no name is given twice.
-/
namespace QueryMarkup

open Markup

namespace Markup

/-! ## The words of a start tag -/

/-- Words that may follow in a start tag; `waiting` says that a name waits for its value. -/
inductive Continues : Bool → List Lexeme → Prop
  | ends : Continues false []
  | sign {waiting : Bool} {ws : List Lexeme} (h : Continues waiting ws) :
    Continues waiting (⟨.equals, ['=']⟩ :: ws)
  | name (chars : List Char) {ws : List Lexeme} (h : Continues true ws) :
    Continues false (⟨.attributeName, chars⟩ :: ws)
  | value (chars : List Char) {ws : List Lexeme} (h : Continues false ws) :
    Continues true (⟨.attributeValue, chars⟩ :: ws)

/-- What follows are attributes, behind the rest of one that waits for its value. -/
theorem Continues.attributes {waiting : Bool} {ws : List Lexeme} (h : Continues waiting ws) :
    if waiting then
      ∃ signs value strays, ∃ gs : List Given, ws = equals signs ++ ⟨.attributeValue, value⟩ ::
        (equals strays ++ gs.flatMap Given.words)
    else ∃ strays, ∃ gs : List Given, ws = equals strays ++ gs.flatMap Given.words := by
  induction h with
  | ends => exact ⟨0, [], rfl⟩
  | @sign waiting ws h ih =>
    cases waiting with
    | false =>
      obtain ⟨strays, gs, rfl⟩ := ih
      exact ⟨strays + 1, gs, rfl⟩
    | true =>
      obtain ⟨signs, value, strays, gs, rfl⟩ := ih
      exact ⟨signs + 1, value, strays, gs, rfl⟩
  | name chars h ih =>
    obtain ⟨signs, value, strays, gs, rfl⟩ := ih
    refine ⟨0, ⟨chars, value, signs, strays⟩ :: gs, ?_⟩
    simp [equals, Given.words]
  | value chars h ih =>
    obtain ⟨strays, gs, rfl⟩ := ih
    exact ⟨0, chars, strays, gs, rfl⟩

/-! ## The words behind a start tag -/

/-- What is left of a text where some elements are open: a content, and for each of them the close
tag and what comes behind it. No name is given twice. -/
inductive Closes : Nat → List Lexeme → Prop
  | last (c : Content) (distinct : c.Distinct) : Closes 0 c.words
  | close (c : Content) (distinct : c.Distinct) (closing : Closing) {depth : Nat} {ws : List Lexeme}
    (h : Closes depth ws) : Closes (depth + 1) (c.words ++ (closing.words ++ ws))

namespace Closes

variable {depth : Nat} {ws : List Lexeme}

theorem text (h : Closes depth ws) (chars : List Char) : Closes depth (⟨.text, chars⟩ :: ws) := by
  cases h with
  | last c distinct => exact .last (.text chars c) distinct
  | close c distinct closing h => exact .close (.text chars c) distinct closing h

theorem leaf (h : Closes depth ws) (o : Opening) (once : o.Distinct) :
    Closes depth (o.words ⟨.selfCloseEndTag, ['/', '>']⟩ ++ ws) := by
  cases h with
  | last c distinct => exact .last (.leaf o c) ⟨once, distinct⟩
  | close c distinct closing h =>
    rw [← List.append_assoc]
    exact .close (.leaf o c) ⟨once, distinct⟩ closing h

theorem element (h : Closes (depth + 1) ws) (o : Opening) (once : o.Distinct) :
    Closes depth (o.words ⟨.endTag, ['>']⟩ ++ ws) := by
  cases h with
  | close c distinct closing h =>
    cases h with
    | last c' distinct' => exact .last (.element o c closing c') ⟨once, distinct, distinct'⟩
    | close c' distinct' closing' h =>
      have more := Closes.close (.element o c closing c') ⟨once, distinct, distinct'⟩ closing' h
      simp only [Content.words, List.append_assoc] at more
      exact more

end Closes

end Markup

/-! ## Reading a start tag -/

namespace StagedElement

/-- The last attribute has no value yet. -/
def waiting (e : StagedElement) : Bool := e.attributes.getLast?.any fun a => a.value.isNone

theorem waiting_eq_false {e : StagedElement} (h : ∀ a ∈ e.attributes, a.value.isSome = true) :
    e.waiting = false := by
  rw [waiting]
  cases last : e.attributes.getLast? with
  | none => rfl
  | some a => simpa using h a (List.mem_of_getLast? last)

end StagedElement

namespace Builder

variable {b : Builder} {t : Tree} {source : String}

/-- The words behind the name of a start tag are attributes, one by one, if each gets a value. No
attribute but the last one can still get its value. -/
theorem continues_readAll {inside tail : List Token} {e e' : StagedElement} (staged : b.staged = some e)
    (laid : Laid (.tag false) ((inside ++ tail).map (lexemeOf source)))
    (spelled : ∀ token ∈ inside, (lexemeOf source token).Spelled)
    (goesOn : ∀ w ∈ inside.map (lexemeOf source), w.endsTag = false)
    (inner : ∀ w ∈ inside.map (lexemeOf source), w.Inner)
    (clean : (readAll source (b, t) inside).1.Clean)
    (read : (readAll source (b, t) inside).1.staged = some e') :
    e.attributes.dropLast ⊆ e'.attributes ∧ ((∀ a ∈ e'.attributes, a.value.isSome = true) →
      Continues e.waiting (essence (inside.map (lexemeOf source)))) := by
  induction inside generalizing b e with
  | nil =>
    obtain rfl : e = e' := Option.some.inj (staged.symm.trans read)
    refine ⟨e.attributes.dropLast_subset, fun values => ?_⟩
    rw [StagedElement.waiting_eq_false values]
    exact .ends
  | cons token inside ih =>
    obtain ⟨here, later⟩ := List.forall_mem_cons.mp spelled
    rw [List.map_cons] at goesOn inner
    obtain ⟨open', goesOn⟩ := List.forall_mem_cons.mp goesOn
    obtain ⟨within, inner⟩ := List.forall_mem_cons.mp inner
    rw [readAll_cons] at clean read
    rw [List.cons_append, List.map_cons] at laid
    have calm : (b.feed t ⟨.textToTree⟩ source token).1.Clean :=
      clean.of_grows (grows_readAll source _ inside)
    cases laid.inTag with
    | breaks kind =>
      rcases kind with kind | kind | kind
      · exact absurd kind within.1
      · exact absurd kind within.2.1
      · exact absurd calm (not_clean_feed_error kind)
    | ends ends => rw [open'] at ends; cases ends
    | tagName kind first => cases first
    | attributeName kind _ laid =>
      rw [feed_attributeName kind staged] at clean read
      obtain ⟨kept, more⟩ := ih rfl laid later goesOn inner clean read
      rw [List.dropLast_concat] at kept
      refine ⟨fun a ha => kept (e.attributes.dropLast_subset ha), fun values => ?_⟩
      have waits := more values
      rw [StagedElement.waiting, List.getLast?_concat] at waits
      rw [StagedElement.waiting_eq_false fun a ha => values a (kept ha), List.map_cons,
        essence_cons_of_kind kind (by simp)]
      exact .name _ waits
    | attributeValue kind laid =>
      rw [feed_attributeValue kind] at calm clean read
      cases b.readValue_outcome token.span (Text.slice source token.span) with
      | unstaged none =>
        rw [staged] at none
        cases none
      | stray _ stray =>
        rw [stray] at calm
        exact absurd calm (not_clean_report (by decide))
      | taken held last taken =>
        obtain rfl := Option.some.inj (staged.symm.trans held)
        rw [taken] at clean read
        obtain ⟨kept, more⟩ := ih rfl laid later goesOn inner clean read
        rw [List.dropLast_concat] at kept
        refine ⟨kept, fun values => ?_⟩
        have settled := more values
        rw [StagedElement.waiting, List.getLast?_concat] at settled
        rw [StagedElement.waiting, last, List.map_cons, essence_cons_of_kind kind (by simp)]
        exact .value _ settled
    | equals kind laid =>
      rw [feed_quiet (.inl kind)] at clean read
      obtain ⟨kept, more⟩ := ih staged laid later goesOn inner clean read
      refine ⟨kept, fun values => ?_⟩
      rw [List.map_cons, here.eq kind rfl, essence_cons (by simp) (by simp) (by simp)]
      exact .sign (more values)
    | blank kind laid =>
      rw [feed_quiet (.inr (.inl kind))] at clean read
      obtain ⟨kept, more⟩ := ih staged laid later goesOn inner clean read
      refine ⟨kept, fun values => ?_⟩
      rw [List.map_cons, essence_cons_of_quiet (.inl kind)]
      exact more values

/-- A start tag whose attributes all have values, as it stands in the text. -/
theorem Opens.exists_opening {token last name : Token} {tokens blanks inside rest : List Token}
    {e : StagedElement} (h : Opens source tokens blanks name inside last rest e)
    (kind : token.kind = .startTag)
    (spelled : ∀ token' ∈ token :: tokens, (lexemeOf source token').Spelled)
    (values : ∀ a ∈ e.attributes, a.value.isSome = true) :
    ∃ o : Opening, essence ((token :: tokens).map (lexemeOf source)) =
        o.words (lexemeOf source last) ++ essence (rest.map (lexemeOf source)) ∧
      (e.names.Nodup → o.Distinct) := by
  have started := h.startTag_eq
  obtain ⟨⟨rfl, ends, -⟩, blank, named, laid, stages, b, t, clean, staged, read⟩ := h
  obtain ⟨here, later⟩ := List.forall_mem_cons.mp spelled
  obtain ⟨strays, gs, words⟩ : ∃ strays, ∃ gs : List Given,
      essence (inside.map (lexemeOf source)) = equals strays ++ gs.flatMap Given.words := by
    have calm : (readAll source (b, t) inside).1.Clean := by
      rw [read]
      exact clean
    have last : (readAll source (b, t) inside).1.staged = some e := by rw [read]
    exact ((continues_readAll staged laid (fun token' hm => later token' (by simp [hm])) stages.goesOn
      stages.inner calm last).2 values).attributes
  have quiet : essence (blanks.map (lexemeOf source)) = [] := by
    refine List.filterMap_eq_nil_iff.mpr fun w hw => ?_
    obtain ⟨token', hm, rfl⟩ := List.mem_map.mp hw
    simp [Lexeme.essence?, lexemeOf, blank token' hm]
  let o : Opening := ⟨(lexemeOf source name).chars, strays, gs⟩
  have body : essence ((blanks ++ name :: inside ++ last :: rest).map (lexemeOf source)) =
      o.inside ++ lexemeOf source last :: essence (rest.map (lexemeOf source)) := by
    simp only [List.map_append, List.map_cons, essence_append, quiet, List.nil_append,
      essence_cons_of_kind (w := lexemeOf source name) named (by simp), words, essence_cons_of_ends ends,
      Opening.inside, o, List.cons_append]
  refine ⟨o, ?_, fun once => ?_⟩
  · rw [List.map_cons, here.eq kind rfl, essence_cons (by simp) (by simp) (by simp), body]
    simp [Opening.words]
  · rw [← startTag_essence, body, o.startTag_inside ends] at started
    have names : o.attributes.map (fun g => String.ofList g.name) = e.names :=
      congrArg StartTag.names started
    rw [← names] at once
    exact List.Nodup.of_map String.ofList (by rwa [List.map_map])

/-- What a start tag stands before. -/
theorem Opens.closes {token last name : Token} {tokens blanks inside rest : List Token}
    {e : StagedElement} (h : Opens source tokens blanks name inside last rest e)
    (kind : token.kind = .startTag)
    (spelled : ∀ token' ∈ token :: tokens, (lexemeOf source token').Spelled)
    (values : ∀ a ∈ e.attributes, a.value.isSome = true) (once : e.names.Nodup) {depth : Nat}
    (more : Closes (if last.kind == .selfCloseEndTag then depth else depth + 1)
      (essence (rest.map (lexemeOf source)))) :
    Closes depth (essence ((token :: tokens).map (lexemeOf source))) := by
  obtain ⟨o, words, distinct⟩ := h.exists_opening kind spelled values
  obtain ⟨split, ends, -⟩ := h.ends
  have sign : (lexemeOf source last).Spelled := spelled last (by simp [split])
  have same : last.kind = (lexemeOf source last).kind := rfl
  rw [words]
  simp only [Lexeme.endsTag, Bool.or_eq_true, beq_iff_eq] at ends
  rcases ends with closing | closing
  · rw [same, closing, if_neg (by decide)] at more
    rw [sign.eq closing rfl]
    exact more.element o (distinct once)
  · rw [same, closing, if_pos (by decide)] at more
    rw [sign.eq closing rfl]
    exact more.leaf o (distinct once)

/-- What a close tag stands before. -/
theorem TagEnds.closes {token last : Token} {tokens inside rest : List Token}
    (h : TagEnds source tokens inside last rest) (kind : token.kind = .startCloseTag)
    (spelled : (lexemeOf source token).Spelled) (inner : ∀ w ∈ inside.map (lexemeOf source), w.Inner)
    {depth : Nat} (more : Closes depth (essence (rest.map (lexemeOf source)))) :
    Closes (depth + 1) (essence ((token :: tokens).map (lexemeOf source))) := by
  obtain ⟨rfl, ends, -⟩ := h
  let closing : Closing :=
    ⟨essence (inside.map (lexemeOf source)), lexemeOf source last, inner_essence inner, ends⟩
  have words : essence ((token :: (inside ++ last :: rest)).map (lexemeOf source)) =
      closing.words ++ essence (rest.map (lexemeOf source)) := by
    rw [List.map_cons, spelled.eq kind rfl, essence_cons (by simp) (by simp) (by simp), List.map_append,
      List.map_cons, essence_append, essence_cons_of_ends ends]
    simp [closing, Closing.words]
  rw [words]
  exact .close .nil trivial closing more

/-- At the end no element is open. -/
theorem EndsClean.stack_eq_nil {s : Builder × Tree} (h : EndsClean s) (rest : s.1.AtRest) :
    s.1.stack = [] := by
  by_contra some'
  obtain ⟨o, os, split⟩ := List.exists_cons_of_ne_nil (List.reverse_ne_nil_iff.mpr some')
  rw [EndsClean, finish_fst, rest.abandon, split, List.foldl_cons] at h
  have kept := @grows_foldl OpenElement (fun (b : Builder) e => b.report .unclosedTag e.span e.tag)
    (fun b e => grows_report b _ _ _)
  exact not_clean_report (by decide) (Clean.of_grows h (kept _ os))

end Builder

/-! ## Reading all of a text -/

section
variable {done : List (Option Nat × Item)} {stack : List Nat} {b : Builder} {t : Tree} {source : String}

/-- All attributes of an element that was read have values. -/
theorem Mirrors.values_isSome {e : StagedElement} {around : Option Nat} {selfClosing : Bool}
    {stack' : List Nat} (h : Mirrors (done ++ [(around, .start ⟨e.tag, e.names, e.values, selfClosing⟩)])
      stack' b t) : ∀ a ∈ e.attributes, a.value.isSome = true := by
  have element : (elementsOf (done ++ [(around, .start ⟨e.tag, e.names, e.values, selfClosing⟩)]))[
      (elementsOf done).length]? = some (around, ⟨e.tag, e.names, e.values, selfClosing⟩) := by
    rw [elementsOf_start, List.getElem?_append_right (Nat.le_refl _), Nat.sub_self]
    rfl
  obtain ⟨x, hx, shows⟩ := h.shows _ _ _ element
  have paired : e.names.length = e.values.length := shows.paired
  rw [StagedElement.names, StagedElement.values, List.length_map] at paired
  exact List.filterMap_length_eq_length.mp paired.symm

/-- What is left of a clear text are the contents of the elements that are open. -/
theorem Mirrors.closes (h : Mirrors done stack b t) (tokens : List Token) (rest : b.AtRest)
    (laid : Laid .content (tokens.map (lexemeOf source)))
    (spelled : ∀ token ∈ tokens, (lexemeOf source token).Spelled)
    (clean : Builder.EndsClean (Builder.readAll source (b, t) tokens))
    (once : ∀ d ∈ (Builder.readAll source (b, t) tokens).1.diagnostics, d.kind ≠ .duplicateAttribute) :
    Closes stack.length (essence (tokens.map (lexemeOf source))) := by
  -- an item takes several tokens, so the induction is on how many are left
  induction size : tokens.length using Nat.strong_induction_on generalizing done stack b t tokens with
  | _ n ih =>
    cases tokens with
    | nil =>
      have none : stack = [] := by
        have empty : b.stack = [] := clean.stack_eq_nil rest
        have opened := h.opened
        rw [empty] at opened
        exact List.map_eq_nil_iff.mp opened.symm
      rw [none]
      exact .last .nil trivial
    | cons token tokens =>
      obtain ⟨here, later⟩ := List.forall_mem_cons.mp spelled
      cases laid.inContent with
      | start kind laid =>
        obtain ⟨blanks, name, inside, last, tail, e, b', t', opens, rested, mirrors, reads, twice⟩ :=
          h.readAll_start rest kind laid clean
        rw [reads] at clean once
        have unique : e.names.Nodup := twice.resolve_right fun ⟨d, hd, twice⟩ =>
          once d (Builder.grows_readAll source (b', t') tail hd) twice
        have split := opens.ends.split
        have more := ih tail.length (by rw [← size, split]; simp; omega) mirrors tail rested
          opens.ends.content (fun token hm => later token (by simp [split, hm])) clean once rfl
        rw [apply_ite List.length] at more
        exact opens.closes kind spelled mirrors.values_isSome unique more
      | close kind laid =>
        obtain ⟨inside, last, tail, b', ends, inner, rested, some', mirrors, reads⟩ :=
          h.readAll_close rest kind laid clean
        rw [reads] at clean once
        have split := ends.split
        have more := ih tail.length (by rw [← size, split]; simp; omega) mirrors tail rested
          ends.content (fun token hm => later token (by simp [split, hm])) clean once rfl
        obtain ⟨k, stack, rfl⟩ := List.exists_cons_of_ne_nil some'
        exact ends.closes kind here inner more
      | text kind content =>
        have shown : Text.isAllBlank (Text.slice source token.span).toList = false := by
          simpa only [Lexeme.Fits, lexemeOf, show token.kind = .text from kind] using laid.1
        obtain ⟨b', t', read, silent, mirrors⟩ := h.text shown token.span
        have fed : Builder.readAll source (b, t) (token :: tokens) =
            Builder.readAll source (b', t') tokens := by
          rw [Builder.readAll_cons, Builder.feed_text kind, read]
        rw [fed] at clean once
        rw [List.map_cons, essence_cons_of_text kind]
        exact (ih tokens.length (by rw [← size]; simp) mirrors tokens (rest.of_silent silent) content later
          clean once rfl).text _
      | quiet kind content =>
        have step := h.advance_quiet rest kind content
        rw [step.reads] at clean once
        rw [List.map_cons, essence_cons_of_quiet kind]
        exact ih tokens.length (by rw [← size]; simp) h tokens rest content later clean once rfl

end

namespace Document

end Document

end QueryMarkup
