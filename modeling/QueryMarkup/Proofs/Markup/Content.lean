import Mathlib.Data.List.Nodup
import QueryMarkup.Proofs.Markup.Items
import QueryMarkup.Vocabulary.Kind

/-!
# The content of a document

The words of a well formed text, without blanks and comments, are texts and elements, one
behind the other, and an element has content again. Two contents are alike when they differ
only in the order of attributes in a start tag and of siblings of different kinds, as far as
either is free, in the quotes around values, and in how elements without content are written.
-/
namespace QueryMarkup.Markup

open Text

/-! ## Words without blanks and comments -/

/-- A word as far as it matters: no blank, no comment, and a text without blanks at its ends. -/
def Lexeme.essence? (w : Lexeme) : Option Lexeme :=
  match w.kind with
  | .whitespace | .comment => none
  | .text => some ⟨.text, trim w.chars⟩
  | _ => some w

def essence (ws : List Lexeme) : List Lexeme := ws.filterMap Lexeme.essence?

theorem essence_append (xs ys : List Lexeme) : essence (xs ++ ys) = essence xs ++ essence ys :=
  List.filterMap_append

section
variable {w : Lexeme}

theorem essence_cons_of_quiet (h : w.kind = .whitespace ∨ w.kind = .comment) (ws : List Lexeme) :
    essence (w :: ws) = essence ws := by
  rcases h with h | h <;> simp [essence, Lexeme.essence?, h]

theorem essence_cons_of_text (h : w.kind = .text) (ws : List Lexeme) :
    essence (w :: ws) = ⟨.text, trim w.chars⟩ :: essence ws := by
  simp [essence, Lexeme.essence?, h]

theorem essence_cons (blank : w.kind ≠ .whitespace) (comment : w.kind ≠ .comment) (text : w.kind ≠ .text)
    (ws : List Lexeme) : essence (w :: ws) = w :: essence ws := by
  have kept : w.essence? = some w := by
    rw [Lexeme.essence?]
    split <;> simp_all
  rw [essence, List.filterMap_cons_some kept, essence]

theorem essence_cons_of_kind {kind : TokenKind} (h : w.kind = kind)
    (other : kind ≠ .whitespace ∧ kind ≠ .comment ∧ kind ≠ .text) (ws : List Lexeme) :
    essence (w :: ws) = ⟨kind, w.chars⟩ :: essence ws := by
  subst h
  exact essence_cons other.1 other.2.1 other.2.2 ws

theorem essence_cons_of_ends (h : w.endsTag = true) (ws : List Lexeme) :
    essence (w :: ws) = w :: essence ws := by
  simp only [Lexeme.endsTag, Bool.or_eq_true, beq_iff_eq] at h
  rcases h with h | h <;> exact essence_cons (by simp [h]) (by simp [h]) (by simp [h]) ws

/-- A word is a blank or a comment, a text, or it stays as it is. -/
theorem Lexeme.essence_cases (w : Lexeme) : (w.kind = .whitespace ∨ w.kind = .comment) ∨ w.kind = .text ∨
    ∀ ws, essence (w :: ws) = w :: essence ws := by
  by_cases quiet : w.kind = .whitespace ∨ w.kind = .comment
  · exact .inl quiet
  · by_cases text : w.kind = .text
    · exact .inr (.inl text)
    · obtain ⟨blank, comment⟩ := not_or.mp quiet
      exact .inr (.inr (essence_cons blank comment text))

/-- A tag is ended by the same word. -/
theorem find?_essence (ws : List Lexeme) :
    (essence ws).find? Lexeme.endsTag = ws.find? Lexeme.endsTag := by
  induction ws with
  | nil => rfl
  | cons w ws ih =>
    have skip (v : Lexeme) (vs : List Lexeme) (open' : v.endsTag = false) :
        (v :: vs).find? Lexeme.endsTag = vs.find? Lexeme.endsTag :=
      List.find?_cons_of_neg (by simp [open'])
    rcases w.essence_cases with quiet | text | kept
    · rw [essence_cons_of_quiet quiet, ih]
      rcases quiet with quiet | quiet <;> exact (skip w ws (by simp [Lexeme.endsTag, quiet])).symm
    · rw [essence_cons_of_text text, skip _ _ rfl, ih, skip w ws (by simp [Lexeme.endsTag, text])]
    · rw [kept, List.find?_cons, ih, List.find?_cons]

/-- A start tag does not depend on blanks and comments. -/
theorem startTag_essence (ws : List Lexeme) : startTag (essence ws) = startTag ws := by
  have chars (kind : TokenKind) (named : kind ≠ .whitespace ∧ kind ≠ .comment ∧ kind ≠ .text) :
      charsOf kind ((essence ws).takeWhile fun w => !w.endsTag) =
        charsOf kind (ws.takeWhile fun w => !w.endsTag) := by
    have skip (v : Lexeme) (vs : List Lexeme) (open' : v.endsTag = false) (other : v.kind ≠ kind) :
        charsOf kind ((v :: vs).takeWhile fun w => !w.endsTag) =
          charsOf kind (vs.takeWhile fun w => !w.endsTag) := by
      rw [List.takeWhile_cons_of_pos (by simp [open'])]
      simp [charsOf, other]
    induction ws with
    | nil => rfl
    | cons w ws ih =>
      rcases w.essence_cases with quiet | text | kept
      · rw [essence_cons_of_quiet quiet, ih]
        rcases quiet with quiet | quiet <;>
          exact (skip w ws (by simp [Lexeme.endsTag, quiet]) (by rw [quiet]; simp [Ne.symm, named])).symm
      · rw [essence_cons_of_text text, skip _ _ rfl named.2.2.symm, ih,
          skip w ws (by simp [Lexeme.endsTag, text]) (by rw [text]; exact named.2.2.symm)]
      · rw [kept, List.takeWhile_cons, List.takeWhile_cons]
        split
        · rw [charsOf, charsOf, List.filter_cons, List.filter_cons]
          split
          · exact congrArg (w.chars :: ·) ih
          · exact ih
        · rfl
  rw [startTag, startTag, find?_essence]
  simp only [chars .tagName (by simp), chars .attributeName (by simp), chars .attributeValue (by simp)]

/-- No tag and no text comes in. -/
theorem inner_essence {ws : List Lexeme} (h : ∀ w ∈ ws, w.Inner) : ∀ w ∈ essence ws, w.Inner := by
  intro w hw
  obtain ⟨v, hv, kept⟩ := List.mem_filterMap.mp hw
  have inner := h v hv
  rw [Lexeme.essence?] at kept
  split at kept
  · cases kept
  · cases kept
  · rename_i text
    exact absurd text inner.2.2
  · cases kept
    exact inner

end

/-! ## Texts and elements -/

/-- Signs between and behind attributes; one is enough. -/
def equals (signs : Nat) : List Lexeme := List.replicate signs ⟨.equals, ['=']⟩

/-- An attribute as it stands in a start tag, with its value in quotes. -/
structure Given where
  name : List Char
  value : List Char
  /-- How many signs stand between the name and the value. -/
  signs : Nat
  /-- How many stand behind the value, where they mean nothing. -/
  strays : Nat
  deriving DecidableEq

def Given.words (g : Given) : List Lexeme :=
  ⟨.attributeName, g.name⟩ :: (equals g.signs ++ ⟨.attributeValue, g.value⟩ :: equals g.strays)

/-- A start tag up to its end. -/
structure Opening where
  tag : List Char
  /-- How many signs stand behind the name, where they mean nothing. -/
  strays : Nat
  attributes : List Given
  deriving DecidableEq

/-- A close tag: what stands in it does not matter. -/
structure Closing where
  inside : List Lexeme
  last : Lexeme
  inner : ∀ w ∈ inside, w.Inner
  ends : last.endsTag = true

def Closing.words (c : Closing) : List Lexeme := ⟨.startCloseTag, ['<', '/']⟩ :: (c.inside ++ [c.last])

/-- Texts and elements, one behind the other. -/
inductive Content where
  | nil
  | text (chars : List Char) (rest : Content)
  /-- An element that closes itself. -/
  | leaf (start : Opening) (rest : Content)
  | element (start : Opening) (content : Content) (close : Closing) (rest : Content)

namespace Opening

def inside (o : Opening) : List Lexeme :=
  ⟨.tagName, o.tag⟩ :: (equals o.strays ++ o.attributes.flatMap Given.words)

def words (o : Opening) (last : Lexeme) : List Lexeme := ⟨.startTag, ['<']⟩ :: (o.inside ++ [last])

def start (o : Opening) (selfClosing : Bool) : StartTag where
  tag := String.ofList o.tag
  names := o.attributes.map fun g => String.ofList g.name
  values := o.attributes.map fun g => valueOf g.value
  selfClosing := selfClosing

theorem open_equals (n : Nat) : ∀ w ∈ equals n, w.Inner ∧ w.endsTag = false := by
  intro w hw
  rw [List.eq_of_mem_replicate hw]
  exact ⟨by simp [Lexeme.Inner], rfl⟩

theorem open_given (g : Given) : ∀ w ∈ g.words, w.Inner ∧ w.endsTag = false := by
  refine List.forall_mem_cons.mpr ⟨⟨by simp [Lexeme.Inner], rfl⟩, fun w hw => ?_⟩
  rcases List.mem_append.mp hw with hw | hw
  · exact open_equals _ w hw
  · rcases List.mem_cons.mp hw with rfl | hw
    · exact ⟨by simp [Lexeme.Inner], rfl⟩
    · exact open_equals _ w hw

/-- No word inside a start tag ends it or begins another. -/
theorem open_inside (o : Opening) : ∀ w ∈ o.inside, w.Inner ∧ w.endsTag = false := by
  refine List.forall_mem_cons.mpr ⟨⟨by simp [Lexeme.Inner], rfl⟩, fun w hw => ?_⟩
  rcases List.mem_append.mp hw with hw | hw
  · exact open_equals _ w hw
  · obtain ⟨g, -, hw⟩ := List.mem_flatMap.mp hw
    exact open_given g w hw

theorem startTag_inside (o : Opening) {last : Lexeme} (ends : last.endsTag = true) (rest : List Lexeme) :
    startTag (o.inside ++ last :: rest) = o.start (last.kind == .selfCloseEndTag) := by
  have none (n : Nat) (kind : TokenKind) (other : kind ≠ .equals) :
      (equals n).filter (fun w => w.kind == kind) = [] := by
    rw [List.filter_eq_nil_iff]
    intro w hw
    rw [List.eq_of_mem_replicate hw]
    simpa using other.symm
  have names (gs : List Given) : ((gs.flatMap Given.words).filter fun w => w.kind == .attributeName) =
      gs.map fun g => ⟨.attributeName, g.name⟩ := by
    induction gs with
    | nil => rfl
    | cons g gs ih => simp [Given.words, none, ih]
  have values (gs : List Given) : ((gs.flatMap Given.words).filter fun w => w.kind == .attributeValue) =
      gs.map fun g => ⟨.attributeValue, g.value⟩ := by
    induction gs with
    | nil => rfl
    | cons g gs ih => simp [Given.words, none, ih]
  rw [startTag_append rest (fun w hw => (o.open_inside w hw).2) ends, start]
  simp only [charsOf, inside, List.filter_cons, List.filter_append, names, values,
    none _ _ (show TokenKind.attributeName ≠ .equals by simp),
    none _ _ (show TokenKind.attributeValue ≠ .equals by simp)]
  simp [Function.comp_def]

end Opening

namespace Content

/-- The words of a content. -/
def words : Content → List Lexeme
  | nil => []
  | text chars rest => ⟨.text, chars⟩ :: rest.words
  | leaf start rest => start.words ⟨.selfCloseEndTag, ['/', '>']⟩ ++ rest.words
  | element start content close rest =>
    start.words ⟨.endTag, ['>']⟩ ++ (content.words ++ (close.words ++ rest.words))

def items : Content → List Item
  | nil => []
  | text chars rest => .text (textOf chars) :: rest.items
  | leaf start rest => .start (start.start true) :: rest.items
  | element start content _ rest => .start (start.start false) :: (content.items ++ .close :: rest.items)

end Content

/-! ## Elements one by one -/

/-- One element, without what comes behind it. -/
inductive Branch where
  | leaf (start : Opening)
  | element (start : Opening) (content : Content) (close : Closing)

namespace Branch

def opening : Branch → Opening
  | leaf start => start
  | element start _ _ => start

def content : Branch → Content
  | leaf _ => .nil
  | element _ content _ => content

def start : Branch → StartTag
  | leaf start => start.start true
  | element start _ _ => start.start false

def kind (b : Branch) : Kind := .ofTag b.start.tag

def before (rest : Content) : Branch → Content
  | leaf start => .leaf start rest
  | element start content close => .element start content close rest

/-- The close tag among the items, in the element with a number. -/
def ending (number : Nat) : Branch → List (Option Nat × Item)
  | leaf _ => []
  | element _ _ _ => [(some number, .close)]

end Branch

namespace Content

/-- A content is empty or begins with a text or an element. -/
@[elab_as_elim]
theorem branches {P : Content → Prop} (c : Content) (nil : P .nil)
    (text : ∀ chars rest, P rest → P (.text chars rest))
    (branch : ∀ (b : Branch) rest, P b.content → P rest → P (b.before rest)) : P c := by
  induction c with
  | nil => exact nil
  | text chars rest ih => exact text chars rest ih
  | leaf start rest ih => exact branch (.leaf start) rest nil ih
  | element start content close rest inner ih => exact branch (.element start content close) rest inner ih

end Content

/-! ## Contents that say the same -/

/-- The table has an attribute of this name for the element. -/
def Opening.declares (o : Opening) (g : Given) : Bool :=
  ((Kind.ofTag (String.ofList o.tag)).attribute? (String.ofList g.name)).isSome

/-- Two ways to write a start tag: declared attributes may stand anywhere, and other ones in
their order, and a value that has no quote in it may stand in either quotes. -/
inductive Opening.Alike : Opening → Opening → Prop
  | reorder (o : Opening) (attributes : List Given) (perm : o.attributes.Perm attributes)
    (undeclared : (o.attributes.filter fun g => !o.declares g) = attributes.filter fun g => !o.declares g) :
    Alike o { o with attributes := attributes }
  | requote (o : Opening) (before after : List Given) (g : Given) (quote quote' : Char)
    (inner : List Char) (split : o.attributes = before ++ g :: after)
    (quoted : g.value = quote :: (inner ++ [quote])) (quotes : ∀ q ∈ [quote, quote'], q = '"' ∨ q = '\'')
    (free : ∀ c ∈ inner, c ≠ '"' ∧ c ≠ '\'') :
    Alike o { o with attributes := before ++ { g with value := quote' :: (inner ++ [quote']) } :: after }

/-- Two ways to write the same. Besides what is written in another way, siblings of different
kinds may be exchanged; texts do not hold an element in its place. -/
inductive Content.Alike : Content → Content → Prop
  | refl (c : Content) : Alike c c
  | symm {c d : Content} (h : Alike c d) : Alike d c
  | trans {c d e : Content} (h : Alike c d) (h' : Alike d e) : Alike c e
  | text (chars : List Char) {c d : Content} (h : Alike c d) : Alike (.text chars c) (.text chars d)
  | behind (b : Branch) {c d : Content} (h : Alike c d) : Alike (b.before c) (b.before d)
  | inside (start : Opening) {c d : Content} (h : Alike c d) (close : Closing) (rest : Content) :
    Alike (.element start c close rest) (.element start d close rest)
  | leaf {start start' : Opening} (h : start.Alike start') (rest : Content) :
    Alike (.leaf start rest) (.leaf start' rest)
  | element {start start' : Opening} (h : start.Alike start') (content : Content) (close : Closing)
    (rest : Content) : Alike (.element start content close rest) (.element start' content close rest)
  | empty (start : Opening) (close : Closing) (rest : Content) :
    Alike (.leaf start rest) (.element start .nil close rest)
  | exchange (b b' : Branch) (kinds : b.kind ≠ b'.kind) (rest : Content) :
    Alike (b.before (b'.before rest)) (b'.before (b.before rest))
  | pass (b : Branch) (chars : List Char) (rest : Content) :
    Alike (b.before (.text chars rest)) (.text chars (b.before rest))

/-- No attribute is given twice. -/
def Opening.Distinct (o : Opening) : Prop := (o.attributes.map Given.name).Nodup

namespace Content

/-- No start tag gives an attribute twice. -/
def Distinct : Content → Prop
  | nil => True
  | text _ rest => rest.Distinct
  | leaf start rest => start.Distinct ∧ rest.Distinct
  | element start content _ rest => start.Distinct ∧ content.Distinct ∧ rest.Distinct

end Content

end QueryMarkup.Markup
