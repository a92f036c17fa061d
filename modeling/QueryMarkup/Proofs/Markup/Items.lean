import QueryMarkup.Proofs.Markup.Lexing
import QueryMarkup.Text.Reference

/-!
# What a text says

The words of a text are read as start tags, close tags and texts. Elements are numbered
in the order of their start tags. A close tag closes the innermost open element, whatever
its name, and what closes itself is never open. This says which element a start tag or a
text is directly in.
-/
namespace QueryMarkup.Markup

open Text

/-- The word ends a tag. -/
def Lexeme.endsTag (w : Lexeme) : Bool := w.kind == .endTag || w.kind == .selfCloseEndTag

/-- The characters of the words of one kind. -/
def charsOf (kind : TokenKind) (words : List Lexeme) : List (List Char) :=
  (words.filter fun w => w.kind == kind).map (·.chars)

/-- What a quoted value stands for: without its quotes, and with references replaced. -/
def valueOf (quoted : List Char) : String := String.ofList (decodeChars (quoted.drop 1).dropLast)

/-- What a text stands for: without blanks at its ends, and with references replaced. -/
def textOf (chars : List Char) : String := String.ofList (decodeChars (trim chars))

structure StartTag where
  tag : String
  names : List String
  /-- The values of the names, one for each. -/
  values : List String
  selfClosing : Bool

/-- The start tag whose `<` stands before some words. -/
def startTag (rest : List Lexeme) : StartTag :=
  let inside := rest.takeWhile fun w => !w.endsTag
  { tag := ((charsOf .tagName inside).map String.ofList).headD ""
    names := (charsOf .attributeName inside).map String.ofList
    values := (charsOf .attributeValue inside).map valueOf
    selfClosing := (rest.find? Lexeme.endsTag).any fun w => w.kind == .selfCloseEndTag }

inductive Item where
  | start (tag : StartTag)
  | close
  | text (text : String)

/-- The tags and texts that words make up. -/
def items : List Lexeme → List Item
  | [] => []
  | w :: rest =>
    match w.kind with
    | .startTag => .start (startTag rest) :: items rest
    | .startCloseTag => .close :: items rest
    | .text => .text (textOf w.chars) :: items rest
    | _ => items rest

/-- Gives every item the element that it is directly in, when `made` elements have come
before and the elements on the stack are open, the innermost first. -/
def locate (made : Nat) (stack : List Nat) : List Item → List (Option Nat × Item)
  | [] => []
  | .start tag :: rest =>
    (stack.head?, .start tag) ::
      locate (made + 1) (if tag.selfClosing then stack else made :: stack) rest
  | .close :: rest => (stack.head?, .close) :: locate made stack.tail rest
  | .text text :: rest => (stack.head?, .text text) :: locate made stack rest

/-- The start tags among located items, each with the number of the element around it. -/
def elementsOf (located : List (Option Nat × Item)) : List (Option Nat × StartTag) :=
  located.filterMap fun
    | (parent, .start tag) => some (parent, tag)
    | _ => none

/-- The texts directly in the element with a number. -/
def textsOf (located : List (Option Nat × Item)) (k : Nat) : List String :=
  located.filterMap fun
    | (some j, .text text) => if j = k then some text else none
    | _ => none

/-- The items of a text, each with the element that it is directly in. -/
def located (source : String) : List (Option Nat × Item) := locate 0 [] (items (words source))

/-! ## What may come next -/

/-- The first word of what stands between tags. -/
inductive InContent (w : Lexeme) (rest : List Lexeme) : Prop where
  | start (kind : w.kind = .startTag) (laid : Laid (.tag true) rest)
  | close (kind : w.kind = .startCloseTag) (laid : Laid (.tag true) rest)
  | text (kind : w.kind = .text) (laid : Laid .content rest)
  | quiet (kind : w.kind = .whitespace ∨ w.kind = .comment) (laid : Laid .content rest)

/-- The first word of what stands in a tag: it breaks the tag off, ends it or goes on. -/
inductive InTag (nameNext : Bool) (w : Lexeme) (rest : List Lexeme) : Prop where
  | breaks (kind : w.kind = .startTag ∨ w.kind = .startCloseTag ∨ w.kind = .error)
  | ends (ends : w.endsTag = true) (laid : Laid .content rest)
  | tagName (kind : w.kind = .tagName) (first : nameNext = true) (laid : Laid (.tag false) rest)
  | attributeName (kind : w.kind = .attributeName) (later : nameNext = false)
    (laid : Laid (.tag false) rest)
  | attributeValue (kind : w.kind = .attributeValue) (laid : Laid (.tag false) rest)
  | equals (kind : w.kind = .equals) (laid : Laid (.tag false) rest)
  | blank (kind : w.kind = .whitespace) (laid : Laid (.tag nameNext) rest)

theorem Laid.inContent {w : Lexeme} {rest : List Lexeme} (h : Laid .content (w :: rest)) :
    InContent w rest := by
  obtain ⟨-, next, hnext, laid⟩ := h
  cases kind : w.kind <;> rw [kind] at hnext <;> cases hnext
  · exact .start kind laid
  · exact .close kind laid
  · exact .text kind laid
  · exact .quiet (.inl kind) laid
  · exact .quiet (.inr kind) laid

theorem Laid.inTag {nameNext : Bool} {w : Lexeme} {rest : List Lexeme}
    (h : Laid (.tag nameNext) (w :: rest)) : InTag nameNext w rest := by
  obtain ⟨-, next, hnext, laid⟩ := h
  have goesOn {context : Context} (e : (Context.tag nameNext).next? w.kind = some context) :
      Laid context rest := by
    rw [hnext] at e
    cases e
    exact laid
  cases kind : w.kind with
  | startTag => exact .breaks (.inl kind)
  | startCloseTag => exact .breaks (.inr (.inl kind))
  | error => exact .breaks (.inr (.inr kind))
  | endTag =>
    exact .ends (by simp [Lexeme.endsTag, kind]) (goesOn (by simp [Context.next?, kind]))
  | selfCloseEndTag =>
    exact .ends (by simp [Lexeme.endsTag, kind]) (goesOn (by simp [Context.next?, kind]))
  | tagName =>
    cases nameNext with
    | true => exact .tagName kind rfl (goesOn (by simp [Context.next?, kind]))
    | false => simp [Context.next?, kind] at hnext
  | attributeName =>
    cases nameNext with
    | true => simp [Context.next?, kind] at hnext
    | false => exact .attributeName kind rfl (goesOn (by simp [Context.next?, kind]))
  | attributeValue => exact .attributeValue kind (goesOn (by simp [Context.next?, kind]))
  | equals => exact .equals kind (goesOn (by simp [Context.next?, kind]))
  | whitespace => exact .blank kind (goesOn (by simp [Context.next?, kind]))
  | text => simp [Context.next?, kind] at hnext
  | comment => simp [Context.next?, kind] at hnext

/-! ## Reading tag by tag -/

/-- Words inside a tag are no items. -/
def Lexeme.Inner (w : Lexeme) : Prop :=
  w.kind ≠ .startTag ∧ w.kind ≠ .startCloseTag ∧ w.kind ≠ .text

theorem items_of_inner {w : Lexeme} (h : w.Inner) (rest : List Lexeme) :
    items (w :: rest) = items rest := by
  obtain ⟨h1, h2, h3⟩ := h
  rw [items]
  split
  · rename_i e
    exact absurd e h1
  · rename_i e
    exact absurd e h2
  · rename_i e
    exact absurd e h3
  · rfl

theorem items_append_of_inner {inside : List Lexeme} (h : ∀ w ∈ inside, w.Inner)
    (rest : List Lexeme) : items (inside ++ rest) = items rest := by
  induction inside with
  | nil => rfl
  | cons w inside ih =>
    rw [List.cons_append, items_of_inner (h w List.mem_cons_self),
      ih fun v hv => h v (List.mem_cons_of_mem w hv)]

theorem inner_of_endsTag {w : Lexeme} (h : w.endsTag = true) : w.Inner := by
  simp only [Lexeme.endsTag, Bool.or_eq_true, beq_iff_eq] at h
  rcases h with h | h <;> simp [Lexeme.Inner, h]

/-- A start tag is what stands before the word that ends it. -/
theorem startTag_append {inside : List Lexeme} {last : Lexeme} (rest : List Lexeme)
    (open' : ∀ w ∈ inside, w.endsTag = false) (ends : last.endsTag = true) :
    startTag (inside ++ last :: rest) =
      { tag := ((charsOf .tagName inside).map String.ofList).headD ""
        names := (charsOf .attributeName inside).map String.ofList
        values := (charsOf .attributeValue inside).map valueOf
        selfClosing := last.kind == .selfCloseEndTag } := by
  have until' : (inside ++ last :: rest).takeWhile (fun w => !w.endsTag) = inside := by
    rw [List.takeWhile_append_of_pos (by simpa using open')]
    simp [ends]
  have found : (inside ++ last :: rest).find? Lexeme.endsTag = some last := by
    rw [List.find?_append, List.find?_eq_none.mpr (by simpa using open'), Option.none_or]
    simp [ends]
  rw [startTag]
  simp only [until', found, Option.any_some]

/-- A blank before a start tag's name is no part of it. -/
theorem startTag_cons_blank {w : Lexeme} (h : w.kind = .whitespace) (rest : List Lexeme) :
    startTag (w :: rest) = startTag rest := by
  simp [startTag, Lexeme.endsTag, charsOf, h]

theorem elementsOf_append (xs ys : List (Option Nat × Item)) :
    elementsOf (xs ++ ys) = elementsOf xs ++ elementsOf ys := List.filterMap_append

theorem textsOf_append (xs ys : List (Option Nat × Item)) (k : Nat) :
    textsOf (xs ++ ys) k = textsOf xs k ++ textsOf ys k := List.filterMap_append

/-- There is one element for each start tag. -/
theorem length_elementsOf_locate (made : Nat) (stack : List Nat) (ws : List Lexeme) :
    (elementsOf (locate made stack (items ws))).length =
      ws.countP fun w => w.kind == .startTag := by
  induction ws generalizing made stack with
  | nil => rfl
  | cons w rest ih =>
    rw [items, List.countP_cons]
    split
    · rename_i e
      rw [e]
      exact congrArg (· + 1) (ih _ _)
    · rename_i e
      rw [e]
      exact ih _ _
    · rename_i e
      rw [e]
      exact ih _ _
    · rename_i start _ _
      have other : (w.kind == .startTag) = false := by simpa using start
      rw [other]
      exact ih _ _

end QueryMarkup.Markup
