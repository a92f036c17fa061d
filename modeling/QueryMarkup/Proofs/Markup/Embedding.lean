import QueryMarkup.Proofs.Markup.Writing
import QueryMarkup.Proofs.Text.Grammar

/-!
# Written text inside markup

What is written with references may stand anywhere in markup: none of its characters has a
meaning there, and its ampersands all belong to the references. Between quotes it is the one
value that the lexer takes off, between tags the one text, and the words around it are those
that would be there without it.
-/
namespace QueryMarkup.Text

/-! ## No character with a meaning -/

/-- The characters that may end a text or a value. -/
def delimiters : List Char := ['<', '>', '"', '\'']

/-- No delimiter is left, and every ampersand starts a reference by one of the five names. -/
structure Sealed (cs : List Char) : Prop where
  plain : ∀ c ∈ delimiters, c ∉ cs
  references : ∀ before after, cs = before ++ '&' :: after →
    ∃ p ∈ predefined, p.1 ++ [';'] <+: after

theorem sealed_nil : Sealed [] := ⟨by simp, by simp⟩

theorem sealed_singleton {c : Char} (plain : c ∉ delimiters) (amp : c ≠ '&') : Sealed [c] := by
  constructor
  · intro d hd hc
    exact plain (List.mem_singleton.mp hc ▸ hd)
  · intro before after split
    have here : '&' ∈ [c] := by simp [split]
    exact absurd (List.mem_singleton.mp here).symm amp

theorem sealed_reference {name : List Char} {c : Char} (h : (name, c) ∈ predefined) :
    Sealed ('&' :: (name ++ [';'])) := by
  have inside : ∀ p ∈ predefined, ∀ d ∈ '&' :: delimiters, d ∉ p.1 ++ [';'] := by
    simp [predefined, delimiters]
  constructor
  · intro d hd mem
    rcases List.mem_cons.mp mem with rfl | later
    · exact absurd hd (by decide)
    · exact inside _ h d (List.mem_cons_of_mem _ hd) later
  · intro before after split
    cases before with
    | nil => exact ⟨_, h, (List.cons.inj split).2 ▸ List.prefix_rfl⟩
    | cons c before =>
      have later : '&' ∈ name ++ [';'] := by
        rw [(List.cons.inj split).2]
        simp
      exact absurd later (inside _ h '&' List.mem_cons_self)

theorem Sealed.append {xs ys : List Char} (hx : Sealed xs) (hy : Sealed ys) : Sealed (xs ++ ys) := by
  constructor
  · intro c hc mem
    rcases List.mem_append.mp mem with first | second
    · exact hx.plain c hc first
    · exact hy.plain c hc second
  · intro before after split
    rcases List.append_eq_append_iff.mp split with ⟨front, -, second⟩ | ⟨tail, first, rest⟩
    · exact hy.references front after second
    · -- the ampersand stands in the first part unless that part ends right before it
      cases tail with
      | nil => exact hy.references [] after rest.symm
      | cons c tail =>
        obtain ⟨rfl, rfl⟩ := List.cons.inj rest
        obtain ⟨p, known, starts⟩ := hx.references before tail first
        exact ⟨p, known, starts.trans (List.prefix_append _ _)⟩

/-- A character is written as itself or by one of the five names. -/
theorem encodeChar_spelled (c : Char) :
    encodeChar c = [c] ∧ c ∉ delimiters ∧ c ≠ '&' ∨
      ∃ name, (name, c) ∈ predefined ∧ encodeChar c = '&' :: (name ++ [';']) := by
  unfold encodeChar
  split
  · exact .inr ⟨['a', 'm', 'p'], by decide, rfl⟩
  · exact .inr ⟨['l', 't'], by decide, rfl⟩
  · exact .inr ⟨['g', 't'], by decide, rfl⟩
  · exact .inr ⟨['q', 'u', 'o', 't'], by decide, rfl⟩
  · exact .inr ⟨['a', 'p', 'o', 's'], by decide, rfl⟩
  · rename_i amp lt gt quot apos
    have plain : c ∉ delimiters := by simpa [delimiters] using ⟨lt, gt, quot, apos⟩
    exact .inl ⟨rfl, plain, amp⟩

theorem sealed_encodeChar (c : Char) : Sealed (encodeChar c) := by
  rcases encodeChar_spelled c with ⟨e, plain, amp⟩ | ⟨name, known, e⟩
  · rw [e]
    exact sealed_singleton plain amp
  · rw [e]
    exact sealed_reference known

theorem sealed_encodeChars (cs : List Char) : Sealed (encodeChars cs) := by
  induction cs with
  | nil => exact sealed_nil
  | cons c cs ih =>
    rw [encodeChars_cons]
    exact (sealed_encodeChar c).append ih

end QueryMarkup.Text

namespace QueryMarkup.Markup

open Text

/-! ## One word inside a text -/

/-- The words of `before` end where `rest` begins, and `rest` is read in `context`. -/
def Meets (before : List Char) (context : Context) (rest : List Char) : Prop :=
  lexemesFrom .content (before ++ rest) = lexemesFrom .content before ++ lexemesFrom context rest

/-- Errors are not joined across another word. -/
theorem joinErrors_append_cons {l : Lexeme} (h : l.kind ≠ .error) (xs ys : List Lexeme) :
    joinErrors (xs ++ l :: ys) = joinErrors xs ++ l :: joinErrors ys := by
  have alone : joinErrors (l :: ys) = l :: joinErrors ys := by
    rw [joinErrors]
    split
    · rename_i e
      rw [if_neg (fun both => h both.1), e]
    · rename_i e
      rw [e]
  induction xs with
  | nil => exact alone
  | cons x xs ih =>
    rw [List.cons_append, joinErrors, joinErrors, ih]
    cases joinErrors xs with
    | nil => simp [h]
    | cons y more =>
      simp only [List.cons_append]
      split <;> rfl

theorem place_append_lexemes (start : Nat) (xs ys : List Lexeme) :
    place start (xs ++ ys) =
      place start xs ++ place (start + byteLength (xs.flatMap (·.chars))) ys := by
  induction xs generalizing start with
  | nil => rfl
  | cons x xs ih =>
    have stop : (Range.ofLength start (byteLength x.chars)).stop = start + byteLength x.chars := rfl
    rw [List.cons_append, place, place, stop, ih, List.flatMap_cons, byteLength_append, Nat.add_assoc]
    rfl

/-- The tokens of a text around one word that is no error: those before it are as without the
rest of the text, and those behind it are the tokens of what is left. -/
theorem lex_around {before word after : List Char} {context next : Context} {kind : TokenKind}
    (known : kind ≠ .error) (meets : Meets before context (word ++ after))
    (first : lexemesFrom context (word ++ after) = ⟨kind, word⟩ :: lexemesFrom next after) :
    lex (String.ofList (before ++ (word ++ after))) =
      lex (String.ofList before) ++
        ⟨kind, Range.ofLength (byteLength before) (byteLength word)⟩ ::
          place (byteLength before + byteLength word) (joinErrors (lexemesFrom next after)) := by
  have whole : lexemes (before ++ (word ++ after)) =
      lexemes before ++ ⟨kind, word⟩ :: joinErrors (lexemesFrom next after) := by
    rw [lexemes, meets, first, joinErrors_append_cons known]
    rfl
  rw [lex, lex, String.toList_ofList, String.toList_ofList, whole, place_append_lexemes,
    flatMap_lexemes, Nat.zero_add]
  rfl

/-! ## Values and texts -/

/-- A string as a value in double quotes. -/
def quoted (s : String) : List Char := '"' :: ((encode s).toList ++ ['"'])

theorem toList_encode (s : String) : (encode s).toList = encodeChars s.toList :=
  String.toList_ofList

/-- A value is one word wherever the lexer stands in a tag. -/
theorem lexemesFrom_value (s : String) (nameNext : Bool) (rest : List Char) :
    lexemesFrom (.tag nameNext) (quoted s ++ rest) =
      ⟨.attributeValue, quoted s⟩ :: lexemesFrom (.tag false) rest := by
  have inner : '"' ∉ (encode s).toList := toList_encode s ▸ (not_mem_encodeChars _).2
  have apart : quoted s ++ rest = '"' :: ((encode s).toList ++ '"' :: rest) := by simp [quoted]
  rw [apart, lexemesFrom_quoted inner]
  rfl

/-- A text without blanks at its ends is one word up to the next tag. -/
theorem lexemesFrom_text {s : String} (shown : trimmed s ≠ "") {rest : List Char}
    (stop : ∀ c ∈ rest.head?, c = '<') :
    lexemesFrom .content ((encode (trimmed s)).toList ++ rest) =
      ⟨.text, (encode (trimmed s)).toList⟩ :: lexemesFrom .content rest := by
  have chars : (encode (trimmed s)).toList = encodeChars (trim s.toList) := by
    rw [toList_encode, trimmed, String.toList_ofList]
  have some : trim s.toList ≠ [] := by
    intro none
    apply shown
    rw [trimmed, none]
  have filled : encodeChars (trim s.toList) ≠ [] := mt encodeChars_eq_nil.mp some
  have visible : isAllBlank (encodeChars (trim s.toList)) ≠ true := by
    intro blank
    -- a tight text that is all blank is empty
    have tight := trim_eq_self_iff.mpr (tight_trim s.toList).encodeChars
    exact filled (tight.symm.trans (trim_eq_nil.mpr blank))
  rw [chars, lexemesFrom_run (not_mem_encodeChars _).1 stop, runWords, if_neg filled, if_neg visible]
  rfl

/-- Escaping can be undone and is safe to embed: a written string is read back as it was, holds
no delimiter and no ampersand but those of the five references, and is one value between double
quotes and, without the blanks at its ends and unless nothing is left, one text before a tag. -/
theorem encode_embeds (s : String) :
    decode (encode s) = s ∧ Sealed (encode s).toList ∧
    (∀ before nameNext after, Meets before (.tag nameNext) (quoted s ++ after) →
      lex (String.ofList (before ++ (quoted s ++ after))) =
        lex (String.ofList before) ++
          ⟨.attributeValue, Range.ofLength (byteLength before) (byteLength (quoted s))⟩ ::
            place (byteLength before + byteLength (quoted s))
              (joinErrors (lexemesFrom (.tag false) after))) ∧
    ∀ before after, trimmed s ≠ "" → (∀ c ∈ after.head?, c = '<') →
      Meets before .content ((encode (trimmed s)).toList ++ after) →
      lex (String.ofList (before ++ ((encode (trimmed s)).toList ++ after))) =
        lex (String.ofList before) ++
          ⟨.text, Range.ofLength (byteLength before) (byteLength (encode (trimmed s)).toList)⟩ ::
            place (byteLength before + byteLength (encode (trimmed s)).toList)
              (joinErrors (lexemesFrom .content after)) := by
  refine ⟨decode_encode s, toList_encode s ▸ sealed_encodeChars _, ?_, ?_⟩
  · intro before nameNext after meets
    exact lex_around (by decide) meets (lexemesFrom_value s nameNext after)
  · intro before after shown stop meets
    exact lex_around (by decide) meets (lexemesFrom_text shown stop)

/-- The value of the first attribute of a tag, and a text right behind one. -/
theorem encode_embeds_ampersands :
    (Meets ['<', 'a', ' ', 'b', '='] (.tag false) (quoted "&\"&amp" ++ ['>']) ∧
      lex (String.ofList (['<', 'a', ' ', 'b', '='] ++ (quoted "&\"&amp" ++ ['>']))) =
        lex (String.ofList ['<', 'a', ' ', 'b', '=']) ++
          ⟨.attributeValue, Range.ofLength 5 21⟩ :: [⟨.endTag, Range.ofLength 26 1⟩]) ∧
    trimmed " <;& " ≠ "" ∧
      Meets ['<', 'a', '>'] .content ((encode (trimmed " <;& ")).toList ++ ['<']) ∧
      lex (String.ofList (['<', 'a', '>'] ++ ((encode (trimmed " <;& ")).toList ++ ['<']))) =
        lex (String.ofList ['<', 'a', '>']) ++
          ⟨.text, Range.ofLength 3 10⟩ :: [⟨.startTag, Range.ofLength 13 1⟩] := by
  have inTag (rest : List Char) : Meets ['<', 'a', ' ', 'b', '='] (.tag false) ('"' :: rest) := by
    simp [Meets, lexemesFrom, step, contentStep, tagStep, commentLength, isTagBlank, isNameStart,
      isNameChar]
  have inContent (rest : List Char) : Meets ['<', 'a', '>'] .content rest := by
    simp [Meets, lexemesFrom, step, contentStep, tagStep, commentLength, isTagBlank, isNameStart,
      isNameChar]
  have shown : trimmed " <;& " ≠ "" := by decide
  obtain ⟨-, -, value, -⟩ := encode_embeds "&\"&amp"
  obtain ⟨-, -, -, text⟩ := encode_embeds " <;& "
  refine ⟨⟨inTag _, ?_⟩, shown, inContent _, ?_⟩
  · have last : lexemesFrom (.tag false) ['>'] = [⟨.endTag, ['>']⟩] := by
      simp [lexemesFrom, step, tagStep]
    rw [value _ false _ (inTag _), last]
    rfl
  · have last : lexemesFrom .content ['<'] = [⟨.startTag, ['<']⟩] := by
      simp [lexemesFrom, step, contentStep, commentLength]
    rw [text _ _ shown (by simp) (inContent _), last]
    rfl

end QueryMarkup.Markup
