import Mathlib.Data.List.TakeWhile
import QueryMarkup.Markup.Lexer
import QueryMarkup.Proofs.Text.Boundary

/-!
# The lexemes of a text

The lexemes of a text, put together, are the text, and the token of a lexeme names its
characters. Which kinds may follow each other is said by `Context.next?`; what the
characters of a kind look like is said by `Lexeme.Fits`.
-/
namespace QueryMarkup.Markup

open Text

/-- The context after a token of this kind, in the contexts where there can be one. -/
def Context.next? : Context → TokenKind → Option Context
  | _, .startTag => some (.tag true)
  | _, .startCloseTag => some (.tag true)
  | .content, .text => some .content
  | .content, .whitespace => some .content
  | .content, .comment => some .content
  | .tag nameNext, .whitespace => some (.tag nameNext)
  | .tag true, .tagName => some (.tag false)
  | .tag false, .attributeName => some (.tag false)
  | .tag _, .equals => some (.tag false)
  | .tag _, .attributeValue => some (.tag false)
  | .tag _, .error => some (.tag false)
  | .tag _, .endTag => some .content
  | .tag _, .selfCloseEndTag => some .content
  | _, _ => none

/-- The characters make up a name. -/
def isName : List Char → Bool
  | [] => false
  | c :: rest => isNameStart c && rest.all isNameChar

theorem isNameChar_of_isName {cs : List Char} (h : isName cs = true) :
    ∀ c ∈ cs, isNameChar c = true := by
  cases cs with
  | nil => simp
  | cons c cs =>
    rw [isName, Bool.and_eq_true, List.all_eq_true] at h
    exact List.forall_mem_cons.mpr ⟨by simp [isNameChar, h.1], h.2⟩

/-- The characters of a lexeme are as its kind says, as far as that matters for reading. -/
def Lexeme.Fits (l : Lexeme) : Prop :=
  match l.kind with
  | .attributeValue => ∃ q inner, (q = '"' ∨ q = '\'') ∧ l.chars = q :: (inner ++ [q])
  | .text => isAllBlank l.chars = false
  | .tagName | .attributeName => isName l.chars = true
  | _ => True

/-- Every lexeme may stand where it stands. -/
def Laid : Context → List Lexeme → Prop
  | _, [] => True
  | context, l :: rest => l.Fits ∧ ∃ next, context.next? l.kind = some next ∧ Laid next rest

theorem Laid.fits {context : Context} {ls : List Lexeme} (h : Laid context ls) :
    ∀ l ∈ ls, l.Fits := by
  induction ls generalizing context with
  | nil => simp
  | cons l rest ih =>
    obtain ⟨fits, next, _, hrest⟩ := h
    exact List.forall_mem_cons.mpr ⟨fits, ih hrest⟩

/-! ## Lexemes may stand where they stand -/

theorem take_length_takeWhile {α : Type} (p : α → Bool) (l : List α) :
    l.take (l.takeWhile p).length = l.takeWhile p :=
  (List.prefix_iff_eq_take.mp (List.takeWhile_prefix p)).symm

theorem contentStep_laid (c : Char) (rest : List Char) :
    Context.next? .content (contentStep (c :: rest)).kind = some (contentStep (c :: rest)).context ∧
      Lexeme.Fits ⟨(contentStep (c :: rest)).kind,
        c :: rest.take ((contentStep (c :: rest)).length - 1)⟩ := by
  unfold contentStep
  split
  · exact ⟨rfl, trivial⟩
  · split
    · exact ⟨rfl, trivial⟩
    · exact ⟨rfl, trivial⟩
  · rename_i closes opens
    have hc : c ≠ '<' := fun e => by
      subst e
      exact opens rest rfl
    have run : (c :: rest).takeWhile (· ≠ '<') = c :: rest.takeWhile (· ≠ '<') := by simp [hc]
    simp only [run, List.length_cons, Nat.add_sub_cancel, take_length_takeWhile]
    by_cases blank : isAllBlank (c :: rest.takeWhile (· ≠ '<')) = true
    · rw [if_pos blank]
      exact ⟨rfl, trivial⟩
    · rw [if_neg blank]
      exact ⟨rfl, by simpa [Lexeme.Fits] using blank⟩

/-- A quoted value goes up to and with the next such quote. -/
theorem take_quoted {q : Char} {rest : List Char}
    (h : (rest.takeWhile (· ≠ q)).length < rest.length) :
    rest.take ((rest.takeWhile (· ≠ q)).length + 1) = rest.takeWhile (· ≠ q) ++ [q] := by
  have split := @List.takeWhile_append_dropWhile _ (· ≠ q) rest
  have head := List.head?_dropWhile_not (· ≠ q) rest
  generalize rest.dropWhile (· ≠ q) = closing at split head
  generalize rest.takeWhile (· ≠ q) = inner at split h ⊢
  subst split
  cases closing with
  | nil =>
    rw [List.append_nil] at h
    exact absurd h (Nat.lt_irrefl _)
  | cons d more =>
    have hdq : d = q := by simpa using head
    simp [List.take_append, hdq, List.take_of_length_le]

theorem quoted_fits {q : Char} {rest : List Char} (hq : q = '"' ∨ q = '\'')
    (h : (rest.takeWhile (· ≠ q)).length < rest.length) :
    Lexeme.Fits ⟨.attributeValue, q :: rest.take ((rest.takeWhile (· ≠ q)).length + 1)⟩ :=
  ⟨q, rest.takeWhile (· ≠ q), hq, congrArg (q :: ·) (take_quoted h)⟩

theorem tagStep_laid (nameNext : Bool) (c : Char) (rest : List Char) :
    Context.next? (.tag nameNext) (tagStep nameNext (c :: rest)).kind =
        some (tagStep nameNext (c :: rest)).context ∧
      Lexeme.Fits ⟨(tagStep nameNext (c :: rest)).kind,
        c :: rest.take ((tagStep nameNext (c :: rest)).length - 1)⟩ := by
  unfold tagStep
  split
  · exact ⟨rfl, trivial⟩
  · exact ⟨rfl, trivial⟩
  · exact ⟨rfl, trivial⟩
  · exact ⟨rfl, trivial⟩
  · exact ⟨rfl, trivial⟩
  · rename_i e
    cases e
  · rename_i d tail _ _ _ _ _ e
    cases e
    split
    · rename_i hq
      simp only [quotedLength]
      split
      · rename_i closed
        exact ⟨rfl, quoted_fits hq closed⟩
      · exact ⟨rfl, trivial⟩
    · split
      · exact ⟨rfl, trivial⟩
      · split
        · rename_i start
          have names : isName (c :: rest.takeWhile isNameChar) = true := by
            rw [isName, start, Bool.true_and, List.all_eq_true]
            exact fun x hx => List.mem_takeWhile_imp hx
          simp only [Nat.add_sub_cancel, take_length_takeWhile]
          cases nameNext with
          | true => exact ⟨rfl, names⟩
          | false => exact ⟨rfl, names⟩
        · exact ⟨rfl, trivial⟩

theorem lexemesFrom_laid (context : Context) (cs : List Char) : Laid context (lexemesFrom context cs) := by
  induction context, cs using lexemesFrom.induct with
  | case1 context => rw [lexemesFrom]; trivial
  | case2 context c rest s ih =>
    rw [lexemesFrom]
    cases context with
    | content =>
      obtain ⟨next, fits⟩ := contentStep_laid c rest
      exact ⟨fits, _, next, ih⟩
    | tag nameNext =>
      obtain ⟨next, fits⟩ := tagStep_laid nameNext c rest
      exact ⟨fits, _, next, ih⟩

theorem next?_error {context next : Context} (h : context.next? .error = some next) :
    next = .tag false := by
  cases context with
  | content => cases h
  | tag nameNext => cases nameNext <;> exact (Option.some.inj h).symm

theorem joinErrors_laid {context : Context} {ls : List Lexeme} (h : Laid context ls) :
    Laid context (joinErrors ls) := by
  induction ls generalizing context with
  | nil => trivial
  | cons a rest ih =>
    obtain ⟨fits, next, hnext, hrest⟩ := h
    have tail := ih hrest
    unfold joinErrors
    split
    · rename_i b more joined
      rw [joined] at tail
      split
      · rename_i errors
        obtain ⟨_, after, hafter, hmore⟩ := tail
        rw [errors.1] at hnext
        rw [errors.2] at hafter
        have same : after = next := (next?_error hafter).trans (next?_error hnext).symm
        exact ⟨trivial, next, hnext, same ▸ hmore⟩
      · exact ⟨fits, next, hnext, tail⟩
    · exact ⟨fits, next, hnext, trivial⟩

theorem lexemes_laid (cs : List Char) : Laid .content (lexemes cs) :=
  joinErrors_laid (lexemesFrom_laid .content cs)

/-! ## Lexemes are the parts of the text -/

theorem flatMap_lexemesFrom (context : Context) (cs : List Char) :
    (lexemesFrom context cs).flatMap (·.chars) = cs := by
  induction context, cs using lexemesFrom.induct with
  | case1 context => rw [lexemesFrom]; rfl
  | case2 context c rest s ih =>
    rw [lexemesFrom, List.flatMap_cons, ih, List.cons_append, List.take_append_drop]

theorem flatMap_joinErrors (ls : List Lexeme) :
    (joinErrors ls).flatMap (·.chars) = ls.flatMap (·.chars) := by
  induction ls with
  | nil => rfl
  | cons a rest ih =>
    unfold joinErrors
    split
    · rename_i b more joined
      rw [joined] at ih
      rw [List.flatMap_cons, ← ih]
      split <;> simp
    · rename_i joined
      rw [joined] at ih
      rw [List.flatMap_cons, List.flatMap_cons, ← ih]

theorem flatMap_lexemes (cs : List Char) : (lexemes cs).flatMap (·.chars) = cs := by
  rw [lexemes, flatMap_joinErrors, flatMap_lexemesFrom]

/-- A token with the characters that it names. -/
def lexemeOf (source : String) (token : Token) : Lexeme :=
  ⟨token.kind, (slice source token.span).toList⟩

/-- The tokens of a text with their characters. -/
def words (source : String) : List Lexeme := (lex source).map (lexemeOf source)

theorem map_lexemeOf_place (ls : List Lexeme) (before : List Char) :
    (place (byteLength before) ls).map
      (lexemeOf (String.ofList (before ++ ls.flatMap (·.chars)))) = ls := by
  induction ls generalizing before with
  | nil => rfl
  | cons l rest ih =>
    have stop : (Range.ofLength (byteLength before) (byteLength l.chars)).stop =
        byteLength (before ++ l.chars) := (byteLength_append _ _).symm
    rw [place, List.map_cons, stop, lexemeOf, List.flatMap_cons,
      (Range.names_append before l.chars _).slice_eq, ← List.append_assoc,
      ih (before ++ l.chars), String.toList_ofList]

/-- Tokens lie in the text that they were taken from. -/
theorem within_of_mem_place {ls : List Lexeme} {before : List Char} {token : Token}
    (h : token ∈ place (byteLength before) ls) :
    token.span.Within (String.ofList (before ++ ls.flatMap (·.chars))) := by
  induction ls generalizing before with
  | nil => cases h
  | cons l rest ih =>
    have stop : (Range.ofLength (byteLength before) (byteLength l.chars)).stop =
        byteLength (before ++ l.chars) := (byteLength_append _ _).symm
    rw [place, stop] at h
    rw [List.flatMap_cons]
    rcases List.mem_cons.mp h with rfl | later
    · exact (Range.names_append before l.chars _).within
    · rw [← List.append_assoc]
      exact ih later

theorem within_of_mem_lex {source : String} {token : Token} (h : token ∈ lex source) :
    token.span.Within source := by
  have placed := @within_of_mem_place (lexemes source.toList) [] token h
  rwa [List.nil_append, flatMap_lexemes, String.ofList_toList] at placed

/-- The tokens of a text name its lexemes. -/
theorem words_eq (source : String) : words source = lexemes source.toList := by
  have := map_lexemeOf_place (lexemes source.toList) []
  rwa [List.nil_append, flatMap_lexemes, String.ofList_toList] at this

theorem words_laid (source : String) : Laid .content (words source) :=
  words_eq source ▸ lexemes_laid _

theorem fits_of_mem_lex {source : String} : ∀ token ∈ lex source, (lexemeOf source token).Fits :=
  fun _ hm => (words_laid source).fits _ (List.mem_map_of_mem hm)

/-! ## Signs are spelled in one way -/

/-- The characters of a sign. -/
def sign? : TokenKind → Option (List Char)
  | .startTag => some ['<']
  | .startCloseTag => some ['<', '/']
  | .endTag => some ['>']
  | .selfCloseEndTag => some ['/', '>']
  | .equals => some ['=']
  | _ => none

/-- A sign has its own characters. -/
def Lexeme.Spelled (l : Lexeme) : Prop := ∀ chars ∈ sign? l.kind, l.chars = chars

theorem Lexeme.Spelled.eq {l : Lexeme} (h : l.Spelled) {kind : TokenKind} (k : l.kind = kind)
    {chars : List Char} (sign : sign? kind = some chars) : l = ⟨kind, chars⟩ := by
  rw [← k, ← h chars (k ▸ sign)]

theorem spelled_sign {kind : TokenKind} {chars : List Char} (h : sign? kind = some chars) :
    Lexeme.Spelled ⟨kind, chars⟩ := fun _ sign => Option.some.inj (h.symm.trans sign)

theorem spelled_of_none {kind : TokenKind} (h : sign? kind = none) (chars : List Char) :
    Lexeme.Spelled ⟨kind, chars⟩ := fun _ sign => absurd (h.symm.trans sign) (by simp)

theorem contentStep_spelled (c : Char) (rest : List Char) :
    Lexeme.Spelled ⟨(contentStep (c :: rest)).kind,
      c :: rest.take ((contentStep (c :: rest)).length - 1)⟩ := by
  unfold contentStep
  split
  · rename_i e
    cases e
    exact spelled_sign rfl
  · rename_i e
    cases e
    split
    · exact spelled_of_none rfl _
    · exact spelled_sign rfl
  · dsimp only
    split <;> exact spelled_of_none rfl _

theorem tagStep_spelled (nameNext : Bool) (c : Char) (rest : List Char) :
    Lexeme.Spelled ⟨(tagStep nameNext (c :: rest)).kind,
      c :: rest.take ((tagStep nameNext (c :: rest)).length - 1)⟩ := by
  unfold tagStep
  split
  case h_6 e => cases e
  case h_7 e =>
    split
    · simp only [quotedLength]
      split <;> exact spelled_of_none rfl _
    · split
      · exact spelled_of_none rfl _
      · split
        · cases nameNext <;> exact spelled_of_none rfl _
        · exact spelled_of_none rfl _
  all_goals
    rename_i e
    cases e
    exact spelled_sign rfl

theorem lexemesFrom_spelled (context : Context) (cs : List Char) :
    ∀ l ∈ lexemesFrom context cs, l.Spelled := by
  induction context, cs using lexemesFrom.induct with
  | case1 context => rw [lexemesFrom]; simp
  | case2 context c rest s ih =>
    rw [lexemesFrom]
    refine List.forall_mem_cons.mpr ⟨?_, ih⟩
    cases context with
    | content => exact contentStep_spelled c rest
    | tag nameNext => exact tagStep_spelled nameNext c rest

theorem joinErrors_spelled {ls : List Lexeme} (h : ∀ l ∈ ls, l.Spelled) :
    ∀ l ∈ joinErrors ls, l.Spelled := by
  induction ls with
  | nil => exact h
  | cons a rest ih =>
    obtain ⟨first, later⟩ := List.forall_mem_cons.mp h
    have tail := ih later
    unfold joinErrors
    split
    · rename_i b more joined
      rw [joined] at tail
      split
      · exact List.forall_mem_cons.mpr
          ⟨spelled_of_none rfl _, fun l hl => tail l (List.mem_cons_of_mem b hl)⟩
      · exact List.forall_mem_cons.mpr ⟨first, tail⟩
    · exact List.forall_mem_singleton.mpr first

theorem words_spelled (source : String) : ∀ w ∈ words source, w.Spelled :=
  words_eq source ▸ joinErrors_spelled (lexemesFrom_spelled .content source.toList)

end QueryMarkup.Markup
