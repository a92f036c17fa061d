import Mathlib.Data.List.Chain
import QueryMarkup.Proofs.Markup.Lexing

/-!
# Tokens tile a text

The tokens of a text stand side by side from its first byte to its last, and the characters
of each are as the grammar says of its kind. A name is the name of a tag exactly when nothing
but blanks stands between it and the sign that opens the tag.
-/
namespace QueryMarkup.Markup

open Text

/-! ## The grammar of tokens -/

/-- A text in which no hyphen stands beside another or at the end. -/
def Loose (inner : List Char) : Prop := ¬ ['-', '-'] <:+: inner ∧ inner.getLast? ≠ some '-'

/-- The characters of a token are as the grammar says of its kind. An error is what fits
nothing else. -/
def Lexeme.Formed (l : Lexeme) : Prop :=
  match l.kind with
  | .startTag => l.chars = ['<']
  | .startCloseTag => l.chars = ['<', '/']
  | .endTag => l.chars = ['>']
  | .selfCloseEndTag => l.chars = ['/', '>']
  | .equals => l.chars = ['=']
  | .tagName | .attributeName => isName l.chars = true
  | .attributeValue => ∃ q inner, (q = '"' ∨ q = '\'') ∧ l.chars = q :: (inner ++ [q]) ∧ q ∉ inner
  | .text => '<' ∉ l.chars ∧ isAllBlank l.chars = false
  | .whitespace => isAllBlank l.chars = true
  | .comment => ∃ inner, l.chars = ['<', '!', '-', '-'] ++ (inner ++ ['-', '-', '>']) ∧
      Loose inner
  | .error => True

/-- What the characters of the tokens without a fixed spelling leave out. -/
def Lexeme.Confined (l : Lexeme) : Prop :=
  match l.kind with
  | .attributeValue => ∃ q inner, (q = '"' ∨ q = '\'') ∧ l.chars = q :: (inner ++ [q]) ∧ q ∉ inner
  | .text => '<' ∉ l.chars
  | .whitespace => isAllBlank l.chars = true
  | .comment => ∃ inner, l.chars = ['<', '!', '-', '-'] ++ (inner ++ ['-', '-', '>']) ∧
      Loose inner
  | _ => True

theorem Lexeme.formed {l : Lexeme} (fits : l.Fits) (spelled : l.Spelled) (confined : l.Confined) :
    l.Formed := by
  obtain ⟨kind, chars⟩ := l
  cases kind with
  | startTag | startCloseTag | endTag | selfCloseEndTag | equals => exact spelled _ rfl
  | tagName | attributeName => exact fits
  | text => exact ⟨confined, fits⟩
  | attributeValue | whitespace | comment => exact confined
  | error => trivial

/-! ### Comments -/

theorem loose_nil : Loose [] := by simp [Loose]

theorem Loose.cons {c : Char} {inner : List Char} (h : Loose inner) (hc : c ≠ '-') :
    Loose (c :: inner) := by
  refine ⟨fun hyphens => ?_, ?_⟩
  · rcases List.infix_cons_iff.mp hyphens with first | later
    · exact hc (List.cons_prefix_cons.mp first).1.symm
    · exact h.1 later
  · cases last : inner.getLast? with
    | none => simpa [List.getLast?_cons, last] using hc
    | some d =>
      have other : d ≠ '-' := fun e => h.2 (e ▸ last)
      simpa [List.getLast?_cons, last] using other

/-- A hyphen may stand before something else. -/
theorem Loose.hyphen {c : Char} {inner : List Char} (h : Loose inner) (hc : c ≠ '-') :
    Loose ('-' :: c :: inner) := by
  obtain ⟨apart, ends⟩ := h.cons hc
  refine ⟨fun hyphens => ?_, by simpa [List.getLast?_cons] using ends⟩
  rcases List.infix_cons_iff.mp hyphens with first | later
  · exact hc (List.cons_prefix_cons.mp (List.cons_prefix_cons.mp first).2).1.symm
  · exact apart later

/-- The remainder of a comment ends with the first two hyphens, and a `>` is behind them. -/
theorem commentTail_eq_some {cs : List Char} {n : Nat} (h : commentTail cs = some n) :
    ∃ inner rest, cs = inner ++ (['-', '-', '>'] ++ rest) ∧ n = inner.length + 3 ∧ Loose inner := by
  induction cs using commentTail.induct generalizing n with
  | case1 rest =>
    cases h
    exact ⟨[], rest, rfl, rfl, loose_nil⟩
  | case2 rest spoiled =>
    rw [commentTail.eq_2 _ spoiled] at h
    cases h
  | case3 c rest ends hyphen ih =>
    rw [commentTail.eq_3 c rest ends hyphen] at h
    obtain ⟨m, tail, rfl⟩ := Option.map_eq_some_iff.mp h
    obtain ⟨inner, after, rfl, rfl, loose⟩ := ih tail
    exact ⟨'-' :: c :: inner, after, rfl, rfl, loose.hyphen hyphen⟩
  | case4 => cases h
  | case5 c rest ends doubled followed last ih =>
    rw [commentTail.eq_5 c rest ends doubled followed last] at h
    obtain ⟨m, tail, rfl⟩ := Option.map_eq_some_iff.mp h
    obtain ⟨inner, after, rfl, rfl, loose⟩ := ih tail
    refine ⟨c :: inner, after, rfl, rfl, loose.cons fun hyphen => ?_⟩
    cases inner with
    | nil => exact followed _ _ hyphen rfl
    | cons d inner => exact followed _ _ hyphen rfl
  | case6 => cases h

theorem commentLength_eq_some {cs : List Char} {n : Nat} (h : commentLength cs = some n) :
    ∃ inner, cs.take n = ['<', '!', '-', '-'] ++ (inner ++ ['-', '-', '>']) ∧ Loose inner := by
  unfold commentLength at h
  split at h
  · rename_i tail
    obtain ⟨m, ends, rfl⟩ := Option.map_eq_some_iff.mp h
    obtain ⟨inner, rest, rfl, rfl, loose⟩ := commentTail_eq_some ends
    refine ⟨inner, ?_, loose⟩
    simp [List.take_append, List.take_of_length_le]
  · cases h

/-! ### The other tokens -/

theorem contentStep_confined (c : Char) (rest : List Char) :
    Lexeme.Confined ⟨(contentStep (c :: rest)).kind,
      c :: rest.take ((contentStep (c :: rest)).length - 1)⟩ := by
  unfold contentStep
  split
  · trivial
  · rename_i tail _ e
    cases e
    split
    · rename_i n ends
      obtain ⟨inner, chars, loose⟩ := commentLength_eq_some ends
      refine ⟨inner, ?_, loose⟩
      cases n with
      | zero => simp at chars
      | succ n => exact chars
    · trivial
  · rename_i closes opens
    have hc : c ≠ '<' := fun e => by
      subst e
      exact opens rest rfl
    have run : (c :: rest).takeWhile (· ≠ '<') = c :: rest.takeWhile (· ≠ '<') := by simp [hc]
    have outside : '<' ∉ c :: rest.takeWhile (· ≠ '<') := by
      rw [← run]
      intro inside
      simpa using List.mem_takeWhile_imp inside
    simp only [run, List.length_cons, Nat.add_sub_cancel, take_length_takeWhile]
    by_cases blank : isAllBlank (c :: rest.takeWhile (· ≠ '<')) = true
    · rw [if_pos blank]
      exact blank
    · rw [if_neg blank]
      exact outside

/-- A quoted value does not have its quote inside. -/
theorem quoted_confined {q : Char} {rest : List Char} (hq : q = '"' ∨ q = '\'')
    (h : (rest.takeWhile (· ≠ q)).length < rest.length) :
    Lexeme.Confined ⟨.attributeValue, q :: rest.take ((rest.takeWhile (· ≠ q)).length + 1)⟩ := by
  refine ⟨q, rest.takeWhile (· ≠ q), hq, congrArg (q :: ·) (take_quoted h), fun inside => ?_⟩
  simpa using List.mem_takeWhile_imp inside

theorem isBlank_of_isTagBlank {c : Char} (h : isTagBlank c = true) : isBlank c = true := by
  simp only [isTagBlank, Bool.or_eq_true, beq_iff_eq] at h
  rcases h with ((rfl | rfl) | rfl) | rfl <;> decide

theorem tagStep_confined (nameNext : Bool) (c : Char) (rest : List Char) :
    Lexeme.Confined ⟨(tagStep nameNext (c :: rest)).kind,
      c :: rest.take ((tagStep nameNext (c :: rest)).length - 1)⟩ := by
  unfold tagStep
  split
  case h_6 e => cases e
  case h_7 e =>
    cases e
    split
    · rename_i hq
      simp only [quotedLength]
      split
      · rename_i closed
        exact quoted_confined hq closed
      · trivial
    · split
      · rename_i blank
        simp only [Nat.add_sub_cancel, take_length_takeWhile]
        refine List.all_eq_true.mpr (List.forall_mem_cons.mpr ⟨isBlank_of_isTagBlank blank, ?_⟩)
        exact fun x hx => isBlank_of_isTagBlank (List.mem_takeWhile_imp hx)
      · split
        · cases nameNext <;> trivial
        · trivial
  all_goals trivial

/-! ### All lexemes of a text -/

/-- A property of lexemes that joining two errors keeps holds of all when it holds of the
first lexeme in every context. -/
theorem forall_lexemes {P : Lexeme → Prop}
    (first : ∀ context c rest, P ⟨(step context (c :: rest)).kind,
      c :: rest.take ((step context (c :: rest)).length - 1)⟩)
    (joined : ∀ a b, P ⟨.error, a⟩ → P ⟨.error, b⟩ → P ⟨.error, a ++ b⟩) (cs : List Char) :
    ∀ l ∈ lexemes cs, P l := by
  have apart (context : Context) : ∀ l ∈ lexemesFrom context cs, P l := by
    induction context, cs using lexemesFrom.induct with
    | case1 context => rw [lexemesFrom]; simp
    | case2 context c rest s ih =>
      rw [lexemesFrom]
      exact List.forall_mem_cons.mpr ⟨first context c rest, ih⟩
  have join {ls : List Lexeme} (h : ∀ l ∈ ls, P l) : ∀ l ∈ joinErrors ls, P l := by
    induction ls with
    | nil => exact h
    | cons a rest ih =>
      obtain ⟨first, later⟩ := List.forall_mem_cons.mp h
      have tail := ih later
      unfold joinErrors
      split
      · rename_i b more split
        rw [split] at tail
        obtain ⟨second, others⟩ := List.forall_mem_cons.mp tail
        split
        · rename_i errors
          obtain ⟨kind, chars⟩ := a
          obtain ⟨kind', chars'⟩ := b
          obtain ⟨rfl, rfl⟩ := errors
          exact List.forall_mem_cons.mpr ⟨joined _ _ first second, others⟩
        · exact List.forall_mem_cons.mpr ⟨first, tail⟩
      · exact List.forall_mem_singleton.mpr first
  exact join (apart .content)

theorem words_confined (source : String) : ∀ w ∈ words source, w.Confined := by
  rw [words_eq]
  refine forall_lexemes (fun context c rest => ?_) (fun _ _ _ _ => trivial) _
  cases context with
  | content => exact contentStep_confined c rest
  | tag nameNext => exact tagStep_confined nameNext c rest

theorem words_formed (source : String) : ∀ w ∈ words source, w.Formed := fun w hw =>
  Lexeme.formed ((words_laid source).fits w hw) (words_spelled source w hw)
    (words_confined source w hw)

theorem words_ne_nil (source : String) : ∀ w ∈ words source, w.chars ≠ [] := by
  rw [words_eq]
  exact forall_lexemes (fun _ _ _ => List.cons_ne_nil _ _)
    (fun _ _ first _ => List.append_ne_nil_of_left_ne_nil first _) _

theorem joinErrors_chain (ls : List Lexeme) :
    (joinErrors ls).IsChain fun a b => ¬ (a.kind = .error ∧ b.kind = .error) := by
  induction ls with
  | nil => exact .nil
  | cons a rest ih =>
    unfold joinErrors
    split
    · rename_i b more joined
      rw [joined] at ih
      split
      · rename_i errors
        rw [List.isChain_cons] at ih ⊢
        exact ⟨fun c hc both => ih.1 c hc ⟨errors.2, both.2⟩, ih.2⟩
      · rename_i apart
        exact ih.cons_cons apart
    · exact .singleton a

/-! ## The places of tokens -/

/-- Tokens that stand side by side from the beginning of a text to its end. -/
structure Tiles (source : String) (tokens : List Token) : Prop where
  starts : ∀ token ∈ tokens.head?, token.span.start = 0
  meets : tokens.IsChain fun a b => b.span.start = a.span.stop
  stops : ∀ token ∈ tokens.getLast?, token.span.stop = source.utf8ByteSize
  covers : tokens = [] → source = ""
  filled : ∀ token ∈ tokens, token.span.start < token.span.stop
  boundaries : ∀ token ∈ tokens,
    IsBoundary source.toList token.span.start ∧ IsBoundary source.toList token.span.stop
  joined : tokens.IsChain fun a b => ¬ (a.kind = .error ∧ b.kind = .error)

section
variable (start : Nat) (ls : List Lexeme)

theorem start_place : ∀ token ∈ (place start ls).head?, token.span.start = start := by
  cases ls with
  | nil => simp [place]
  | cons l rest => simp [place, Range.ofLength]

theorem place_meets : (place start ls).IsChain fun a b => b.span.start = a.span.stop := by
  induction ls generalizing start with
  | nil => exact .nil
  | cons l rest ih =>
    rw [place, List.isChain_cons]
    exact ⟨start_place _ rest, ih _⟩

theorem stop_place : ∀ token ∈ (place start ls).getLast?,
    token.span.stop = start + byteLength (ls.flatMap (·.chars)) := by
  induction ls generalizing start with
  | nil => simp [place]
  | cons l rest ih =>
    intro token last
    rw [List.flatMap_cons, byteLength_append]
    cases rest with
    | nil =>
      cases last
      simp [place, Range.ofLength, byteLength]
    | cons m rest =>
      have later := ih (start + byteLength l.chars) token last
      omega

theorem map_kind_place : (place start ls).map (·.kind) = ls.map (·.kind) := by
  induction ls generalizing start with
  | nil => rfl
  | cons l rest ih => rw [place, List.map_cons, List.map_cons, ih]

theorem filled_place (filled : ∀ l ∈ ls, l.chars ≠ []) :
    ∀ token ∈ place start ls, token.span.start < token.span.stop := by
  induction ls generalizing start with
  | nil => simp [place]
  | cons l rest ih =>
    obtain ⟨first, later⟩ := List.forall_mem_cons.mp filled
    refine List.forall_mem_cons.mpr ⟨?_, ih _ later⟩
    have size : byteLength l.chars ≠ 0 := fun none => first (byteLength_eq_zero.mp none)
    simp only [Range.ofLength]
    omega

end

theorem tiles_lex (source : String) : Tiles source (lex source) where
  starts := start_place 0 _
  meets := place_meets 0 _
  stops token last := by
    rw [stop_place 0 _ token last, flatMap_lexemes, utf8ByteSize_eq, Nat.zero_add]
  covers none := by
    have nothing : words source = [] := by rw [words, none, List.map_nil]
    have whole := flatMap_lexemes source.toList
    rw [← words_eq, nothing] at whole
    exact String.toList_injective whole.symm
  filled := filled_place 0 _ (words_eq source ▸ words_ne_nil source)
  boundaries token ht := Range.within_iff.mp (within_of_mem_lex ht)
  joined := by
    have kinds := joinErrors_chain (lexemesFrom .content source.toList)
    have chain := (List.isChain_map (R := fun a b : TokenKind => ¬ (a = .error ∧ b = .error))
      Lexeme.kind).mpr kinds
    rw [← map_kind_place 0] at chain
    exact (List.isChain_map _).mp chain

/-! ## Names of tags -/

/-- A tag was opened by these tokens, and since then there were only blanks. -/
def Opened (tokens : List Token) : Prop :=
  ∃ earlier opening blanks, tokens = earlier ++ opening :: blanks ∧
    (opening.kind = .startTag ∨ opening.kind = .startCloseTag) ∧ ∀ b ∈ blanks, b.kind = .whitespace

theorem opened_cons {token : Token} {tokens : List Token} : Opened (token :: tokens) ↔
    ((token.kind = .startTag ∨ token.kind = .startCloseTag) ∧ ∀ b ∈ tokens, b.kind = .whitespace) ∨
      Opened tokens := by
  constructor
  · rintro ⟨earlier, opening, blanks, split, opens, blank⟩
    cases earlier with
    | nil =>
      cases split
      exact .inl ⟨opens, blank⟩
    | cons first earlier =>
      cases split
      exact .inr ⟨earlier, opening, blanks, rfl, opens, blank⟩
  · rintro (⟨opens, blank⟩ | ⟨earlier, opening, blanks, rfl, opens, blank⟩)
    · exact ⟨[], token, tokens, rfl, opens, blank⟩
    · exact ⟨token :: earlier, opening, blanks, rfl, opens, blank⟩

/-- The next name is a tag's after a sign that opens a tag, and still after a blank. -/
theorem nameNext_iff {context next : Context} {kind : TokenKind}
    (h : context.next? kind = some next) : next = .tag true ↔
      (kind = .startTag ∨ kind = .startCloseTag) ∨ kind = .whitespace ∧ context = .tag true := by
  cases context with
  | content => cases kind <;> cases h <;> simp
  | tag nameNext => cases nameNext <;> cases kind <;> cases h <;> simp

/-- The context behind some tokens awaits the name of a tag if they opened one, or if there
were only blanks and it was awaited before them. -/
theorem Laid.behind {source : String} {context : Context} {tokens : List Token} {rest : List Lexeme}
    (h : Laid context (tokens.map (lexemeOf source) ++ rest)) : ∃ next, Laid next rest ∧
      (next = .tag true ↔
        (context = .tag true ∧ ∀ b ∈ tokens, b.kind = .whitespace) ∨ Opened tokens) := by
  induction tokens generalizing context with
  | nil =>
    refine ⟨context, h, ?_⟩
    simp [Opened]
  | cons token tokens ih =>
    obtain ⟨-, middle, goes, laid⟩ := h
    obtain ⟨next, laid, awaits⟩ := ih laid
    refine ⟨next, laid, ?_⟩
    rw [awaits, nameNext_iff goes, opened_cons, List.forall_mem_cons]
    change ((token.kind = _ ∨ token.kind = _) ∨ token.kind = _ ∧ _) ∧ _ ∨ _ ↔ _
    tauto

/-- A name is the name of a tag where one is awaited, and else the name of an attribute. -/
theorem Laid.tagName_iff {context : Context} {w : Lexeme} {rest : List Lexeme}
    (h : Laid context (w :: rest)) (named : w.kind = .tagName ∨ w.kind = .attributeName) :
    w.kind = .tagName ↔ context = .tag true := by
  obtain ⟨-, next, goes, -⟩ := h
  cases context with
  | content => rcases named with e | e <;> rw [e] at goes <;> cases goes
  | tag nameNext => cases nameNext <;> rcases named with e | e <;> simp [e, Context.next?] at goes ⊢

/-- The tokens of every text tile it: they stand side by side from its first byte to its last,
none is empty or cuts a character, and no two errors are neighbours. The characters of each are
as the grammar says of its kind, and a name is a tag's exactly when only blanks stand between it
and the sign that opens the tag. -/
theorem lex_tiles (source : String) :
    Tiles source (lex source) ∧ (∀ token ∈ lex source, (lexemeOf source token).Formed) ∧
      ∀ before token after, lex source = before ++ token :: after →
        token.kind = .tagName ∨ token.kind = .attributeName →
          (token.kind = .tagName ↔ Opened before) := by
  refine ⟨tiles_lex source, fun token ht => ?_, fun before token after split named => ?_⟩
  · exact words_formed source _ (List.mem_map_of_mem ht)
  · have laid := words_laid source
    rw [words, split, List.map_append, List.map_cons] at laid
    obtain ⟨context, laid, awaits⟩ := laid.behind
    have tag := laid.tagName_iff named
    rw [awaits] at tag
    exact tag.trans (by simp)

/-- What looks like a comment inside a tag opens a tag and is then an error, so the name behind
it is an attribute's. -/
theorem lex_tiles_run :
    let source := "<a ='é' <!-- b>"
    let before := (lex source).take 9
    before.map (·.kind) = [.startTag, .tagName, .whitespace, .equals, .attributeValue, .whitespace,
      .startTag, .error, .whitespace] ∧
    Tiles source (lex source) ∧ ¬ Opened before := by
  intro source before
  obtain ⟨tiles, -, names⟩ := lex_tiles source
  have split : lex source = before ++ ⟨.attributeName, ⟨14, 15, by decide⟩⟩ :: (lex source).drop 10 := by
    decide +kernel
  refine ⟨by decide +kernel, tiles, fun opened => ?_⟩
  cases (names _ _ _ split (.inr rfl)).mpr opened

end QueryMarkup.Markup
