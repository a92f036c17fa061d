import QueryMarkup.Proofs.Markup.Lexing
import QueryMarkup.Proofs.Text.Reference

/-!
# The words of written tags

Tags with quoted values and the text between them are taken apart again as they were put
together: every word ends where the next one begins, and no two words run into each other.
-/
namespace QueryMarkup.Markup

open Text

inductive Tag where
  /-- A start tag with its attributes. -/
  | opening (tag : String) (pairs : List (String × String)) (selfClosing : Bool)
  | closing (tag : String)

namespace Tag

/-- An attribute in a start tag, with the blank before it. -/
def pairChars (p : String × String) : List Char :=
  ' ' :: (p.1.toList ++ '=' :: '"' :: (encodeChars p.2.toList ++ ['"']))

def pairWords (p : String × String) : List Lexeme :=
  [⟨.whitespace, [' ']⟩, ⟨.attributeName, p.1.toList⟩, ⟨.equals, ['=']⟩,
    ⟨.attributeValue, '"' :: (encodeChars p.2.toList ++ ['"'])⟩]

/-- How a start tag ends. -/
def endChars (selfClosing : Bool) : List Char := if selfClosing then [' ', '/', '>'] else ['>']

def endWords (selfClosing : Bool) : List Lexeme :=
  if selfClosing then [⟨.whitespace, [' ']⟩, ⟨.selfCloseEndTag, ['/', '>']⟩] else [⟨.endTag, ['>']⟩]

def chars : Tag → List Char
  | opening tag pairs selfClosing =>
    '<' :: (tag.toList ++ (pairs.flatMap pairChars ++ endChars selfClosing))
  | closing tag => '<' :: '/' :: (tag.toList ++ ['>'])

def words : Tag → List Lexeme
  | opening tag pairs selfClosing =>
    ⟨.startTag, ['<']⟩ :: ⟨.tagName, tag.toList⟩ :: (pairs.flatMap pairWords ++ endWords selfClosing)
  | closing tag => [⟨.startCloseTag, ['<', '/']⟩, ⟨.tagName, tag.toList⟩, ⟨.endTag, ['>']⟩]

/-- What is written as a name is one. -/
def Named : Tag → Prop
  | opening tag pairs _ => isName tag.toList = true ∧ ∀ p ∈ pairs, isName p.1.toList = true
  | closing tag => isName tag.toList = true

end Tag

/-! ## One word -/

/-- The lexer takes off a first word that ends where the step says. -/
theorem lexemesFrom_step {context next : Context} {kind : TokenKind} {c : Char} {rest : List Char}
    (cs : List Char) (h : step context (c :: (cs ++ rest)) = ⟨kind, cs.length + 1, next⟩) :
    lexemesFrom context (c :: (cs ++ rest)) = ⟨kind, c :: cs⟩ :: lexemesFrom next rest := by
  rw [lexemesFrom, h]
  simp

/-- A character that starts a name is none that means something in a tag. -/
theorem ne_of_isNameStart {c d : Char} (h : isNameStart c = true) (hd : isNameStart d = false) :
    c ≠ d := by
  rintro rfl
  rw [h] at hd
  cases hd

theorem takeWhile_stop {p : Char → Bool} {cs rest : List Char} (all : ∀ c ∈ cs, p c = true)
    (stop : ∀ c ∈ rest.head?, p c = false) : (cs ++ rest).takeWhile p = cs := by
  rw [List.takeWhile_append_of_pos all]
  cases rest with
  | nil => simp
  | cons c rest => simp [stop c rfl]

theorem step_name {nameNext : Bool} {c : Char} {cs rest : List Char} (start : isNameStart c = true)
    (all : ∀ d ∈ cs, isNameChar d = true) (stop : ∀ d ∈ rest.head?, isNameChar d = false) :
    step (.tag nameNext) (c :: (cs ++ rest)) =
      ⟨if nameNext then .tagName else .attributeName, cs.length + 1, .tag false⟩ := by
  have other {d : Char} (hd : isNameStart d = false) : c ≠ d := ne_of_isNameStart start hd
  have blank : isTagBlank c = false := by
    have h1 : c ≠ ' ' := other (by decide)
    have h2 : c ≠ '\t' := other (by decide)
    have h3 : c ≠ '\r' := other (by decide)
    have h4 : c ≠ '\n' := other (by decide)
    simp [isTagBlank, h1, h2, h3, h4]
  rw [step, tagStep.eq_7]
  · have quotes : ¬ (c = '"' ∨ c = '\'') := by
      rintro (e | e)
      · exact other (by decide) e
      · exact other (by decide) e
    rw [if_neg quotes, blank, if_neg (by simp), if_pos start, takeWhile_stop all stop]
  · exact fun e => other (by decide) e
  · exact fun _ e => absurd e (other (by decide))
  · exact fun e => other (by decide) e
  · exact fun _ e => absurd e (other (by decide))
  · exact fun e => other (by decide) e

/-- A name inside a tag is one word. -/
theorem lexemesFrom_name {nameNext : Bool} {name rest : List Char} (h : isName name = true)
    (stop : ∀ c ∈ rest.head?, isNameChar c = false) :
    lexemesFrom (.tag nameNext) (name ++ rest) =
      ⟨if nameNext then .tagName else .attributeName, name⟩ :: lexemesFrom (.tag false) rest := by
  cases name with
  | nil => cases h
  | cons c cs =>
    simp only [isName, Bool.and_eq_true, List.all_eq_true] at h
    exact lexemesFrom_step cs (step_name h.1 h.2 stop)

/-- A blank inside a tag is one word. -/
theorem lexemesFrom_blank {nameNext : Bool} {rest : List Char}
    (stop : ∀ c ∈ rest.head?, isTagBlank c = false) :
    lexemesFrom (.tag nameNext) (' ' :: rest) =
      ⟨.whitespace, [' ']⟩ :: lexemesFrom (.tag nameNext) rest := by
  refine lexemesFrom_step [] ?_
  have run : rest.takeWhile isTagBlank = [] := @takeWhile_stop _ [] _ (by simp) stop
  simp [step, tagStep, run, isTagBlank]

theorem lexemesFrom_equals {nameNext : Bool} (rest : List Char) :
    lexemesFrom (.tag nameNext) ('=' :: rest) = ⟨.equals, ['=']⟩ :: lexemesFrom (.tag false) rest :=
  lexemesFrom_step [] rfl

theorem lexemesFrom_endTag {nameNext : Bool} (rest : List Char) :
    lexemesFrom (.tag nameNext) ('>' :: rest) = ⟨.endTag, ['>']⟩ :: lexemesFrom .content rest :=
  lexemesFrom_step [] rfl

theorem lexemesFrom_selfCloseEndTag {nameNext : Bool} (rest : List Char) :
    lexemesFrom (.tag nameNext) ('/' :: '>' :: rest) =
      ⟨.selfCloseEndTag, ['/', '>']⟩ :: lexemesFrom .content rest :=
  lexemesFrom_step ['>'] rfl

/-- A quoted value without a quote inside is one word. -/
theorem lexemesFrom_quoted {nameNext : Bool} {inner : List Char} (h : '"' ∉ inner) (rest : List Char) :
    lexemesFrom (.tag nameNext) ('"' :: (inner ++ '"' :: rest)) =
      ⟨.attributeValue, '"' :: (inner ++ ['"'])⟩ :: lexemesFrom (.tag false) rest := by
  have run : (inner ++ '"' :: rest).takeWhile (fun c => decide (c ≠ '"')) = inner :=
    takeWhile_stop (fun c hc => decide_eq_true fun (e : c = '"') => h (e ▸ hc)) (by simp)
  have length : quotedLength '"' (inner ++ '"' :: rest) = (.attributeValue, inner.length + 2) := by
    rw [quotedLength, run, if_pos (by simp)]
  have split : inner ++ '"' :: rest = (inner ++ ['"']) ++ rest := by simp
  rw [split]
  refine lexemesFrom_step (inner ++ ['"']) ?_
  rw [← split]
  simp [step, tagStep, length]

theorem lexemesFrom_startTag {c : Char} (h : isNameStart c = true) (rest : List Char) :
    lexemesFrom .content ('<' :: c :: rest) =
      ⟨.startTag, ['<']⟩ :: lexemesFrom (.tag true) (c :: rest) := by
  have slash : c ≠ '/' := ne_of_isNameStart h (by decide)
  have bang : c ≠ '!' := ne_of_isNameStart h (by decide)
  refine lexemesFrom_step [] ?_
  simp [step, contentStep, commentLength, slash, bang]

theorem lexemesFrom_startCloseTag (rest : List Char) :
    lexemesFrom .content ('<' :: '/' :: rest) =
      ⟨.startCloseTag, ['<', '/']⟩ :: lexemesFrom (.tag true) rest :=
  lexemesFrom_step ['/'] rfl

/-! ## The words of a tag -/

theorem lexemesFrom_pair {p : String × String} (h : isName p.1.toList = true) (rest : List Char) :
    lexemesFrom (.tag false) (Tag.pairChars p ++ rest) =
      Tag.pairWords p ++ lexemesFrom (.tag false) rest := by
  obtain ⟨name, value⟩ := p
  have blank : ∀ c ∈ (name.toList ++ '=' :: '"' :: (encodeChars value.toList ++ '"' :: rest)).head?,
      isTagBlank c = false := by
    cases hn : name.toList with
    | nil => simp [hn, isName] at h
    | cons c cs =>
      simp only [hn, isName, Bool.and_eq_true] at h
      have other {d : Char} (hd : isNameStart d = false) : c ≠ d := ne_of_isNameStart h.1 hd
      simp [isTagBlank, other (d := ' ') (by decide), other (d := '\t') (by decide),
        other (d := '\r') (by decide), other (d := '\n') (by decide)]
  have chars : Tag.pairChars (name, value) ++ rest =
      ' ' :: (name.toList ++ '=' :: '"' :: (encodeChars value.toList ++ '"' :: rest)) := by
    simp [Tag.pairChars]
  rw [chars, lexemesFrom_blank blank, lexemesFrom_name h (by simp; decide), lexemesFrom_equals,
    lexemesFrom_quoted (not_mem_encodeChars _).2]
  rfl

theorem lexemesFrom_pairs {pairs : List (String × String)}
    (h : ∀ p ∈ pairs, isName p.1.toList = true) (rest : List Char) :
    lexemesFrom (.tag false) (pairs.flatMap Tag.pairChars ++ rest) =
      pairs.flatMap Tag.pairWords ++ lexemesFrom (.tag false) rest := by
  induction pairs with
  | nil => rfl
  | cons p pairs ih =>
    obtain ⟨first, others⟩ := List.forall_mem_cons.mp h
    rw [List.flatMap_cons, List.append_assoc, lexemesFrom_pair first, ih others, List.flatMap_cons,
      List.append_assoc]

theorem lexemesFrom_end (selfClosing : Bool) (rest : List Char) :
    lexemesFrom (.tag false) (Tag.endChars selfClosing ++ rest) =
      Tag.endWords selfClosing ++ lexemesFrom .content rest := by
  cases selfClosing with
  | true =>
    have blank : ∀ c ∈ ('/' :: '>' :: rest).head?, isTagBlank c = false := by simp; decide
    exact (lexemesFrom_blank blank).trans (congrArg (_ :: ·) (lexemesFrom_selfCloseEndTag rest))
  | false => exact lexemesFrom_endTag rest

/-- What stands behind the name of a tag does not go on with the name. -/
theorem head_pairs_end (pairs : List (String × String)) (selfClosing : Bool) (rest : List Char) :
    ∀ c ∈ (pairs.flatMap Tag.pairChars ++ (Tag.endChars selfClosing ++ rest)).head?,
      isNameChar c = false := by
  cases pairs with
  | nil => cases selfClosing <;> simp [Tag.endChars] <;> decide
  | cons p pairs =>
    rw [List.flatMap_cons]
    simp [Tag.pairChars]
    decide

/-- A written tag is taken apart into its words. -/
theorem lexemesFrom_tag {tag : Tag} (h : tag.Named) (rest : List Char) :
    lexemesFrom .content (tag.chars ++ rest) = tag.words ++ lexemesFrom .content rest := by
  cases tag with
  | opening name pairs selfClosing =>
    obtain ⟨named, pairsNamed⟩ := h
    obtain ⟨c, cs, hc, start⟩ : ∃ c cs, name.toList = c :: cs ∧ isNameStart c = true := by
      cases hn : name.toList with
      | nil => simp [hn, isName] at named
      | cons c cs =>
        simp only [hn, isName, Bool.and_eq_true] at named
        exact ⟨c, cs, rfl, named.1⟩
    have first : lexemesFrom .content ('<' :: (name.toList ++ (pairs.flatMap Tag.pairChars ++
        (Tag.endChars selfClosing ++ rest)))) = ⟨.startTag, ['<']⟩ :: lexemesFrom (.tag true)
          (name.toList ++ (pairs.flatMap Tag.pairChars ++ (Tag.endChars selfClosing ++ rest))) := by
      rw [hc]
      exact lexemesFrom_startTag start _
    simp only [Tag.chars, Tag.words, List.cons_append, List.append_assoc]
    rw [first, lexemesFrom_name named (head_pairs_end pairs selfClosing rest),
      lexemesFrom_pairs pairsNamed, lexemesFrom_end]
    rfl
  | closing name =>
    have stop : ∀ c ∈ ('>' :: rest).head?, isNameChar c = false := by simp; decide
    simp only [Tag.chars, Tag.words, List.cons_append, List.append_assoc, List.nil_append]
    rw [lexemesFrom_startCloseTag, lexemesFrom_name h stop, lexemesFrom_endTag]
    rfl

/-! ## Tags and the text between them -/

/-- A tag, the blanks before it and the text right behind it. -/
structure Chunk where
  indent : List Char
  tag : Tag
  content : List Char

namespace Chunk

def chars (chunk : Chunk) : List Char := chunk.indent ++ (chunk.tag.chars ++ chunk.content)

/-- The tag is well named, and no other tag begins around it. -/
structure Lexes (chunk : Chunk) : Prop where
  indent : '<' ∉ chunk.indent
  tag : chunk.tag.Named
  content : '<' ∉ chunk.content

end Chunk

/-- The word that a text between tags makes up, if it is not empty. -/
def runWords (run : List Char) : List Lexeme :=
  if run = [] then [] else [⟨if isAllBlank run then .whitespace else .text, run⟩]

/-- The words of chunks behind a text. The text behind a tag and the blanks before the
next one are one word. -/
def wordsAfter (run : List Char) : List Chunk → List Lexeme
  | [] => runWords run
  | chunk :: rest => runWords (run ++ chunk.indent) ++ (chunk.tag.words ++ wordsAfter chunk.content rest)

/-- Text up to the next tag is one word. -/
theorem lexemesFrom_run {run rest : List Char} (h : '<' ∉ run) (stop : ∀ c ∈ rest.head?, c = '<') :
    lexemesFrom .content (run ++ rest) = runWords run ++ lexemesFrom .content rest := by
  cases run with
  | nil => rfl
  | cons c cs =>
    have run : (c :: (cs ++ rest)).takeWhile (fun d => decide (d ≠ '<')) = c :: cs :=
      @takeWhile_stop _ (c :: cs) _ (fun d hd => decide_eq_true fun (e : d = '<') => h (e ▸ hd))
        fun d hd => by simp [stop d hd]
    have first : contentStep (c :: (cs ++ rest)) =
        ⟨if isAllBlank (c :: cs) then .whitespace else .text, cs.length + 1, .content⟩ := by
      have other : c ≠ '<' := fun e => h (e ▸ List.mem_cons_self)
      rw [contentStep.eq_3, run]
      · rfl
      · exact fun _ e => other (List.cons.inj e).1
      · exact fun _ e => other (List.cons.inj e).1
    exact lexemesFrom_step cs first

theorem head_chars (tag : Tag) (rest : List Char) : ∀ c ∈ (tag.chars ++ rest).head?, c = '<' := by
  cases tag <;> simp [Tag.chars]

theorem lexemesFrom_chunks {chunks : List Chunk} (h : ∀ chunk ∈ chunks, chunk.Lexes)
    {run : List Char} (hr : '<' ∉ run) :
    lexemesFrom .content (run ++ chunks.flatMap Chunk.chars) = wordsAfter run chunks := by
  induction chunks generalizing run with
  | nil =>
    have alone := @lexemesFrom_run run [] hr (by simp)
    rwa [lexemesFrom, List.append_nil (runWords run)] at alone
  | cons chunk chunks ih =>
    obtain ⟨here, later⟩ := List.forall_mem_cons.mp h
    have text : '<' ∉ run ++ chunk.indent := by
      rw [List.mem_append, not_or]
      exact ⟨hr, here.indent⟩
    have chars : run ++ (chunk :: chunks).flatMap Chunk.chars =
        (run ++ chunk.indent) ++ (chunk.tag.chars ++ (chunk.content ++ chunks.flatMap Chunk.chars)) := by
      simp [Chunk.chars]
    rw [chars, lexemesFrom_run text (head_chars _ _), lexemesFrom_tag here.tag, ih later here.content]
    rfl

/-! ## No errors -/

theorem joinErrors_of_no_error {ls : List Lexeme} (h : ∀ l ∈ ls, l.kind ≠ .error) :
    joinErrors ls = ls := by
  induction ls with
  | nil => rfl
  | cons l ls ih =>
    obtain ⟨here, later⟩ := List.forall_mem_cons.mp h
    rw [joinErrors, ih later]
    cases ls with
    | nil => rfl
    | cons m ms => simp [here]

theorem Tag.no_error (tag : Tag) : ∀ l ∈ tag.words, l.kind ≠ .error := by
  cases tag with
  | opening name pairs selfClosing =>
    have pair : ∀ l ∈ pairs.flatMap pairWords, l.kind ≠ .error := by
      intro l hl
      obtain ⟨p, -, hp⟩ := List.mem_flatMap.mp hl
      simp only [pairWords, List.mem_cons, List.not_mem_nil, or_false] at hp
      rcases hp with rfl | rfl | rfl | rfl <;> simp
    have last : ∀ l ∈ endWords selfClosing, l.kind ≠ .error := by
      cases selfClosing <;> simp [endWords]
    intro l hl
    simp only [words, List.mem_cons, List.mem_append] at hl
    rcases hl with rfl | rfl | hl | hl
    · simp
    · simp
    · exact pair l hl
    · exact last l hl
  | closing name => simp [words]

theorem runWords_no_error (run : List Char) : ∀ l ∈ runWords run, l.kind ≠ .error := by
  unfold runWords
  split
  · simp
  · split <;> simp

theorem wordsAfter_no_error (run : List Char) (chunks : List Chunk) :
    ∀ l ∈ wordsAfter run chunks, l.kind ≠ .error := by
  induction chunks generalizing run with
  | nil => exact runWords_no_error run
  | cons chunk chunks ih =>
    intro l hl
    rcases List.mem_append.mp hl with hl | hl
    · exact runWords_no_error _ l hl
    · rcases List.mem_append.mp hl with hl | hl
      · exact chunk.tag.no_error l hl
      · exact ih _ l hl

/-- The words of written chunks. -/
theorem lexemes_chunks {chunks : List Chunk} (h : ∀ chunk ∈ chunks, chunk.Lexes) :
    lexemes (chunks.flatMap Chunk.chars) = wordsAfter [] chunks := by
  have lexed := @lexemesFrom_chunks chunks h [] (by simp)
  rw [List.nil_append] at lexed
  rw [lexemes, lexed, joinErrors_of_no_error (wordsAfter_no_error [] chunks)]

end QueryMarkup.Markup
