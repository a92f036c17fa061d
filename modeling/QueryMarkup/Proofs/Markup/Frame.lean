import QueryMarkup.Proofs.Markup.Writing

/-!
# The frame of a text

The frame of a text are those of its words that open, name and end tags. What stands between
tags is not in it, and neither is an attribute that is written in a start tag, whatever its value
is, as long as its name closes all quotes that it opens and has no bracket outside of them.
-/
namespace QueryMarkup.Markup

open Text

/-- The word opens, names or ends a tag. -/
def Lexeme.isFrame (l : Lexeme) : Bool :=
  match l.kind with
  | .startTag | .startCloseTag | .tagName | .endTag | .selfCloseEndTag => true
  | _ => false

def frame (ls : List Lexeme) : List Lexeme := ls.filter Lexeme.isFrame

/-- The frame of what the lexer makes of characters that it comes to in a context. -/
def frameFrom (context : Context) (cs : List Char) : List Lexeme := frame (lexemesFrom context cs)

/-- A start tag goes on behind these characters, where `quote` is the quote that is open before
them: quotes are closed, and no bracket stands outside of quotes. -/
def staysInside : Option Char → List Char → Bool
  | none, [] => true
  | some _, [] => false
  | none, c :: cs =>
    if c = '"' ∨ c = '\'' then staysInside (some c) cs
    else c != '<' && c != '>' && staysInside none cs
  | some q, c :: cs => staysInside (if c = q then none else some q) cs

/-- A name that stays inside of the start tag that it is written in. -/
def isInert (name : String) : Bool := staysInside none name.toList

/-- The words of a tag that are in the frame. -/
def Tag.frame : Tag → List Lexeme
  | opening tag _ selfClosing => [⟨.startTag, ['<']⟩, ⟨.tagName, tag.toList⟩,
      if selfClosing then ⟨.selfCloseEndTag, ['/', '>']⟩ else ⟨.endTag, ['>']⟩]
  | closing tag => [⟨.startCloseTag, ['<', '/']⟩, ⟨.tagName, tag.toList⟩, ⟨.endTag, ['>']⟩]

theorem frame_append (xs ys : List Lexeme) : frame (xs ++ ys) = frame xs ++ frame ys :=
  List.filter_append ..

/-- Errors are not in the frame, so it does not matter whether they are joined. -/
theorem frame_joinErrors (ls : List Lexeme) : frame (joinErrors ls) = frame ls := by
  induction ls with
  | nil => rfl
  | cons a rest ih =>
    have apart (ls : List Lexeme) : frame (a :: ls) = frame [a] ++ frame ls := frame_append [a] ls
    have skipped {l : Lexeme} (h : l.kind = .error) (ls : List Lexeme) : frame (l :: ls) = frame ls :=
      List.filter_cons_of_neg (by simp [Lexeme.isFrame, h])
    rw [joinErrors]
    cases joined : joinErrors rest with
    | nil =>
      rw [joined] at ih
      rw [apart rest, ← ih]
      exact (List.append_nil _).symm
    | cons b more =>
      rw [joined] at ih
      dsimp only
      split
      · rename_i errors
        rw [skipped rfl, skipped errors.1, ← ih, skipped errors.2]
      · rw [apart, ih, ← apart]

/-! ## Between tags -/

theorem frame_runWords (run : List Char) : frame (runWords run) = [] := by
  unfold runWords
  split
  · rfl
  · split <;> rfl

/-- Text between tags is not in the frame. -/
theorem frameFrom_run {run : List Char} (plain : '<' ∉ run) (rest : List Char) :
    frameFrom .content (run ++ rest) = frameFrom .content rest := by
  -- the word that the text belongs to may go on in the rest
  have parts := @List.takeWhile_append_dropWhile _ (fun c : Char => decide (c ≠ '<')) rest
  have next := List.head?_dropWhile_not (fun c : Char => decide (c ≠ '<')) rest
  have more : '<' ∉ rest.takeWhile fun c : Char => decide (c ≠ '<') := fun hm => by
    simpa using List.mem_takeWhile_imp hm
  generalize rest.takeWhile (fun c : Char => decide (c ≠ '<')) = text at parts more
  generalize rest.dropWhile (fun c : Char => decide (c ≠ '<')) = behind at parts next
  subst parts
  have stop : ∀ c ∈ behind.head?, c = '<' := by
    intro c hc
    rw [Option.mem_def.mp hc] at next
    simpa using next
  have whole : '<' ∉ run ++ text := by simp [plain, more]
  rw [← List.append_assoc, frameFrom, lexemesFrom_run whole stop, frameFrom, lexemesFrom_run more stop,
    frame_append, frame_append, frame_runWords, frame_runWords]

/-! ## Inside a start tag -/

/-- Characters are different if a test tells them apart. -/
theorem ne_of_test {p : Char → Bool} {c d : Char} (h : p c = true) (hd : p d = false) : c ≠ d := by
  rintro rfl
  rw [h] at hd
  cases hd

/-- The step of the lexer at a character that is no bracket and no equals sign. -/
theorem tagStep_other {c : Char} {cs : List Char} (left : c ≠ '<') (right : c ≠ '>') (equals : c ≠ '=')
    (slash : c = '/' → cs.head? ≠ some '>') : tagStep false (c :: cs) =
      if c = '"' ∨ c = '\'' then ⟨(quotedLength c cs).1, (quotedLength c cs).2, .tag false⟩
      else if isTagBlank c then ⟨.whitespace, (cs.takeWhile isTagBlank).length + 1, .tag false⟩
      else if isNameStart c then ⟨.attributeName, (cs.takeWhile isNameChar).length + 1, .tag false⟩
      else ⟨.error, 1, .tag false⟩ := by
  rw [tagStep.eq_7]
  · rfl
  · exact right
  · rintro rest rfl rfl
    exact slash rfl rfl
  · exact equals
  · exact fun _ e => absurd e left
  · exact left

/-- A word inside a tag that is not in the frame is left out. -/
theorem frameFrom_step {kind : TokenKind} {c : Char} {rest : List Char} (cs : List Char)
    (h : tagStep false (c :: (cs ++ rest)) = ⟨kind, cs.length + 1, .tag false⟩)
    (other : Lexeme.isFrame ⟨kind, c :: cs⟩ = false) :
    frameFrom (.tag false) (c :: (cs ++ rest)) = frameFrom (.tag false) rest := by
  have first : step (.tag false) (c :: (cs ++ rest)) = ⟨kind, cs.length + 1, .tag false⟩ := h
  rw [frameFrom, lexemesFrom_step cs first]
  exact List.filter_cons_of_neg (by simp [other])

theorem frameFrom_equals (rest : List Char) :
    frameFrom (.tag false) ('=' :: rest) = frameFrom (.tag false) rest :=
  frameFrom_step [] rfl rfl

/-- A quoted value is not in the frame. -/
theorem frameFrom_quoted {q : Char} (quote : q = '"' ∨ q = '\'') {inner : List Char} (h : q ∉ inner)
    (rest : List Char) :
    frameFrom (.tag false) (q :: (inner ++ q :: rest)) = frameFrom (.tag false) rest := by
  have run : (inner ++ q :: rest).takeWhile (fun c => decide (c ≠ q)) = inner :=
    takeWhile_stop (fun c hc => decide_eq_true fun (e : c = q) => h (e ▸ hc)) (by simp)
  have length : quotedLength q (inner ++ q :: rest) = (.attributeValue, inner.length + 2) := by
    rw [quotedLength, run, if_pos (by simp)]
  have split : inner ++ q :: rest = (inner ++ [q]) ++ rest := by simp
  have step : tagStep false (q :: (inner ++ q :: rest)) =
      ⟨.attributeValue, (inner ++ [q]).length + 1, .tag false⟩ := by
    rw [tagStep_other, if_pos quote, length]
    · simp
    all_goals rcases quote with rfl | rfl <;> simp
  rw [split] at step ⊢
  exact frameFrom_step (inner ++ [q]) step rfl

/-- Where the lexer comes to characters of names, it makes words of them that are not in the frame,
though these need not make up a name. -/
theorem frameFrom_names {run rest : List Char} (all : ∀ c ∈ run, isNameChar c = true)
    (stop : ∀ c ∈ rest.head?, isNameChar c = false) :
    frameFrom (.tag false) (run ++ rest) = frameFrom (.tag false) rest := by
  induction run with
  | nil => rfl
  | cons c run ih =>
    obtain ⟨here, later⟩ := List.forall_mem_cons.mp all
    by_cases start : isNameStart c = true
    · exact frameFrom_step run (step_name start later stop) rfl
    · have other {d : Char} (hd : isNameChar d = false) : c ≠ d := ne_of_test here hd
      have quote : ¬ (c = '"' ∨ c = '\'') := by
        rintro (rfl | rfl) <;> exact absurd here (by decide)
      have blank : isTagBlank c = false := by
        simp [isTagBlank, other (d := ' ') (by decide), other (d := '\t') (by decide),
          other (d := '\r') (by decide), other (d := '\n') (by decide)]
      have step : tagStep false (c :: (run ++ rest)) = ⟨.error, 1, .tag false⟩ := by
        rw [tagStep_other (other (by decide)) (other (by decide)) (other (by decide))
          fun e => absurd e (other (by decide)), if_neg quote, blank, if_neg (by simp), if_neg start]
      exact (frameFrom_step [] step rfl).trans (ih later)

theorem frameFrom_blanks {run rest : List Char} (all : ∀ c ∈ run, isTagBlank c = true)
    (stop : ∀ c ∈ rest.head?, isTagBlank c = false) :
    frameFrom (.tag false) (run ++ rest) = frameFrom (.tag false) rest := by
  cases run with
  | nil => rfl
  | cons c run =>
    obtain ⟨here, later⟩ := List.forall_mem_cons.mp all
    have other {d : Char} (hd : isTagBlank d = false) : c ≠ d := ne_of_test here hd
    have quote : ¬ (c = '"' ∨ c = '\'') := by
      rintro (rfl | rfl) <;> exact absurd here (by decide)
    refine @frameFrom_step .whitespace c rest run ?_ rfl
    rw [tagStep_other (other (by decide)) (other (by decide)) (other (by decide))
      fun e => absurd e (other (by decide)), if_neg quote, if_pos here, takeWhile_stop later stop]

/-- A character that is no bracket and no quote leaves the frame of what follows as it is. -/
theorem frameFrom_char {c : Char} {cs : List Char} (left : c ≠ '<') (right : c ≠ '>')
    (quote : ¬ (c = '"' ∨ c = '\'')) (slash : c = '/' → cs.head? ≠ some '>') :
    frameFrom (.tag false) (c :: cs) = frameFrom (.tag false) cs := by
  by_cases equals : c = '='
  · rw [equals, frameFrom_equals]
  have step := tagStep_other left right equals slash
  rw [if_neg quote] at step
  -- a blank or the start of a name makes one word with characters behind it
  have joined {p : Char → Bool} (here : p c = true) (skips : ∀ run rest : List Char,
      (∀ d ∈ run, p d = true) → (∀ d ∈ rest.head?, p d = false) →
        frameFrom (.tag false) (run ++ rest) = frameFrom (.tag false) rest) :
      frameFrom (.tag false) (c :: cs) = frameFrom (.tag false) cs := by
    have all : ∀ d ∈ cs.takeWhile p, p d = true := fun d hd => List.mem_takeWhile_imp hd
    have stop : ∀ d ∈ (cs.dropWhile p).head?, p d = false := by
      intro d hd
      have := List.head?_dropWhile_not p cs
      rw [Option.mem_def.mp hd] at this
      exact this
    have whole := skips (c :: cs.takeWhile p) _ (List.forall_mem_cons.mpr ⟨here, all⟩) stop
    have tail := skips _ _ all stop
    rw [List.takeWhile_append_dropWhile] at tail
    rw [List.cons_append, List.takeWhile_append_dropWhile] at whole
    exact whole.trans tail.symm
  by_cases blank : isTagBlank c = true
  · exact joined blank fun run rest => frameFrom_blanks
  by_cases start : isNameStart c = true
  · exact joined (p := isNameChar) (by simp [isNameChar, start]) fun run rest => frameFrom_names
  · rw [if_neg blank, if_neg start] at step
    exact frameFrom_step [] step rfl

/-! ## Names that stay inside -/

/-- A quote that is open is closed, and from there on the characters stay inside. -/
theorem exists_closed {q : Char} {cs : List Char} (h : staysInside (some q) cs = true) :
    ∃ inner after, cs = inner ++ q :: after ∧ q ∉ inner ∧ staysInside none after = true := by
  induction cs with
  | nil => cases h
  | cons c cs ih =>
    rw [staysInside] at h
    by_cases closes : c = q
    · rw [if_pos closes] at h
      exact ⟨[], cs, by rw [closes]; rfl, by simp, h⟩
    · rw [if_neg closes] at h
      obtain ⟨inner, after, rfl, none, stays⟩ := ih h
      exact ⟨c :: inner, after, rfl, by simp [none, Ne.symm closes], stays⟩

/-- Characters that stay inside of a start tag leave the frame of what follows as it is. -/
theorem frameFrom_inside {cs rest : List Char} (h : staysInside none cs = true)
    (stop : rest.head? ≠ some '>') :
    frameFrom (.tag false) (cs ++ rest) = frameFrom (.tag false) rest := by
  -- a quoted part is taken off as a whole, so the induction is on how many characters are left
  induction size : cs.length using Nat.strong_induction_on generalizing cs with
  | _ k ih =>
    cases cs with
    | nil => rfl
    | cons c cs =>
      rw [List.length_cons] at size
      rw [staysInside] at h
      by_cases quote : c = '"' ∨ c = '\''
      · rw [if_pos quote] at h
        obtain ⟨inner, after, rfl, none, stays⟩ := exists_closed h
        rw [List.length_append, List.length_cons] at size
        have apart : c :: (inner ++ c :: after) ++ rest = c :: (inner ++ c :: (after ++ rest)) := by simp
        rw [apart, frameFrom_quoted quote none, ih after.length (by omega) stays rfl]
      · rw [if_neg quote] at h
        simp only [Bool.and_eq_true, bne_iff_ne] at h
        obtain ⟨⟨left, right⟩, stays⟩ := h
        have open' : (cs ++ rest).head? ≠ some '>' := by
          cases cs with
          | nil => exact stop
          | cons d cs =>
            rintro e
            obtain rfl : d = '>' := by simpa using e
            simp [staysInside] at stays
        rw [List.cons_append, frameFrom_char left right quote fun _ => open',
          ih cs.length (by omega) stays rfl]

/-- An attribute in a start tag is not in the frame. -/
theorem frameFrom_pair {p : String × String} (inert : isInert p.1 = true) (rest : List Char) :
    frameFrom (.tag false) (Tag.pairChars p ++ rest) = frameFrom (.tag false) rest := by
  have chars : Tag.pairChars p ++ rest =
      ' ' :: (p.1.toList ++ '=' :: '"' :: (encodeChars p.2.toList ++ '"' :: rest)) := by
    simp [Tag.pairChars]
  rw [chars, frameFrom_char (by decide) (by decide) (by decide) (by simp),
    frameFrom_inside inert (by simp), frameFrom_equals,
    frameFrom_quoted (.inl rfl) (not_mem_encodeChars _).2]

theorem frameFrom_pairs {pairs : List (String × String)} (inert : ∀ p ∈ pairs, isInert p.1 = true)
    (rest : List Char) :
    frameFrom (.tag false) (pairs.flatMap Tag.pairChars ++ rest) = frameFrom (.tag false) rest := by
  induction pairs with
  | nil => rfl
  | cons p pairs ih =>
    obtain ⟨first, others⟩ := List.forall_mem_cons.mp inert
    rw [List.flatMap_cons, List.append_assoc, frameFrom_pair first, ih others]

/-! ## Tags -/

/-- The tag has a name, and its attributes stay inside. -/
def Tag.Inert : Tag → Prop
  | opening tag pairs _ => isName tag.toList = true ∧ ∀ p ∈ pairs, isInert p.1 = true
  | closing tag => isName tag.toList = true

/-- A word that is in the frame is the first of it. -/
theorem frame_cons {l : Lexeme} (h : l.isFrame = true) (ls : List Lexeme) :
    frame (l :: ls) = l :: frame ls := List.filter_cons_of_pos h

theorem frameFrom_end (selfClosing : Bool) (rest : List Char) :
    frameFrom (.tag false) (Tag.endChars selfClosing ++ rest) =
      (if selfClosing then ⟨.selfCloseEndTag, ['/', '>']⟩ else ⟨.endTag, ['>']⟩) ::
        frameFrom .content rest := by
  rw [frameFrom, lexemesFrom_end, frame_append]
  cases selfClosing <;> rfl

/-- What starts a tag and the name behind it are two words. -/
theorem lexemesFrom_named {name rest : List Char} (h : isName name = true)
    (stop : ∀ c ∈ rest.head?, isNameChar c = false) : lexemesFrom .content ('<' :: (name ++ rest)) =
      ⟨.startTag, ['<']⟩ :: ⟨.tagName, name⟩ :: lexemesFrom (.tag false) rest := by
  cases name with
  | nil => cases h
  | cons c cs =>
    have start : isNameStart c = true := (Bool.and_eq_true_iff.mp h).1
    exact (lexemesFrom_startTag start (cs ++ rest)).trans (congrArg (_ :: ·) (lexemesFrom_name h stop))

/-- A tag is taken apart into the words of its frame and others. -/
theorem frameFrom_tag {tag : Tag} (h : tag.Inert) (rest : List Char) :
    frameFrom .content (tag.chars ++ rest) = tag.frame ++ frameFrom .content rest := by
  cases tag with
  | opening name pairs selfClosing =>
    obtain ⟨named, inert⟩ := h
    simp only [Tag.chars, Tag.frame, List.cons_append, List.append_assoc, List.nil_append]
    rw [frameFrom, lexemesFrom_named named (head_pairs_end pairs selfClosing rest), frame_cons rfl,
      frame_cons rfl, ← frameFrom, frameFrom_pairs inert, frameFrom_end]
  | closing name =>
    have stop : ∀ c ∈ ('>' :: rest).head?, isNameChar c = false := by simp; decide
    simp only [Tag.chars, Tag.frame, List.cons_append, List.append_assoc, List.nil_append]
    rw [frameFrom, lexemesFrom_startCloseTag, lexemesFrom_name h stop, lexemesFrom_endTag,
      frame_cons rfl, frame_cons rfl, frame_cons rfl]
    rfl

/-! ## The frame of words -/

theorem frame_words (tag : Tag) : frame tag.words = tag.frame := by
  cases tag with
  | opening name pairs selfClosing =>
    have none : frame (pairs.flatMap Tag.pairWords) = [] := by
      refine List.filter_eq_nil_iff.mpr fun l hl => ?_
      obtain ⟨p, -, hp⟩ := List.mem_flatMap.mp hl
      simp only [Tag.pairWords, List.mem_cons, List.not_mem_nil, or_false] at hp
      rcases hp with rfl | rfl | rfl | rfl <;> simp [Lexeme.isFrame]
    rw [Tag.words, frame_cons rfl, frame_cons rfl, frame_append, none]
    cases selfClosing <;> rfl
  | closing name => rfl

/-- The frame of written chunks are the frames of their tags. -/
theorem frame_wordsAfter (run : List Char) (chunks : List Chunk) :
    frame (wordsAfter run chunks) = (chunks.map Chunk.tag).flatMap Tag.frame := by
  induction chunks generalizing run with
  | nil => exact frame_runWords run
  | cons chunk chunks ih =>
    rw [wordsAfter, frame_append, frame_append, frame_runWords, frame_words, ih, List.map_cons,
      List.flatMap_cons]
    rfl

end QueryMarkup.Markup
