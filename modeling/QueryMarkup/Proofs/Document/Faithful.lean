import QueryMarkup.Proofs.Document.Mirror

/-!
# Reading is faithful

A text about which nothing obscuring is reported becomes the tree of its elements: one
node for each start tag, under the element that it stands in, with its attributes and its
text, and among its siblings where its kind puts it.
-/
namespace QueryMarkup

open Markup

namespace Markup

/-- No attribute in a text has the name under which texts are kept. -/
theorem Laid.named {context : Context} {ws : List Lexeme} (h : Laid context ws) :
    ∀ name ∈ (startTag ws).names, name ≠ contentName := by
  intro name hn e
  obtain ⟨chars, hc, rfl⟩ := List.mem_map.mp hn
  obtain ⟨w, hw, rfl⟩ := List.mem_map.mp hc
  obtain ⟨inside, kind⟩ := List.mem_filter.mp hw
  have fits := h.fits w ((List.takeWhile_prefix _).subset inside)
  simp only [Lexeme.Fits, eq_of_beq kind] at fits
  have chars : w.chars = contentName.toList := by rw [← e, String.toList_ofList]
  rw [chars] at fits
  exact absurd fits (by decide)

end Markup

namespace Builder

variable {b : Builder} {t : Tree}

theorem AtRest.of_silent {b' : Builder} (h : b.AtRest) (silent : b'.silent = b.silent) : b'.AtRest := by
  have tagOpen : b'.silent.tagOpen = b.silent.tagOpen := by rw [silent]
  have staged : b'.silent.staged = b.silent.staged := by rw [silent]
  have phase : b'.silent.phase = b.silent.phase := by rw [silent]
  exact ⟨tagOpen.trans h.tagOpen, staged.trans h.staged, phase.trans_ne h.phase⟩

end Builder

/-- Reading has come past the next item, or past a blank or a comment: it goes on behind
it with fewer tokens, and what it comes to in the end is the same. -/
structure Advances (source : String) (done : List (Option Nat × Item)) (stack : List Nat)
    (b : Builder) (t : Tree) (tokens tail : List Token) (done' : List (Option Nat × Item))
    (stack' : List Nat) (b' : Builder) (t' : Tree) : Prop where
  shorter : tail.length < tokens.length
  rest : b'.AtRest
  mirrors : Mirrors done' stack' b' t'
  laid : Laid .content (tail.map (lexemeOf source))
  reads : Builder.readAll source (b, t) tokens = Builder.readAll source (b', t') tail
  items : done ++ locate (elementsOf done).length stack (items (tokens.map (lexemeOf source))) =
    done' ++ locate (elementsOf done').length stack' (items (tail.map (lexemeOf source)))

section
variable {done : List (Option Nat × Item)} {stack : List Nat} {b : Builder} {t : Tree}
variable {source : String} {token : Token} {tokens : List Token}

/-- A start tag is read as a whole, and adds its element. A name that it has twice is reported. -/
theorem Mirrors.readAll_start (h : Mirrors done stack b t) (rest : b.AtRest)
    (kind : token.kind = .startTag) (laid : Laid (.tag true) (tokens.map (lexemeOf source)))
    (clean : Builder.EndsClean (Builder.readAll source (b, t) (token :: tokens))) :
    ∃ blanks name inside last tail e b' t',
      Builder.Opens source tokens blanks name inside last tail e ∧ b'.AtRest ∧
      Mirrors (done ++ [(stack.head?, .start ⟨e.tag, e.names, e.values, last.kind == .selfCloseEndTag⟩)])
        (if last.kind == .selfCloseEndTag then stack else (elementsOf done).length :: stack) b' t' ∧
      Builder.readAll source (b, t) (token :: tokens) = Builder.readAll source (b', t') tail ∧
      (e.names.Nodup ∨ ∃ d ∈ b'.diagnostics, d.kind = .duplicateAttribute) := by
  have fed : b.feed t ⟨.textToTree⟩ source token = _ := Builder.feed_start kind
  rw [rest.abandon] at fed
  rw [Builder.readAll_cons, fed] at clean
  obtain ⟨blanks, name, inside, last, tail, e, opens, read⟩ :=
    Builder.readAll_start (b := { b with tagOpen := some token.span, phase := .opening })
      rfl rfl rest.staged laid clean
  have split := opens.ends.split
  obtain ⟨phase', hphase, ended⟩ := Builder.endTag_named (t := t)
    (b := { b with tagOpen := some token.span, phase := .opening, staged := some e }) (e := e)
    (by simp) rfl last.span (last.kind == .selfCloseEndTag)
  rw [split, Builder.readAll_append, read, Builder.readAll_cons, Builder.feed_ends opens.ends.ends,
    ended] at clean
  have named : ∀ name ∈ e.names, name ≠ contentName := by
    have := laid.named
    rwa [opens.startTag_eq] at this
  have unstaged := h.congr { b with
    tagOpen := some token.span, phase := .opening, staged := none } rfl rfl
  have twice := unstaged.twice (last.kind == .selfCloseEndTag) clean.before
  obtain ⟨b', t', final, staged, mirrors⟩ :=
    unstaged.start (last.kind == .selfCloseEndTag) clean.before named
  rw [final] at ended twice
  refine ⟨blanks, name, inside, last, tail, e, { b' with tagOpen := none, phase := phase' }, t', opens,
    ⟨rfl, staged, hphase⟩, mirrors.congr _ rfl rfl, ?_, twice⟩
  rw [Builder.readAll_cons, fed, split, Builder.readAll_append, read, Builder.readAll_cons,
    Builder.feed_ends opens.ends.ends, ended]

theorem Mirrors.advance_start (h : Mirrors done stack b t) (rest : b.AtRest)
    (kind : token.kind = .startTag) (laid : Laid (.tag true) (tokens.map (lexemeOf source)))
    (clean : Builder.EndsClean (Builder.readAll source (b, t) (token :: tokens))) :
    ∃ tail done' stack' b' t',
      Advances source done stack b t (token :: tokens) tail done' stack' b' t' := by
  obtain ⟨blanks, name, inside, last, tail, e, b', t', opens, rested, mirrors, reads, -⟩ :=
    h.readAll_start rest kind laid clean
  obtain ⟨split, ends, content⟩ := opens.ends
  refine ⟨tail, _, _, b', t', ?_, rested, mirrors, content, reads, ?_⟩
  · rw [split]
    simp only [List.length_cons, List.length_append]
    omega
  · have skipped : items (tokens.map (lexemeOf source)) = items (tail.map (lexemeOf source)) := by
      rw [split, List.map_append, List.map_cons, items_append_of_inner opens.inner,
        items_of_inner (inner_of_endsTag ends)]
    have first : items ((token :: tokens).map (lexemeOf source)) =
        .start ⟨e.tag, e.names, e.values, last.kind == .selfCloseEndTag⟩ ::
          items (tail.map (lexemeOf source)) := by
      rw [List.map_cons, items]
      simp only [lexemeOf, kind]
      rw [← opens.startTag_eq, ← skipped]
    rw [first, elementsOf_append, List.length_append, List.append_assoc]
    rfl

/-- A close tag is read as a whole, and closes an element. -/
theorem Mirrors.readAll_close (h : Mirrors done stack b t) (rest : b.AtRest)
    (kind : token.kind = .startCloseTag) (laid : Laid (.tag true) (tokens.map (lexemeOf source)))
    (clean : Builder.EndsClean (Builder.readAll source (b, t) (token :: tokens))) :
    ∃ inside last tail b', Builder.TagEnds source tokens inside last tail ∧
      (∀ w ∈ inside.map (lexemeOf source), w.Inner) ∧ b'.AtRest ∧ stack ≠ [] ∧
      Mirrors (done ++ [(stack.head?, .close)]) stack.tail b' t ∧
      Builder.readAll source (b, t) (token :: tokens) = Builder.readAll source (b', t) tail := by
  have fed : b.feed t ⟨.textToTree⟩ source token = _ := Builder.feed_startClose kind
  rw [rest.abandon] at fed
  rw [Builder.readAll_cons, fed] at clean
  obtain ⟨inside, last, tail, ⟨rfl, ends, content⟩, all, read⟩ :=
    Builder.readAll_close (b := { b with tagOpen := some token.span, phase := .closing })
      rfl rfl rest.staged laid clean
  obtain ⟨phase', hphase, ended⟩ := Builder.endTag_closing (t := t)
    (b := { b with tagOpen := some token.span, phase := .closing }) rfl last.span
    (last.kind == .selfCloseEndTag)
  rw [Builder.readAll_append, read, Builder.readAll_cons, Builder.feed_ends ends, ended] at clean
  have within := h.congr { b with tagOpen := some token.span, phase := .closing } rfl rfl
  have closed := within.close last.span
  have some' : stack ≠ [] := by
    intro none
    have empty : b.stack = [] := List.map_eq_nil_iff.mp (h.opened.trans (by rw [none]; rfl))
    have reported := clean.before
    simp only [Builder.close, empty] at reported
    exact Builder.not_clean_report (by decide) reported
  have staged := (Builder.staged_close { b with tagOpen := some token.span, phase := .closing }
    last.span).trans rest.staged
  generalize ({ b with tagOpen := some token.span, phase := .closing } : Builder).close last.span = b'
    at ended closed staged
  refine ⟨inside, last, tail, { b' with tagOpen := none, phase := phase' }, ⟨rfl, ends, content⟩, all,
    ⟨rfl, staged, hphase⟩, some', closed.congr _ rfl rfl, ?_⟩
  rw [Builder.readAll_cons, fed, Builder.readAll_append, read, Builder.readAll_cons,
    Builder.feed_ends ends, ended]

theorem Mirrors.advance_close (h : Mirrors done stack b t) (rest : b.AtRest)
    (kind : token.kind = .startCloseTag) (laid : Laid (.tag true) (tokens.map (lexemeOf source)))
    (clean : Builder.EndsClean (Builder.readAll source (b, t) (token :: tokens))) :
    ∃ tail done' stack' b' t',
      Advances source done stack b t (token :: tokens) tail done' stack' b' t' := by
  obtain ⟨inside, last, tail, b', ⟨rfl, ends, content⟩, all, rested, -, mirrors, reads⟩ :=
    h.readAll_close rest kind laid clean
  refine ⟨tail, _, _, b', t, ?_, rested, mirrors, content, reads, ?_⟩
  · simp only [List.length_cons, List.length_append]
    omega
  · have first : items ((token :: (inside ++ last :: tail)).map (lexemeOf source)) =
        .close :: items (tail.map (lexemeOf source)) := by
      rw [List.map_cons, items, List.map_append, List.map_cons, items_append_of_inner all,
        items_of_inner (inner_of_endsTag ends)]
      simp only [lexemeOf, kind]
    rw [first, elementsOf_append, List.length_append, List.append_assoc]
    rfl

theorem Mirrors.advance_text (h : Mirrors done stack b t) (rest : b.AtRest)
    (kind : token.kind = .text) (fits : (lexemeOf source token).Fits)
    (laid : Laid .content (tokens.map (lexemeOf source))) :
    ∃ tail done' stack' b' t',
      Advances source done stack b t (token :: tokens) tail done' stack' b' t' := by
  have shown : Text.isAllBlank (Text.slice source token.span).toList = false := by
    simpa only [Lexeme.Fits, lexemeOf, kind] using fits
  obtain ⟨b', t', read, silent, mirrors⟩ := h.text shown token.span
  refine ⟨tokens, _, stack, b', t', Nat.lt_succ_self _, rest.of_silent silent, mirrors, laid, ?_, ?_⟩
  · rw [Builder.readAll_cons, Builder.feed_text kind, read]
  · have first : items ((token :: tokens).map (lexemeOf source)) =
        .text (textOf (Text.slice source token.span).toList) ::
          items (tokens.map (lexemeOf source)) := by
      rw [List.map_cons, items]
      simp only [lexemeOf, kind]
    rw [first, elementsOf_text, List.append_assoc]
    rfl

theorem Mirrors.advance_quiet (h : Mirrors done stack b t) (rest : b.AtRest)
    (kind : token.kind = .whitespace ∨ token.kind = .comment)
    (laid : Laid .content (tokens.map (lexemeOf source))) :
    Advances source done stack b t (token :: tokens) tokens done stack b t := by
  have inner : (lexemeOf source token).Inner := by
    rcases kind with kind | kind <;> simp [Lexeme.Inner, lexemeOf, kind]
  refine ⟨Nat.lt_succ_self _, rest, h, laid, ?_, ?_⟩
  · rw [Builder.readAll_cons, Builder.feed_quiet (.inr kind)]
  · rw [List.map_cons, items_of_inner inner]

/-- Between tags there is a start tag, a close tag, a text, a blank or a comment. -/
theorem Mirrors.advance (h : Mirrors done stack b t) (rest : b.AtRest)
    (laid : Laid .content ((token :: tokens).map (lexemeOf source)))
    (clean : Builder.EndsClean (Builder.readAll source (b, t) (token :: tokens))) :
    ∃ tail done' stack' b' t',
      Advances source done stack b t (token :: tokens) tail done' stack' b' t' := by
  cases laid.inContent with
  | start kind laid => exact h.advance_start rest kind laid clean
  | close kind laid => exact h.advance_close rest kind laid clean
  | text kind later => exact h.advance_text rest kind laid.1 later
  | quiet kind laid => exact ⟨_, _, _, _, _, h.advance_quiet rest kind laid⟩

/-- Reading goes on item by item: what it comes to in the end are the items of the text. -/
theorem Mirrors.readAll (h : Mirrors done stack b t) (tokens : List Token) (rest : b.AtRest)
    (laid : Laid .content (tokens.map (lexemeOf source)))
    (clean : Builder.EndsClean (Builder.readAll source (b, t) tokens)) :
    ∃ stack' b' t', Builder.readAll source (b, t) tokens = (b', t') ∧ b'.AtRest ∧
      Mirrors (done ++ locate (elementsOf done).length stack
        (items (tokens.map (lexemeOf source)))) stack' b' t' := by
  -- an item takes several tokens, so the induction is on how many are left
  induction hn : tokens.length using Nat.strong_induction_on generalizing done stack b t tokens with
  | _ n ih =>
    cases tokens with
    | nil => exact ⟨stack, b, t, rfl, rest, by simpa [items, locate] using h⟩
    | cons token tokens =>
      obtain ⟨tail, done', stack', b', t', step⟩ := h.advance rest laid clean
      rw [step.reads] at clean ⊢
      rw [step.items]
      exact ih tail.length (hn ▸ step.shorter) step.mirrors tail step.rest step.laid clean rfl

end

section
variable {done : List (Option Nat × Item)} {stack : List Nat} {b : Builder} {t : Tree}

/-! ## What a node says -/

/-- A node says what was read of an element: its start tag, the number of the element
around it, and its texts. -/
structure Node.Says (n : Node) (around : Option Nat) (start : StartTag) (texts : List String) :
    Prop where
  tag : n.tag = start.tag
  kind : n.kind = .ofTag start.tag
  parent : n.parent = around.map NodeId.mk
  names : (n.attributes.filter fun a => !a.content).map (·.name) = n.kind.arrange start.names
  paired : start.names.length = start.values.length
  values : ∀ name ∈ start.names,
    Entry.lastValue? (start.names.zip start.values) name = some (n.value name)
  text : n.kind = .value → n.value contentName = " ".intercalate texts

/-- Without the attribute that holds the text, the attributes are those of the start tag. -/
theorem filter_arrange {kind : Kind} {names texts : List String}
    (named : ∀ name ∈ names, name ≠ contentName) :
    (kind.arrange (names ++ if kind.keeps texts = [] then [] else [contentName])).filter
      (fun name => !(kind.bareAttribute name).content) = kind.arrange names := by
  have all : (kind.arrange names).filter (fun name => !(kind.bareAttribute name).content) =
      kind.arrange names := by
    refine List.filter_eq_self.mpr fun name hn => ?_
    simp [Kind.content_bareAttribute, named name (Kind.mem_arrange.mp hn)]
  split
  · rwa [List.append_nil]
  · rename_i kept
    have accepts : kind.acceptsContent = true := by
      by_contra h
      exact kept (by simp [Kind.keeps, h])
    obtain ⟨spec, declared⟩ := Option.isSome_iff_exists.mp accepts
    obtain ⟨l, r, old, new, -, -⟩ :=
      Kind.arrange_append_of_some (fun h => named _ h rfl) declared
    rw [old, List.filter_append] at all
    rw [new, old, List.filter_append, List.filter_cons, Kind.content_bareAttribute, accepts]
    simpa using all

theorem lastValue?_isSome_of_mem {names values : List String} (h : names.length = values.length)
    {name : String} (hn : name ∈ names) : (Entry.lastValue? (names.zip values) name).isSome = true := by
  obtain ⟨i, hi, rfl⟩ := List.mem_iff_getElem.mp hn
  have found : (names[i], values[i]) ∈
      (names.zip values).filter fun p => p.1 == names[i] := by
    refine List.mem_filter.mpr ⟨?_, beq_self_eq_true _⟩
    refine List.mem_iff_getElem.mpr ⟨i, by simp; omega, by simp⟩
  rw [Entry.lastValue?, Option.isSome_map, List.getLast?_isSome]
  exact List.ne_nil_of_mem found

theorem Entry.Shows.says {n : Node} {k : Nat} {around : Option Nat} {start : StartTag}
    {texts : List String} (h : n.entry.Shows k around start ((Kind.ofTag start.tag).keeps texts)) :
    n.Says around start texts := by
  refine ⟨h.tag, h.kind, h.parent, ?_, h.paired, ?_, ?_⟩
  · have bases : n.attributes.map Attribute.base = (n.kind.arrange (start.names ++
        if (Kind.ofTag start.tag).keeps texts = [] then [] else [contentName])).map
          n.kind.bareAttribute := h.attributes
    have filtered : (n.attributes.filter fun a => !a.content).map (·.name) =
        ((n.attributes.map Attribute.base).filter fun a => !a.content).map (·.name) := by
      rw [List.filter_map, List.map_map]
      rfl
    have kind : n.kind = .ofTag start.tag := h.kind
    rw [filtered, bases, ← kind, List.filter_map, List.map_map]
    refine (List.map_congr_left fun name _ => ?_).trans ((List.map_id _).trans ?_)
    · exact Kind.name_bareAttribute n.kind name
    · exact filter_arrange h.named
  · intro name hn
    obtain ⟨value, hv⟩ := Option.isSome_iff_exists.mp (lastValue?_isSome_of_mem h.paired hn)
    have held := h.values name (h.named name hn)
    rw [hv] at held
    rw [hv]
    exact congrArg some held.symm
  · intro value
    have accepts : (Kind.ofTag start.tag).acceptsContent = true := by
      rw [← show n.kind = .ofTag start.tag from h.kind, value]
      decide
    have content := h.content
    rwa [Kind.keeps, if_pos accepts] at content

/-! ## The children of an element -/

/-- The kind of an element gives its place among its siblings. -/
def elementRank (element : Option Nat × StartTag) : Nat := (Kind.ofTag element.2.tag).rank

/-- The numbers of the elements right inside the element with a number, sorted by the
places of their kinds; the sort is stable. -/
def childrenOf (elements : List (Option Nat × StartTag)) (k : Nat) : List Nat :=
  ((elements.zipIdx.filter fun x => x.1.1 == some k).mergeSort fun x y =>
    decide (elementRank x.1 ≤ elementRank y.1)).map (·.2)

section

variable {α : Type} (rank age : α → Nat)

/-- A stable sort keeps the order within a rank. -/
theorem filter_mergeSort (l : List α) (r : Nat) :
    (l.mergeSort fun a b => decide (rank a ≤ rank b)).filter (fun a => rank a == r) =
      l.filter fun a => rank a == r := by
  have trans : ∀ a b c : α, decide (rank a ≤ rank b) = true → decide (rank b ≤ rank c) = true →
      decide (rank a ≤ rank c) = true := by
    intro a b c hab hbc
    simp only [decide_eq_true_eq] at hab hbc ⊢
    omega
  have total : ∀ a b : α, (decide (rank a ≤ rank b) || decide (rank b ≤ rank a)) = true := by
    intro a b
    simp only [Bool.or_eq_true, decide_eq_true_eq]
    omega
  have same : (l.filter fun a => rank a == r).Pairwise fun a b => decide (rank a ≤ rank b) = true := by
    refine List.pairwise_of_forall_mem_list fun a ha b hb => ?_
    simp only [List.mem_filter, beq_iff_eq] at ha hb
    simp only [decide_eq_true_eq]
    omega
  have sub := (List.sublist_mergeSort trans total same List.filter_sublist).filter fun a => rank a == r
  rw [List.filter_filter] at sub
  simp only [Bool.and_self] at sub
  refine (sub.eq_of_length ?_).symm
  exact ((List.mergeSort_perm l _).filter _).length_eq.symm

theorem pairwise_mergeSort_of_age {l : List α} (h : l.Pairwise fun a b => age a < age b) :
    (l.mergeSort fun a b => decide (rank a ≤ rank b)).Pairwise fun a b =>
      rank a < rank b ∨ rank a = rank b ∧ age a < age b := by
  have sorted : (l.mergeSort fun a b => decide (rank a ≤ rank b)).Pairwise
      fun a b => decide (rank a ≤ rank b) = true := by
    refine List.pairwise_mergeSort ?_ ?_ l
    · intro a b c hab hbc
      simp only [decide_eq_true_eq] at hab hbc ⊢
      omega
    · intro a b
      simp only [Bool.or_eq_true, decide_eq_true_eq]
      omega
  refine List.pairwise_iff_forall_sublist.mpr fun {a b} hab => ?_
  have le := of_decide_eq_true (List.pairwise_iff_forall_sublist.mp sorted hab)
  rcases Nat.lt_or_eq_of_le le with lt | eq
  · exact .inl lt
  · have within := hab.filter fun x => rank x == rank a
    rw [filter_mergeSort] at within
    simp only [List.filter_cons, beq_self_eq_true, ↓reduceIte, eq, List.filter_nil] at within
    exact .inr ⟨eq, List.pairwise_iff_forall_sublist.mp h (within.trans List.filter_sublist)⟩

end

section
variable (elements : List (Option Nat × StartTag))

/-- The place that the kind of the element with a number gives. -/
def rankAt (j : Nat) : Nat := ((elements[j]?).map elementRank).getD 0

/-- The order of siblings, as an order of numbers: by rank, and within a rank by age. -/
def ElementBefore (i j : Nat) : Prop :=
  rankAt elements i < rankAt elements j ∨ rankAt elements i = rankAt elements j ∧ i < j

variable {elements} {k j : Nat}

theorem not_elementBefore_of_elementBefore {i j : Nat} (h : ElementBefore elements i j) : ¬ ElementBefore elements j i := by
  unfold ElementBefore at h ⊢
  omega

theorem mem_childrenOf :
    j ∈ childrenOf elements k ↔ ∃ start, elements[j]? = some (some k, start) := by
  simp only [childrenOf, List.mem_map, List.mem_mergeSort, List.mem_filter, beq_iff_eq,
    List.mem_zipIdx_iff_getElem?]
  constructor
  · rintro ⟨⟨⟨around, start⟩, j⟩, ⟨hj, rfl⟩, rfl⟩
    exact ⟨start, hj⟩
  · rintro ⟨start, hj⟩
    exact ⟨⟨⟨some k, start⟩, j⟩, ⟨hj, rfl⟩, rfl⟩

theorem pairwise_childrenOf : (childrenOf elements k).Pairwise (ElementBefore elements) := by
  have numbered : elements.zipIdx.Pairwise fun x y => x.2 < y.2 := by
    have ages : (elements.zipIdx.map (·.2)).Pairwise (· < ·) := by
      rw [List.zipIdx_map_snd]
      exact List.pairwise_lt_range'
    exact List.pairwise_map.mp ages
  have inside := numbered.sublist
    (@List.filter_sublist _ (fun x => x.1.1 == some k) elements.zipIdx)
  have sorted := pairwise_mergeSort_of_age
    (fun x : (Option Nat × StartTag) × Nat => elementRank x.1) (fun x => x.2) inside
  have rank {x : (Option Nat × StartTag) × Nat} (hx : x ∈ elements.zipIdx) :
      rankAt elements x.2 = elementRank x.1 := by
    simp only [rankAt, List.mem_zipIdx_iff_getElem?.mp hx, Option.map_some, Option.getD_some]
  rw [childrenOf, List.pairwise_map]
  apply sorted.imp_of_mem
  intro x y hx hy hxy
  rw [List.mem_mergeSort] at hx hy
  unfold ElementBefore
  rw [rank (List.mem_of_mem_filter hx), rank (List.mem_of_mem_filter hy)]
  exact hxy

theorem nodup_childrenOf : (childrenOf elements k).Nodup := by
  have numbered : (elements.zipIdx.map (·.2)).Nodup := by
    rw [List.zipIdx_map_snd]
    exact List.nodup_range'
  rw [childrenOf, ((List.mergeSort_perm _ _).map _).nodup_iff]
  exact numbered.sublist (List.filter_sublist.map _)

end

/-- What a node has to do with the element of its number. -/
theorem Mirrors.element (h : Mirrors done stack b t) {s : Shape} (hs : s ∈ t.shapes) :
    ∃ around start, (elementsOf done)[s.id.index]? = some (around, start) ∧
      s.kind = .ofTag start.tag ∧ s.parent = around.map NodeId.mk := by
  have issued := h.sound.arranged.issued s hs
  rw [h.issued] at issued
  obtain ⟨⟨around, start⟩, hk⟩ : ∃ x, (elementsOf done)[s.id.index]? = some x :=
    ⟨_, List.getElem?_eq_getElem issued⟩
  obtain ⟨e, he, shows⟩ := h.shows _ around start hk
  obtain ⟨n, hn, rfl⟩ := List.mem_map.mp he
  obtain ⟨m, hm, rfl⟩ := List.mem_map.mp hs
  obtain rfl : m = n := List.inj_on_of_nodup_map h.sound.nodup hm hn shows.id.symm
  exact ⟨around, start, hk, shows.kind, shows.parent⟩

/-- The kids of a node have the numbers of the elements right inside its element. -/
theorem Mirrors.mem_kids (h : Mirrors done stack b t) (id : NodeId) (j : Nat) :
    j ∈ (kidsOf t.shapes id).map (fun s => s.id.index) ↔
      j ∈ childrenOf (elementsOf done) id.index := by
  rw [mem_childrenOf, List.mem_map]
  constructor
  · rintro ⟨s, hs, rfl⟩
    obtain ⟨hs, parent⟩ := List.mem_filter.mp hs
    obtain ⟨around, start, hk, -, hp⟩ := h.element hs
    rw [of_decide_eq_true parent] at hp
    obtain ⟨j, rfl, hj⟩ := Option.map_eq_some_iff.mp hp.symm
    rw [← hj]
    exact ⟨start, hk⟩
  · rintro ⟨start, hj⟩
    obtain ⟨e, he, shows⟩ := h.shows j _ start hj
    obtain ⟨m, hm, rfl⟩ := List.mem_map.mp he
    refine ⟨m.shape, List.mem_filter.mpr ⟨List.mem_map_of_mem hm, ?_⟩, ?_⟩
    · exact decide_eq_true shows.parent
    · exact congrArg NodeId.index shows.id

theorem Mirrors.pairwise_kids (h : Mirrors done stack b t) (id : NodeId) :
    ((kidsOf t.shapes id).map fun s => s.id.index).Pairwise (ElementBefore (elementsOf done)) := by
  have rank {s : Shape} (hs : s ∈ t.shapes) : rankAt (elementsOf done) s.id.index = s.rank := by
    obtain ⟨around, start, hk, kind, -⟩ := h.element hs
    simp only [rankAt, hk, Option.map_some, Option.getD_some, elementRank, Shape.rank, kind]
  have sorted := h.sound.arranged.sorted.sublist
    (@List.filter_sublist _ (fun s => decide (s.parent = some id)) t.shapes)
  rw [List.pairwise_map]
  apply sorted.imp_of_mem
  intro a c ha hc hac
  obtain ⟨ha, pa⟩ := List.mem_filter.mp ha
  obtain ⟨hc, pc⟩ := List.mem_filter.mp hc
  have before := hac ((of_decide_eq_true pa).trans (of_decide_eq_true pc).symm)
  unfold ElementBefore
  rw [rank ha, rank hc]
  exact before

theorem Mirrors.nodup_kids (h : Mirrors done stack b t) (id : NodeId) :
    ((kidsOf t.shapes id).map fun s => s.id.index).Nodup := by
  have distinct := h.sound.arranged.distinct.sublist
    ((@List.filter_sublist _ (fun s => decide (s.parent = some id)) t.shapes).map Shape.id)
  have numbers := distinct.map (f := NodeId.index) fun a c e => by
    cases a
    cases c
    exact congrArg NodeId.mk e
  rwa [List.map_map] at numbers

/-- The children of a node are those of its element, in their order. -/
theorem Mirrors.children (h : Mirrors done stack b t) {n : Node} (hn : n ∈ t.nodes) :
    (t.children n.id).map (·.id) =
      (childrenOf (elementsOf done) n.id.index).map NodeId.mk := by
  have ids : (t.children n.id).map (·.id) = (kidsOf t.shapes n.id).map Shape.id := by
    rw [← h.sound.shapes_children hn, List.map_map]
    rfl
  have same : ((kidsOf t.shapes n.id).map fun s => s.id.index).Perm
      (childrenOf (elementsOf done) n.id.index) :=
    (List.perm_ext_iff_of_nodup (h.nodup_kids n.id) nodup_childrenOf).mpr (h.mem_kids n.id)
  have indices := same.eq_of_pairwise
    (fun i j _ _ hij hji => absurd hji (not_elementBefore_of_elementBefore hij))
    (h.pairwise_kids n.id) pairwise_childrenOf
  rw [ids, ← indices, List.map_map]
  rfl

end

/-! ## The theorem -/

namespace Document

/-- A tree is what a text says: one node for each start tag, and every node says what was
read of its element and has the children of its element. -/
structure Faithful (source : String) (t : Tree) : Prop where
  elements : (elementsOf (located source)).length =
    (lex source).countP fun token => token.kind == .startTag
  nodes : t.nodes.length = (elementsOf (located source)).length
  node : ∀ k around start, (elementsOf (located source))[k]? = some (around, start) →
    ∃ n ∈ t.nodes, n.id = ⟨k⟩ ∧ n.Says around start (textsOf (located source) k) ∧
      (t.children n.id).map (·.id) = (childrenOf (elementsOf (located source)) k).map NodeId.mk

theorem length_elements (source : String) : (elementsOf (located source)).length =
    (lex source).countP fun token => token.kind == .startTag := by
  rw [located, length_elementsOf_locate, words, List.countP_map]
  rfl

theorem parse_eq (t : Tree) (source : String) (settings : Settings) :
    parse t source settings =
      let s := Builder.readAll source ({ limit := settings.nestingLimit }, t.clear) (lex source)
      (orDefault (s.1.finish s.2 ⟨.textToTree⟩).2.2, (s.1.finish s.2 ⟨.textToTree⟩).1) := rfl

/-- What has an element stays as it is read. -/
theorem parse_of_nodes {t : Tree} {source : String} {settings : Settings}
    (live : (readTokens t (lex source) source settings).1.nodes ≠ []) :
    parse t source settings = readTokens t (lex source) source settings := by
  have kept : orDefault (readTokens t (lex source) source settings).1 =
      (readTokens t (lex source) source settings).1 := by
    rw [orDefault, Tree.isEmpty, List.isEmpty_eq_false_iff.mpr live]
    rfl
  exact congrArg (·, (readTokens t (lex source) source settings).2) kept

/-- Where nothing has been read yet, there is nothing in the tree. -/
theorem mirrors_clear (t : Tree) (limit : Nat) : Mirrors [] [] { limit } t.clear :=
  mirrors_start limit t.nodes_clear (Tree.issued_setSelection _ _) (Tree.clear_sound t)

/-- A text about which nothing obscuring is reported is read as it stands. -/
theorem mirrors_readTokens (t : Tree) (source : String) (settings : Settings)
    (clear : ∀ d ∈ (readTokens t (lex source) source settings).2, d.kind ∉ obscuring) :
    ∃ stack b, Mirrors (located source) stack b (readTokens t (lex source) source settings).1 := by
  obtain ⟨stack, b, t', read, rest, mirrors⟩ := (mirrors_clear t settings.nestingLimit).readAll
    (lex source) ⟨rfl, rfl, by simp⟩ (words_laid source) clear
  have tree : (readTokens t (lex source) source settings).1 = (b.finish t' ⟨.textToTree⟩).2.2 :=
    congrArg (fun s : Builder × Tree => (s.1.finish s.2 ⟨.textToTree⟩).2.2) read
  rw [tree, Builder.finish_tree, rest.abandon]
  exact ⟨stack, b, mirrors⟩

/-- A text with an element, about which nothing obscuring is reported, is read into the
tree that it describes. -/
theorem parse_faithful (t : Tree) (source : String) (settings : Settings)
    (clear : ∀ d ∈ (parse t source settings).2, d.kind ∉ obscuring)
    (element : ∃ token ∈ lex source, token.kind = .startTag) :
    Faithful source (parse t source settings).1 := by
  rw [parse_eq] at clear ⊢
  dsimp only at clear ⊢
  have start := mirrors_start settings.nestingLimit t.nodes_clear
    (show t.clear.issued = 0 from Tree.issued_setSelection _ _) (Tree.clear_sound t)
  obtain ⟨stack, b, t', read, rest, mirrors⟩ := start.readAll (lex source)
    ⟨rfl, rfl, by simp⟩ (words_laid source) clear
  rw [read, Builder.finish_tree, rest.abandon]
  have located : Mirrors (located source) stack b t' := mirrors
  have some' : (elementsOf (Markup.located source)).length ≠ 0 := by
    rw [length_elements]
    obtain ⟨token, hm, kind⟩ := element
    exact Nat.ne_of_gt (List.countP_pos_iff.mpr ⟨token, hm, by simp [kind]⟩)
  have kept : orDefault t' = t' := by
    have nonempty : t'.isEmpty = false := by
      have size := located.size
      cases hn : t'.nodes with
      | nil =>
        rw [hn] at size
        exact absurd size.symm some'
      | cons n rest => simp [Tree.isEmpty, hn]
    rw [orDefault, nonempty]
    rfl
  rw [kept]
  refine ⟨length_elements source, located.size, fun k around start hk => ?_⟩
  obtain ⟨e, he, shows⟩ := located.shows k around start hk
  obtain ⟨n, hn, rfl⟩ := List.mem_map.mp he
  have id : n.id = ⟨k⟩ := shows.id
  refine ⟨n, hn, id, shows.says, ?_⟩
  rw [located.children hn, id]

/-- Siblings that have to be sorted, and a name that is set twice. -/
theorem parse_faithful_run :
    let source := "<fetch><filter/><entity b='1' name='c' name='&lt;'></x></fetch>"
    (∀ d ∈ (parse .empty source {}).2, d.kind ∉ obscuring) ∧
      (∃ token ∈ lex source, token.kind = .startTag) ∧
      Faithful source (parse .empty source {}).1 := by
  intro source
  have clear : ∀ d ∈ (parse .empty source {}).2, d.kind ∉ obscuring := by decide +kernel
  have element : ∃ token ∈ lex source, token.kind = .startTag := by decide +kernel
  exact ⟨clear, element, parse_faithful .empty source {} clear element⟩

end Document

end QueryMarkup
