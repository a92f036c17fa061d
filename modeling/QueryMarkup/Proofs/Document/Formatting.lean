import QueryMarkup.Proofs.Document.Settling
import QueryMarkup.Proofs.Sync.Reading

/-!
# Formatting

A text that is read without errors is formatted by reading and writing it. The formatted text
is again read without errors, and is formatted to the markup of the same elements with the
blanks at the ends of texts taken away. So a second formatting is the last one that can
change anything.
-/
namespace QueryMarkup

open Markup

/-! ## What an editor reads -/

/-- A tree whose changes the host has been told of. -/
def Tree.quiet (t : Tree) : Tree := { t with journal := [] }

theorem Recovered.quiet {limit : Nat} {stack : List OpenElement} {ds : List Diagnostic} {t : Tree}
    (h : Recovered limit stack ds t) : Recovered limit stack ds t.quiet :=
  h.congr ⟨h.sound.arranged, h.sound.shown, h.sound.selection⟩ rfl

theorem Tree.Current.quiet {t : Tree} (h : t.Current) : t.quiet.Current :=
  ⟨h.fitted, h.wired, h.settled, h.fresh, h.declared⟩

namespace Session

variable (s : Session)

/-- The default document takes the place of a text without an element, one way or another. -/
theorem tree_readText : (s.readText ⟨.textToTree⟩).tree = (Document.orDefault s.parsed.tree).quiet := by
  rw [readText_eq, Document.orDefault]
  cases s.parsed.tree.isEmpty with
  | false => rfl
  | true =>
    rw [if_neg (by simp), if_pos rfl]
    split <;> rfl

theorem text_renderNow :
    s.renderNow.2.text = (Document.render s.tree s.settings.indentWidth).text := by
  unfold renderNow
  dsimp only
  split
  · rfl
  · split <;> rfl

end Session

namespace Document

section
variable (text : String) (settings : Settings)

/-- An editor that shows a text has the tree that is read from it, or the default document. -/
theorem tree_opened : (opened text settings).tree =
    (orDefault (readTokens .empty (lex text) text settings).1.quiet).quiet := by
  let session : Session := { editor := { text }, settings, tree := .empty }
  have opens : opened text settings = (session.readText ⟨.textToTree⟩).publish :=
    session.reparse_idle rfl
  rw [opens]
  exact session.tree_readText

/-- An editor that shows a text reads what reading alone makes of it, and reports the same. -/
theorem opened_spec : (opened text settings).tree.Writable ∧
    (opened text settings).tree.sketches = (parse .empty text settings).1.sketches ∧
    (opened text settings).parseDiagnostics = (parse .empty text settings).2 := by
  obtain ⟨recovered, current⟩ := recovered_readTokens .empty text settings
  let session : Session := { editor := { text }, settings, tree := .empty }
  have opens : opened text settings = (session.readText ⟨.textToTree⟩).publish :=
    session.reparse_idle rfl
  have reports : (opened text settings).parseDiagnostics =
      (readTokens .empty (lex text) text settings).2 := by
    rw [opens]
    exact session.parseDiagnostics_readText
  have parsed : parse .empty text settings = (orDefault (readTokens .empty (lex text) text settings).1,
    (readTokens .empty (lex text) text settings).2) := rfl
  rw [parsed, tree_opened, reports]
  generalize readTokens .empty (lex text) text settings = read at recovered current
  refine ⟨?_, ?_, rfl⟩
  · obtain ⟨kept, current', nonempty⟩ := recovered.quiet.orDefault current.quiet
    exact (kept.quiet.writable current'.quiet nonempty).1
  · unfold orDefault
    have same : read.1.quiet.isEmpty = read.1.isEmpty := rfl
    rw [same]
    split
    · have entries : read.1.quiet.reset.quiet.entries = read.1.reset.entries := by
        have quiet : read.1.quiet.reset.quiet.entries = read.1.quiet.reset.entries := rfl
        rw [quiet, Tree.entries_reset, Tree.entries_reset]
      rw [Tree.sketches_eq_entries, entries, ← Tree.sketches_eq_entries]
    · rfl

/-- Formatting is reading and writing, unless there are errors. -/
theorem format_eq : format text settings =
    if Diagnostics.hasErrors (parse .empty text settings).2 then .error (parse .empty text settings).2
    else .ok (render (parse .empty text settings).1 settings.indentWidth).text := by
  obtain ⟨writable, sketches, reports⟩ := opened_spec text settings
  have same : (opened text settings).settings = settings := Session.settings_reparse _
  unfold format
  dsimp only
  rw [reports, Session.text_renderNow, same,
    render_eq writable (recovered_parse .empty text settings).2.1 sketches]

end

/-! ## Formatting twice -/

theorem hasErrors_eq_false {ds : List Diagnostic} : Diagnostics.hasErrors ds = false ↔ Faultless ds := by
  simp [Diagnostics.hasErrors, Faultless]

section
variable {text out : String} {settings : Settings} {t : Tree}

/-- A text with a start tag, about which no error is reported, has an element. -/
theorem nodes_ne_nil (faultless : Faultless (readTokens t (lex text) text settings).2)
    (element : ∃ token ∈ lex text, token.kind = .startTag) :
    (readTokens t (lex text) text settings).1.nodes ≠ [] := by
  have errors : ∀ kind ∈ obscuring, kind.severity = .error := by decide
  obtain ⟨stack, b, mirrors⟩ := mirrors_readTokens t text settings fun d hd obscures => by
    have mild := faultless d hd
    rw [Diagnostic.isError, Diagnostic.severity, errors d.kind obscures] at mild
    cases mild
  obtain ⟨token, hm, kind⟩ := element
  have size : 0 < (readTokens t (lex text) text settings).1.nodes.length := by
    rw [mirrors.size, length_elements]
    exact List.countP_pos_iff.mpr ⟨token, hm, by simp [kind]⟩
  exact List.ne_nil_of_length_pos size

/-- What is read of a text without errors is within the limit: only the default document
may go beyond it. -/
theorem levels_parse (faultless : Faultless (parse t text settings).2)
    (fits : 2 ≤ settings.nestingLimit ∨ ∃ token ∈ lex text, token.kind = .startTag) :
    ∀ x ∈ (parse t text settings).1.sketches, x.level < settings.nestingLimit := by
  rcases fits with room | element
  · have levels := (recovered_parse t text settings).2.2
    rwa [Nat.max_eq_left room] at levels
  · have live := nodes_ne_nil faultless element
    obtain ⟨recovered, current⟩ := recovered_readTokens t text settings
    rw [parse_of_nodes live]
    exact (recovered.writable current live).2

/-- The markup of a tree with whose elements nothing is wrong is formatted. -/
theorem format_render (h : t.Writable) (right : ∀ kind, ¬ Sketch.Faulty (t.sketches.map Sketch.bare) kind)
    (levels : ∀ x ∈ t.sketches, x.level < settings.nestingLimit) :
    ∃ t' : Tree, t'.Writable ∧ t'.sketches = t.sketches.map Sketch.trimmed ∧
      format (render t settings.indentWidth).text settings =
        .ok (render t' settings.indentWidth).text := by
  obtain ⟨writable, sketches, faults⟩ := parse_again h settings.indentWidth settings levels .empty
  refine ⟨_, writable, sketches, ?_⟩
  have faultless := hasErrors_eq_false.mpr fun d hd => absurd (faults d hd) (right d.kind)
  rw [format_eq, faultless]
  rfl

end

/-- A formatted text is formatted again, and that is the end of it: a third formatting gives
the same text, and so does the second where no text in the document begins or ends with a
blank. Only the default document that is written for a text without an element may not be
read again, namely where it goes beyond the limit. -/
theorem format_format (text out : String) (settings : Settings) (formatted : format text settings = .ok out)
    (fits : 2 ≤ settings.nestingLimit ∨ ∃ token ∈ lex text, token.kind = .startTag) :
    ∃ again, format out settings = .ok again ∧ format again settings = .ok again ∧
      ((∀ n ∈ (parse .empty text settings).1.nodes, Text.Tight (n.value contentName).toList) →
        again = out) := by
  rw [format_eq] at formatted
  cases errors : Diagnostics.hasErrors (parse .empty text settings).2 with
  | true =>
    rw [errors] at formatted
    cases formatted
  | false =>
    rw [errors] at formatted
    have faultless := hasErrors_eq_false.mp errors
    obtain ⟨recovered, writable, -⟩ := recovered_parse .empty text settings
    have levels := levels_parse faultless fits
    have right := (recovered.proper faultless).not_faulty recovered.sound
    generalize (parse .empty text settings).1 = t at formatted recovered writable levels right ⊢
    obtain rfl : (render t settings.indentWidth).text = out := Except.ok.inj formatted
    obtain ⟨t', writable', sketches, second⟩ := format_render writable right levels
    have right' : ∀ kind, ¬ Sketch.Faulty (t'.sketches.map Sketch.bare) kind := by
      rwa [sketches, Sketch.map_bare_trimmed]
    obtain ⟨t'', writable'', sketches', third⟩ :=
      format_render writable' right' (sketches ▸ Sketch.levels_trimmed levels)
    refine ⟨_, second, third.trans (congrArg Except.ok ?_), fun tight => ?_⟩
    · refine render_eq writable'' writable' (sketches'.trans ?_) _
      rw [sketches, Sketch.map_trimmed_trimmed]
    · refine render_eq writable' writable (sketches.trans ?_) _
      refine Sketch.map_trimmed_eq writable.legible fun x hx => ?_
      obtain ⟨n, hn, rfl⟩ := List.mem_map.mp hx
      exact Node.tight_sketch (tight n hn)

/-- Siblings that have to be sorted. -/
theorem format_format_run :
    let text := "<fetch><entity><filter/><attribute name='x'/></entity></fetch>"
    let out := "<fetch>\n  <entity>\n    <attribute name=\"x\" />\n    <filter />\n  </entity>\n</fetch>"
    format text {} = .ok out ∧
      (2 ≤ ({} : Settings).nestingLimit ∨ ∃ token ∈ lex text, token.kind = .startTag) ∧
      ∃ again, format out {} = .ok again ∧ format again {} = .ok again ∧
        ((∀ n ∈ (parse .empty text {}).1.nodes, Text.Tight (n.value contentName).toList) →
          again = out) := by
  intro text out
  have formatted : format text {} = .ok out := by decide +kernel
  have fits : 2 ≤ ({} : Settings).nestingLimit ∨ ∃ token ∈ lex text, token.kind = .startTag :=
    .inl (by decide)
  exact ⟨formatted, fits, format_format text out {} formatted fits⟩

/-- The default document goes beyond a limit of one, and a blank that was written as a
reference is not written as one again. -/
theorem format_unsettled :
    let shallow := "<fetch>\n  <entity />\n</fetch>"
    let around (value : String) := "<fetch>\n  <entity>\n    <filter>\n      <condition>\n        " ++
      value ++ "\n      </condition>\n    </filter>\n  </entity>\n</fetch>"
    (format "" { nestingLimit := 1 } = .ok shallow ∧
        format shallow { nestingLimit := 1 } ≠ .ok shallow) ∧
      format (around "<value>&#32;x</value>") {} = .ok (around "<value> x</value>") ∧
        format (around "<value> x</value>") {} = .ok (around "<value>x</value>") ∧
        around "<value>x</value>" ≠ around "<value> x</value>" := by
  decide +kernel

end Document

end QueryMarkup
