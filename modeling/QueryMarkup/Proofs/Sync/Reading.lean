import QueryMarkup.Command.Document

/-!
# A pass that reads

Reading the text takes over the tree that the text gives. Where that has no node the default
document takes its place: after the pass if the text is blank, and inside it otherwise.
-/
namespace QueryMarkup.Session

/-- The session when the text has been read, before any default document. -/
def parsed (s : Session) : Session :=
  let read := Document.readTokens s.tree (Markup.lex s.editor.text) s.editor.text s.settings
  { ({ s with coordinator := ⟨.textToTree⟩, parseDiagnostics := read.2 } : Session).adopt read.1 with
    coordinator := ⟨.idle⟩ }

variable (s : Session)

theorem readText_eq : s.readText ⟨.textToTree⟩ =
    if s.parsed.tree.isEmpty = false then s.parsed
    else if Document.isBlankText (Markup.lex s.editor.text) s.editor.text then
      s.parsed.adopt s.parsed.tree.reset
    else
      { ({ s.parsed with coordinator := ⟨.textToTree⟩ } : Session).adopt s.parsed.tree.reset with
        coordinator := ⟨.idle⟩ } := by
  unfold readText parsed
  dsimp only [Coordinator.release]
  generalize Document.readTokens s.tree (Markup.lex s.editor.text) s.editor.text s.settings = read
  have same : (({ s with coordinator := ⟨.textToTree⟩, parseDiagnostics := read.2 } :
      Session).adopt read.1).tree.isEmpty = read.1.isEmpty := rfl
  rw [same]
  cases read.1.isEmpty <;> rfl

/-- Reading does not touch the editor, and ends its pass. -/
theorem readText_editor : (s.readText ⟨.textToTree⟩).editor = s.editor ∧
    (s.readText ⟨.textToTree⟩).coordinator = ⟨.idle⟩ := by
  rw [readText_eq]
  split
  · exact ⟨rfl, rfl⟩
  · split <;> exact ⟨rfl, rfl⟩

/-- While another pass is running nothing is read. -/
theorem reparse_busy (busy : s.coordinator.isIdle = false) :
    s.reparse = ({ s with changedAt := none, parseDiagnostics := [] } : Session).publish := by
  unfold reparse Coordinator.enter
  simp [busy]

theorem reparse_idle (idle : s.coordinator.isIdle = true) :
    s.reparse = (({ s with changedAt := none } : Session).readText ⟨.textToTree⟩).publish := by
  unfold reparse Coordinator.enter
  simp [idle]

theorem parseDiagnostics_readText : (s.readText ⟨.textToTree⟩).parseDiagnostics =
    (Document.readTokens s.tree (Markup.lex s.editor.text) s.editor.text s.settings).2 := by
  rw [readText_eq]
  split
  · rfl
  · split <;> rfl

theorem settings_reparse : s.reparse.settings = s.settings := by
  cases idle : s.coordinator.isIdle with
  | false =>
    rw [reparse_busy s idle]
    rfl
  | true =>
    rw [reparse_idle s idle, publish, readText_eq]
    dsimp only
    split
    · rfl
    · split <;> rfl

end QueryMarkup.Session
