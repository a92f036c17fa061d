import QueryMarkup.Sync.Session

/-!
What the commands do with one document. Each reads it through a session, as an
editor would.
-/
namespace QueryMarkup.Document

/-- A session in which the text has been read. -/
def opened (text : String) (settings : Settings) : Session :=
  let session : Session := { editor := { text }, settings, tree := Tree.empty }
  session.reparse

/-- Everything that is found in a text, as an editor would show it. -/
def check (text : String) (settings : Settings) : List Diagnostic :=
  (opened text settings).diagnostics

/-- Nothing is wrong; `strict` counts warnings as well. -/
def isValid (diagnostics : List Diagnostic) (strict : Bool) : Bool :=
  !Diagnostics.hasErrors diagnostics && !(strict && Diagnostics.hasWarnings diagnostics)

/-- The text in its canonical form. A text that was not read without errors is refused with
what was found, because the canonical form would leave out what was skipped. -/
def format (text : String) (settings : Settings) : Except (List Diagnostic) String :=
  let session := opened text settings
  if Diagnostics.hasErrors session.parseDiagnostics then .error session.parseDiagnostics
  else .ok session.renderNow.2.text

/-- The document that a new tree starts with. -/
def fresh (settings : Settings) : String :=
  let session : Session := { editor := { text := "" }, settings, tree := Tree.empty }
  (session.edit .reset).1.renderNow.2.text

end QueryMarkup.Document
