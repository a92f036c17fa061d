import QueryMarkup.Command.Arguments
import QueryMarkup.Command.Host
import QueryMarkup.Settings.Reader

/-!
The settings and the document of a request, read on a host.
-/
namespace QueryMarkup.Command

/-- Why a request cannot be carried out. -/
inductive LoadError where
  | missingDocument
  | unreadableInput (cause : ReadError)
  | unreadable (path : String) (cause : ReadError)
  | malformedSettings (path : String)
  | invalidSettings (path : String) (cause : SettingsError)
  deriving DecidableEq

def LoadError.message : LoadError → String
  | missingDocument =>
    "document is required: use a FILE argument, `-` for stdin, or -t/--text"
  | unreadableInput cause => s!"failed to read stdin: {cause.message}"
  | unreadable path cause => s!"failed to read '{path}': {cause.message}"
  | malformedSettings path => s!"invalid config '{path}': settings are expected in JSON"
  | invalidSettings path cause => s!"invalid config '{path}': {cause.message}"

/-- A document with the name that messages give it. -/
structure NamedText where
  name : String
  text : String
  deriving DecidableEq

/-- The settings in a text. -/
def settingsIn (path text : String) : Except LoadError Settings :=
  match Settings.read? text with
  | none => .error (.malformedSettings path)
  | some settings =>
    match settings.validate with
    | .error cause => .error (.invalidSettings path cause)
    | .ok () => .ok settings

variable {m : Type → Type} [Monad m]

/-- Reads the settings. Without a path they are the defaults. -/
def loadSettings (host : Host m) (path : Option String) : m (Except LoadError Settings) := do
  match path with
  | none => return .ok {}
  | some path =>
    match ← host.read path with
    | .error cause => return .error (.unreadable path cause)
    | .ok text => return settingsIn path text

/-- Reads the document. A text that is given is the document; the path `-` is the input. -/
def loadDocument (host : Host m) (choice : DocumentChoice) : m (Except LoadError NamedText) := do
  match choice.text, choice.path with
  | some text, _ => return .ok ⟨"<text>", text⟩
  | none, some "-" =>
    return match ← host.input with
      | .error cause => .error (.unreadableInput cause)
      | .ok text => .ok ⟨"<stdin>", text⟩
  | none, some path =>
    return match ← host.read path with
      | .error cause => .error (.unreadable path cause)
      | .ok text => .ok ⟨path, text⟩
  | none, none => return .error .missingDocument

end QueryMarkup.Command
