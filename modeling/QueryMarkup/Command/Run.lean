import QueryMarkup.Command.Document
import QueryMarkup.Command.Load
import QueryMarkup.Diagnostic.Printer
import QueryMarkup.Tree.Outline
import QueryMarkup.Vocabulary.Listing

/-!
Command lines to what a program leaves behind: its exit code, its output and its
messages.
-/
namespace QueryMarkup.Command

structure Outcome where
  code : Nat := 0
  output : String := ""
  messages : String := ""
  deriving DecidableEq

/-- How the program is used. -/
def usage : String :=
  "usage: querymarkup check|fmt|tree [FILE | -t TEXT] [--color auto|always|never]\n"
    ++ "       querymarkup new\n"
    ++ "       querymarkup schema [--json]\n"
    ++ "  check: --strict --compact   tree: --spans   all: --config FILE, -v, -h\n"

def UsageError.message : UsageError → String
  | helpWanted | nothingGiven => usage
  | missingCommand => "error: a command is required\n"
  | unknownCommand => "error: unknown command\n"
  | unknownArgument => "error: unexpected argument\n"
  | invalidValue => "error: invalid value\n"
  | conflict => "error: arguments exclude each other\n"
  | surplusValue => "error: the option takes no value\n"

/-- Help that is asked for is output. Every other end of a command line is a failure. -/
def UsageError.outcome : UsageError → Outcome
  | helpWanted => { output := usage }
  | error => { code := 2, messages := error.message }

def LoadError.outcome (error : LoadError) : Outcome :=
  { code := 1, messages := s!"error: {error.message}\n" }

/-- Whether drawings are coloured for messages on a terminal or elsewhere. -/
def ColorChoice.colored (choice : ColorChoice) (terminal : Bool) : Bool :=
  match choice with
  | auto => terminal
  | always => true
  | never => false

/-- Reports what is found in a document, and fails if it is not valid. -/
def checked (document : NamedText) (settings : Settings) (strict compact colored : Bool) :
    Outcome :=
  let found := Document.check document.text settings
  let printer : Diagnostics.Printer := ⟨some document.text, some document.name, colored, compact⟩
  { code := if Document.isValid found strict then 0 else 1, messages := printer.print found }

/-- Puts out the canonical form of a document, or reports why it has none. -/
def formatted (document : NamedText) (settings : Settings) (colored : Bool) : Outcome :=
  match Document.format document.text settings with
  | .ok text => { output := text ++ "\n" }
  | .error found =>
    let printer : Diagnostics.Printer := ⟨some document.text, some document.name, colored, false⟩
    { code := 1, messages := printer.print found }

/-- Puts out the outline of a document, and reports what was found while reading it. -/
def outlined (document : NamedText) (settings : Settings) (spans colored : Bool) : Outcome :=
  let session := Document.opened document.text settings
  let printer : Diagnostics.Printer := ⟨some document.text, some document.name, colored, false⟩
  { output := session.tree.outline spans, messages := printer.print session.parseDiagnostics }

variable {m : Type → Type} [Monad m]

/-- Reads the document and goes on with it. -/
def withDocument (host : Host m) (choice : DocumentChoice)
    (next : NamedText → Bool → Outcome) : m Outcome := do
  match ← loadDocument host choice with
  | .error error => return error.outcome
  | .ok document => return next document (choice.color.colored host.terminal)

def perform (host : Host m) (settings : Settings) : Action → m Outcome
  | .check choice strict compact =>
    withDocument host choice fun document => checked document settings strict compact
  | .format choice => withDocument host choice fun document => formatted document settings
  | .outline choice spans =>
    withDocument host choice fun document => outlined document settings spans
  | .fresh => return { output := Document.fresh settings ++ "\n" }
  | .schema json =>
    return { output := if json then Vocabulary.json.pretty 0 ++ "\n" else Vocabulary.listing }

/-- Carries out a command line. The settings are read before the document. -/
def run (host : Host m) (arguments : List String) : m Outcome := do
  match parse arguments with
  | .error error => return error.outcome
  | .ok request =>
    match ← loadSettings host request.config with
    | .error error => return error.outcome
    | .ok settings => perform host settings request.action

end QueryMarkup.Command
