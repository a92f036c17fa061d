import QueryMarkup.Command.Grammar

/-!
Command lines to requests, in two steps. Scanning turns arguments into items
without judging values. Accepting then stores the items one after the other. The
two meet in one rule: a value that stands in an argument of its own is only
judged once the next item is recognised, so an argument that is not understood
is reported before a bad value right ahead of it.
-/
namespace QueryMarkup.Command

/-- Why a command line leads to nothing. -/
inductive UsageError where
  /-- Help is asked for, which is no fault. -/
  | helpWanted
  | nothingGiven
  | missingCommand
  | unknownCommand
  | unknownArgument
  | invalidValue
  /-- Something is given twice, or two things that exclude each other. -/
  | conflict
  /-- A value for an option that takes none. -/
  | surplusValue
  deriving DecidableEq

/-- Something recognised on the command line. -/
inductive Item where
  | mark (flag : Flag)
  /-- An option with a value, or without the one it needs. -/
  | option (flag : Flag) (value : Option String)
  | document (path : String)
  deriving DecidableEq

/-- How scanning ends. -/
inductive Ending where
  | finished
  | command (name : Name) (rest : List String)
  | failed (error : UsageError)
  deriving DecidableEq

/-- The items of a scope in order. `waiting` is the last of them if its value is judged later. -/
structure Scan where
  items : List Item := []
  waiting : Option Item := none
  ending : Ending := .finished

/-- Puts an item in front that is judged as soon as it is recognised. -/
def Scan.prepend (item : Item) (scan : Scan) : Scan := { scan with items := item :: scan.items }

/-- Puts an item in front that is judged with the next item, if there is one. -/
def Scan.defer (item : Item) (scan : Scan) : Scan :=
  if scan.items.isEmpty && scan.waiting.isNone then { scan with waiting := some item }
  else scan.prepend item

/-- An option that is given without the value it needs. -/
def Scan.deferMissing (awaiting : Option Flag) (scan : Scan) : Scan :=
  match awaiting with
  | none => scan
  | some flag => scan.defer (.option flag none)

/-- What an argument with options comes to. -/
inductive Reading where
  | done (items : List Item)
  /-- The value of the last option is in the next argument. -/
  | awaits (items : List Item) (flag : Flag)
  | failed (items : List Item) (error : UsageError)

def Reading.prepend (item : Item) : Reading → Reading
  | done items => done (item :: items)
  | awaits items flag => awaits (item :: items) flag
  | failed items error => failed (item :: items) error

/-- Reads an option by its long name. -/
def readLong (scope : Scope) (name : String) (value : Option String) : Reading :=
  match scope.long? name with
  | none => .failed [] .unknownArgument
  | some flag =>
    match flag.takesValue, value with
    | true, some value => .done [.option flag (some value)]
    | true, none => .awaits [] flag
    | false, some _ => .failed [] .surplusValue
    | false, none => .done [.mark flag]

/-- Reads options by their letters. What follows the letter of an option with a value is the
value; an equals sign may stand between them. -/
def readLetters (scope : Scope) : List Char → Reading
  | [] => .done []
  | letter :: rest =>
    match scope.short? letter with
    | none => .failed [] .unknownArgument
    | some flag =>
      if flag.takesValue then
        match rest with
        | [] => .awaits [] flag
        | '=' :: value => .done [.option flag (some (String.ofList value))]
        | value => .done [.option flag (some (String.ofList value))]
      else (readLetters scope rest).prepend (.mark flag)

/-- The error of an argument that has no place. Before the command it is taken for a command. -/
def Scope.stray (scope : Scope) (separated : Bool) (argument : String) : UsageError :=
  match scope with
  | .command _ => .unknownArgument
  | .top =>
    if separated && ((Name.ofWord? argument).isSome || argument == helpWord) then .unknownArgument
    else .unknownCommand

/-- Whether help can be given about these words: about everything or about one command. -/
def helpFor (words : List String) : UsageError :=
  match words with
  | [] => .helpWanted
  | [word] =>
    if (Name.ofWord? word).isSome || word == helpWord then .helpWanted else .unknownCommand
  | _ => .unknownCommand

/-- Scans arguments none of which is an option. -/
def scanPlain (scope : Scope) (room : Bool) : List String → Scan
  | [] => {}
  | argument :: rest =>
    if room then (scanPlain scope false rest).defer (.document argument)
    else { ending := .failed (scope.stray true argument) }

/-- Scans the arguments of a scope. `awaiting` is an option whose value is still to come, and
`room` says that no document was named yet. -/
def scan (scope : Scope) (awaiting : Option Flag) (room : Bool) : List String → Scan
  | [] => Scan.deferMissing awaiting {}
  | argument :: rest =>
    let continued : Reading → Scan
      | .done items => items.foldr Scan.prepend (scan scope none room rest)
      | .awaits items flag => items.foldr Scan.prepend (scan scope (some flag) room rest)
      | .failed items error => items.foldr Scan.prepend { ending := .failed error }
    match Shape.of argument, awaiting with
    | .separator, awaiting => (scanPlain scope room rest).deferMissing awaiting
    | .long name value, awaiting => (continued (readLong scope name value)).deferMissing awaiting
    | .short letters, awaiting => (continued (readLetters scope letters)).deferMissing awaiting
    | .plain, some flag => (scan scope none room rest).defer (.option flag (some argument))
    | .plain, none =>
      let named := if scope = .top then Name.ofWord? argument else none
      match named with
      | some name => { ending := .command name rest }
      | none =>
        if scope = .top ∧ argument = helpWord then { ending := .failed (helpFor rest) }
        else if room then (scan scope none false rest).defer (.document argument)
        else { ending := .failed (scope.stray false argument) }

/-- When drawings are coloured. -/
inductive ColorChoice where
  | auto
  | always
  | never
  deriving DecidableEq

def ColorChoice.ofWord? (word : String) : Option ColorChoice :=
  if word = "auto" then some auto
  else if word = "always" then some always
  else if word = "never" then some never
  else none

/-- What was accepted in a scope. -/
structure Given where
  values : List (Flag × String) := []
  marks : List Flag := []
  verbosity : Nat := 0
  document : Option String := none

namespace Given

def value? (given : Given) (flag : Flag) : Option String := given.values.lookup flag

def isEmpty (given : Given) : Bool :=
  given.values.isEmpty && given.marks.isEmpty && given.verbosity == 0 && given.document.isNone

/-- The value is one that the option takes. -/
def fits (flag : Flag) (value : String) : Bool :=
  match flag with
  | .config => !value.isEmpty
  | .color => (ColorChoice.ofWord? value).isSome
  | _ => true

/-- The largest verbosity that is told apart. -/
def verbosityLimit : Nat := 255

/-- Stores one item. Only the mark for verbosity may be repeated. -/
def accept (given : Given) : Item → Except UsageError Given
  | .mark .help => .error .helpWanted
  | .mark .verbose => .ok { given with verbosity := min (given.verbosity + 1) verbosityLimit }
  | .mark flag =>
    if given.marks.contains flag then .error .conflict
    else .ok { given with marks := flag :: given.marks }
  | .option _ none => .error .invalidValue
  | .option flag (some value) =>
    if (given.value? flag).isSome then .error .conflict
    else if fits flag value then .ok { given with values := (flag, value) :: given.values }
    else .error .invalidValue
  | .document path =>
    if path.isEmpty then .error .invalidValue else .ok { given with document := some path }

end Given

/-- The document that a command works on. -/
structure DocumentChoice where
  path : Option String
  text : Option String
  color : ColorChoice
  deriving DecidableEq

inductive Action where
  | check (document : DocumentChoice) (strict compact : Bool)
  | format (document : DocumentChoice)
  | outline (document : DocumentChoice) (spans : Bool)
  | fresh
  | schema (json : Bool)
  deriving DecidableEq

structure Request where
  action : Action
  config : Option String
  verbosity : Nat
  deriving DecidableEq

namespace Given

def documentChoice (given : Given) : DocumentChoice where
  path := given.document
  text := given.value? .text
  color := ((given.value? .color).bind ColorChoice.ofWord?).getD .auto

def action (given : Given) : Name → Action
  | .check =>
    .check given.documentChoice (given.marks.contains .strict) (given.marks.contains .compact)
  | .format => .format given.documentChoice
  | .outline => .outline given.documentChoice (given.marks.contains .spans)
  | .fresh => .fresh
  | .schema => .schema (given.marks.contains .json)

end Given

/-- Accepts the arguments after a command. A document is named or given as text, not both. -/
def acceptCommand (name : Name) (arguments : List String) : Except UsageError Given := do
  let scope := Scope.command name
  let scan := scan scope none scope.takesDocument arguments
  let given ← scan.items.foldlM Given.accept {}
  match scan.ending with
  | .failed error => throw error
  | _ =>
    let given ← scan.waiting.toList.foldlM Given.accept given
    if given.document.isSome && (given.value? .text).isSome then throw .conflict
    return given

/-- Reads a command line. What stands after the command counts more than what stands before. -/
def parse (arguments : List String) : Except UsageError Request := do
  let scan := scan .top none false arguments
  let given ← scan.items.foldlM Given.accept {}
  match scan.ending with
  | .failed error => throw error
  | .finished =>
    let given ← scan.waiting.toList.foldlM Given.accept given
    throw (if given.isEmpty then .nothingGiven else .missingCommand)
  | .command name rest =>
    let own ← acceptCommand name rest
    let given ← scan.waiting.toList.foldlM Given.accept given
    return {
      action := own.action name
      config := (own.value? .config).orElse fun _ => given.value? .config
      verbosity := if own.verbosity = 0 then given.verbosity else own.verbosity }

end QueryMarkup.Command
