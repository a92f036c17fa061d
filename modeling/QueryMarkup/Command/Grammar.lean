/-!
The words of a command line: the commands, the options, where each option may
stand, and what a single argument looks like.
-/
namespace QueryMarkup.Command

inductive Name where
  | check
  | format
  | outline
  | fresh
  | schema
  deriving DecidableEq

def Name.word : Name → String
  | check => "check"
  | format => "fmt"
  | outline => "tree"
  | fresh => "new"
  | schema => "schema"

def Name.all : List Name := [.check, .format, .outline, .fresh, .schema]

def Name.ofWord? (word : String) : Option Name := Name.all.find? fun name => name.word == word

/-- The word that asks for help about a command. -/
def helpWord : String := "help"

inductive Flag where
  | config
  | verbose
  | help
  | text
  | strict
  | compact
  | color
  | spans
  | json
  deriving DecidableEq

namespace Flag

def long : Flag → String
  | config => "config"
  | verbose => "verbose"
  | help => "help"
  | text => "text"
  | strict => "strict"
  | compact => "compact"
  | color => "color"
  | spans => "spans"
  | json => "json"

def short? : Flag → Option Char
  | verbose => some 'v'
  | help => some 'h'
  | text => some 't'
  | _ => none

def takesValue : Flag → Bool
  | config | text | color => true
  | _ => false

end Flag

/-- Where an option stands: before the command or after it. -/
inductive Scope where
  | top
  | command (name : Name)
  deriving DecidableEq

namespace Scope

/-- The options that may stand here. Three may stand anywhere. -/
def flags : Scope → List Flag
  | top | command .fresh => [.config, .verbose, .help]
  | command .check => [.config, .verbose, .help, .text, .strict, .compact, .color]
  | command .format => [.config, .verbose, .help, .text, .color]
  | command .outline => [.config, .verbose, .help, .text, .spans, .color]
  | command .schema => [.config, .verbose, .help, .json]

def long? (scope : Scope) (name : String) : Option Flag :=
  scope.flags.find? fun flag => flag.long == name

def short? (scope : Scope) (letter : Char) : Option Flag :=
  scope.flags.find? fun flag => flag.short? == some letter

/-- The command works on a document, which may be named here. -/
def takesDocument : Scope → Bool
  | command .check | command .format | command .outline => true
  | _ => false

end Scope

/-- What one argument looks like. -/
inductive Shape where
  /-- Two dashes: nothing after them is an option. -/
  | separator
  /-- Two dashes and a name, and what follows the first equals sign, if there is one. -/
  | long (name : String) (value : Option String)
  /-- A dash and one or more letters. -/
  | short (letters : List Char)
  /-- Anything else. A dash alone is no option. -/
  | plain
  deriving DecidableEq

def Shape.of (argument : String) : Shape :=
  match argument.toList with
  | ['-', '-'] => .separator
  | '-' :: '-' :: rest =>
    let name := rest.takeWhile (· ≠ '=')
    .long (String.ofList name) ((rest.drop name.length).tail?.map String.ofList)
  | '-' :: c :: rest => .short (c :: rest)
  | _ => .plain

end QueryMarkup.Command
