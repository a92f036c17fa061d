import QueryMarkup.Text.Range

/-!
What a command needs from the system it runs on, and a system that is a folder
of texts in memory.
-/
namespace QueryMarkup.Command

/-- Why a text cannot be read. -/
inductive ReadError where
  | notFound
  | denied
  | notDirectory
  | isDirectory
  | nameTooLong
  | notText
  | other (reason : String)
  deriving DecidableEq

def ReadError.message : ReadError → String
  | notFound => "No such file or directory (os error 2)"
  | denied => "Permission denied (os error 13)"
  | notDirectory => "Not a directory (os error 20)"
  | isDirectory => "Is a directory (os error 21)"
  | nameTooLong => "File name too long (os error 36)"
  | notText => "stream did not contain valid UTF-8"
  | other reason => reason

/-- A system, with the effects that reading on it has. -/
structure Host (m : Type → Type) where
  read : String → m (Except ReadError String)
  input : m (Except ReadError String)
  /-- Messages are shown on a terminal. -/
  terminal : Bool

/-- Texts by their paths, and the text on the input. -/
structure Folder where
  files : List (String × String)
  input : String

/-- The names that lead to a file of the folder. -/
def namesOf (path : List Char) : List (List Char) :=
  (path.splitOn '/').filter fun part => part ≠ [] ∧ part ≠ ['.']

/-- What is reached on the way along a path. Of what lies outside of the folder nothing is
known but that the folder is within directories. -/
inductive Spot where
  | file (text : String)
  | directory (names : List (List Char))
  | outside

/-- The bytes that a name may have. -/
def longestName : Nat := 255

/-- The bytes that a path may have. -/
def longestPath : Nat := 4095

/-- What has a name in a directory of the folder. -/
def Folder.find (folder : Folder) (names : List (List Char)) : Except ReadError Spot :=
  let named := folder.files.map fun (path, text) => (namesOf path.toList, text)
  match named.lookup names with
  | some text => .ok (.file text)
  | none =>
    if named.any fun (known, _) => names.isPrefixOf known then .ok (.directory names)
    else .error .notFound

/-- Goes on along a path by one part. No part leads on from a file, and an empty part or a
dot stays in a directory. -/
def Folder.step (folder : Folder) (spot : Spot) (part : List Char) : Except ReadError Spot :=
  match spot with
  | .file _ => .error .notDirectory
  | .directory names =>
    if part = [] ∨ part = ['.'] then .ok spot
    else if part = ['.', '.'] then
      .ok (if names.isEmpty then .outside else .directory names.dropLast)
    else if longestName < Text.byteLength part then .error .nameTooLong
    else folder.find (names ++ [part])
  | .outside =>
    if part = [] ∨ part = ['.'] ∨ part = ['.', '.'] then .ok spot
    else if longestName < Text.byteLength part then .error .nameTooLong
    else .error .notFound

/-- Reads the file with a path. A path that starts with a slash starts outside of the folder. -/
def Folder.read (folder : Folder) (path : String) : Except ReadError String := do
  if path.isEmpty then throw .notFound
  if longestPath < path.utf8ByteSize then throw .nameTooLong
  let start := if path.startsWith "/" then .outside else .directory []
  match ← (path.toList.splitOn '/').foldlM folder.step start with
  | .file text => return text
  | _ => throw .isDirectory

def Folder.host (folder : Folder) : Host Id where
  read := folder.read
  input := .ok folder.input
  terminal := false

end QueryMarkup.Command
