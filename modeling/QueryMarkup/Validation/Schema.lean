/-!
Questions to a schema that lies outside the tree: does this table exist, does
this column exist on that table. The host answers a question when it is put,
keeps it for later or leaves it unanswered. Each check numbers its questions
with tickets, and an answer counts only while its ticket is the latest of its
check.
-/
namespace QueryMarkup

inductive Inquiry where
  | table (name : String)
  | column (table name : String)
  deriving DecidableEq

/-- The answer to an inquiry: accepted, or rejected with a message. -/
inductive Verdict where
  | accepted
  | rejected (message : String)
  deriving DecidableEq

/-- The message of a rejection. -/
def Verdict.message? : Verdict → Option String
  | accepted => none
  | rejected message => some message

/-- What a host does with an inquiry that is put to it. -/
inductive Reception where
  | answered (verdict : Verdict)
  /-- An answer may be given later. -/
  | kept
  /-- No answer will be given. -/
  | dropped
  deriving DecidableEq

/-- The answer that was given at once. -/
def Reception.verdict? : Reception → Option Verdict
  | answered verdict => some verdict
  | kept | dropped => none

/-- The tables that exist, each with its columns. -/
structure Catalogue where
  tables : List (String × List String)

namespace Catalogue

def columns? (catalogue : Catalogue) (table : String) : Option (List String) :=
  (catalogue.tables.find? (·.1 == table)).map (·.2)

/-- A host that looks everything up. A column of a table that is not listed gets no answer. -/
def receive (catalogue : Catalogue) : Inquiry → Reception
  | .table name =>
    match catalogue.columns? name with
    | some _ => .answered .accepted
    | none => .answered (.rejected s!"no table `{name}`")
  | .column table name =>
    match catalogue.columns? table with
    | some columns =>
      .answered <| if columns.contains name then .accepted
        else .rejected s!"no column `{name}` on `{table}`"
    | none => .dropped

end Catalogue

/-- An inquiry that was made, with the check that made it and the check's ticket. -/
structure Request where
  inquiry : Inquiry
  check : Nat
  ticket : Nat
  /-- An answer may still be given. -/
  isOpen : Bool
  deriving DecidableEq

/-- All checks and inquiries of a tree since it was built. Both are known by the
place in their list. -/
structure Desk where
  /-- What the host does with an inquiry when it is put. -/
  host : Inquiry → Reception
  /-- The latest ticket of every check. -/
  tickets : List Nat
  requests : List Request

namespace Desk

/-- The desk of a host to which nothing has been put. -/
def serving (host : Inquiry → Reception) : Desk := ⟨host, [], []⟩

/-- The desk of a catalogue, or else of a host that answers everything later. -/
def new (catalogue : Option Catalogue) : Desk :=
  serving (catalogue.elim (fun _ => .kept) Catalogue.receive)

/-- The latest ticket of a check. -/
def ticket (desk : Desk) (check : Nat) : Nat := desk.tickets[check]?.getD 0

/-- Enters a check that has made no inquiry yet. -/
def register (desk : Desk) : Desk := { desk with tickets := desk.tickets ++ [0] }

/-- Makes all earlier inquiries of a check stale. -/
def renew (desk : Desk) (check : Nat) : Desk :=
  { desk with tickets := desk.tickets.modify check (· + 1) }

/-- Records an inquiry under the latest ticket of its check. It stays open for an
answer if the host keeps it. -/
def send (desk : Desk) (check : Nat) (inquiry : Inquiry) : Desk :=
  { desk with
    requests := desk.requests ++ [⟨inquiry, check, desk.ticket check, desk.host inquiry == .kept⟩] }

def isStale (desk : Desk) (request : Request) : Bool := desk.ticket request.check != request.ticket

/-- The inquiry with this number, if an answer may still be given to it. -/
def openRequest? (desk : Desk) (number : Nat) : Option Request :=
  (desk.requests[number]?).filter (·.isOpen)

/-- Marks an inquiry as answered. -/
def close (desk : Desk) (number : Nat) : Desk :=
  { desk with requests := desk.requests.modify number fun r => { r with isOpen := false } }

end Desk

end QueryMarkup
