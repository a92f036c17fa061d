import QueryMarkup.Reactive.Cell

/-!
A network of integer cells. A change of a cell is delivered to its subscribers
in the order in which they subscribed; a subscriber may write cells, the same
one too, and may end or make subscriptions while the delivery goes on. Those
whom a delivery has reached for stay until it is over, even when their
subscription ends meanwhile.

A write may set off another without end, so writing takes a limit on how deep
writes may stand inside each other and has no result beyond it.
-/
namespace QueryMarkup

/-- What a subscriber does beside noting the value. -/
inductive Action where
  | none
  /-- Writes `value * mul + add` into a cell. -/
  | set (cell : String) (mul add : Int64)
  /-- Lowers the cell itself to `max`. -/
  | clamp (max : Int64)
  /-- Ends a subscription. -/
  | drop (subscription : String)
  /-- Makes a plain subscription, unless there is one of that name. -/
  | subscribe (cell name : String)

/-- What is done with a new value. Cells are known by their places. -/
inductive Callback where
  /-- Notes the value under a label, then acts. -/
  | note (label : String) (source : Nat) (action : Action)
  /-- Keeps a cell at a function of the value. -/
  | derive (target : Nat) (f : Int64 → Int64)
  /-- Keeps a cell at the sum of cells. -/
  | sum (sources : List Nat) (target : Nat)

/-- A cell with the subscriptions that were made to it and not yet cleared away. -/
structure Source where
  cell : Cell Int64
  subscribers : List Nat := []

structure Network where
  cells : List Source := []
  /-- The places of the cells that have a name. -/
  names : List (String × Nat) := []
  /-- What every subscription ever made does. -/
  callbacks : List Callback := []
  /-- The subscriptions that are kept under a name. -/
  held : List (String × Nat) := []
  /-- The subscriptions that are kept together. -/
  bag : List Nat := []
  /-- The subscriptions that deliveries now going on have reached for. -/
  reached : List Nat := []
  /-- What was noted, the earliest first. -/
  log : List String := []

namespace Network

def place? (net : Network) (name : String) : Option Nat := (net.names.find? (·.1 == name)).map (·.2)

def value (net : Network) (place : Nat) : Int64 := ((net.cells[place]?).map (·.cell.value)).getD 0

/-- A subscription is alive while somebody keeps it or a delivery has reached for it. -/
def isAlive (net : Network) (subscription : Nat) : Bool :=
  net.held.any (·.2 == subscription) || net.bag.contains subscription
    || net.reached.contains subscription

def alterCell (net : Network) (place : Nat) (f : Source → Source) : Network :=
  { net with cells := net.cells.modify place f }

/-- Adds a cell under a name, which no longer names another. -/
def addCell (net : Network) (name : String) (value : Int64) : Network :=
  { net with
    cells := net.cells ++ [{ cell := ⟨value, 0⟩ }]
    names := net.names.filter (fun p => p.1 != name) ++ [(name, net.cells.length)] }

/-- Makes a subscription that nobody keeps yet. -/
def register (net : Network) (place : Nat) (callback : Callback) : Network × Nat :=
  let subscription := net.callbacks.length
  ({ net with callbacks := net.callbacks ++ [callback] }.alterCell place
    fun s => { s with subscribers := s.subscribers ++ [subscription] }, subscription)

/-- Ends the subscription with a name. -/
def drop (net : Network) (name : String) : Network :=
  { net with held := net.held.filter fun p => p.1 != name }

/-- Keeps a subscription under a name. The one that had the name ends. -/
def keepAs (net : Network) (name : String) (subscription : Nat) : Network :=
  { net.drop name with held := (net.drop name).held ++ [(name, subscription)] }

def subscribe (net : Network) (cell name : String) (action : Action) : Network :=
  match net.place? cell with
  | none => net
  | some place =>
    let (registered, subscription) := net.register place (.note name place action)
    registered.keepAs name subscription

def note (net : Network) (line : String) : Network := { net with log := net.log ++ [line] }

/-- Clears away the subscriptions to a cell that are no longer alive. -/
def prune (net : Network) (place : Nat) : Network :=
  net.alterCell place fun s => { s with subscribers := s.subscribers.filter net.isAlive }

def sumOf (net : Network) (sources : List Nat) : Int64 :=
  (sources.map net.value).foldl (· + ·) 0

/-- Hands a value to one subscriber, which writes cells with `write`. -/
def deliver (write : Network → Nat → Int64 → Option Network) (net : Network) (value : Int64)
    (subscription : Nat) : Option Network :=
  match net.callbacks[subscription]? with
  | none => some net
  | some (.derive target f) => write net target (f value)
  | some (.sum sources target) =>
    let total := net.sumOf sources
    write (net.note s!"sum:{total.toInt}") target total
  | some (.note label source action) =>
    let noted := net.note s!"{label}:{value.toInt}"
    match action with
    | .none => some noted
    | .set cell mul add =>
      match noted.place? cell with
      | none => some noted
      | some target => write noted target (value * mul + add)
    | .clamp max => if max < value then write noted source max else some noted
    | .drop name => some (noted.drop name)
    | .subscribe cell name =>
      if noted.held.any (·.1 == name) then some noted else some (noted.subscribe cell name .none)

/-- Writes a cell and delivers a change, with writes at most `depth` deep. -/
def write : Nat → Network → Nat → Int64 → Option Network
  | 0, _, _, _ => none
  | depth + 1, net, place, value =>
    if net.value place = value then some net
    else
      let changed := (net.alterCell place fun s => { s with cell := s.cell.set value }).prune place
      let snapshot := ((changed.cells[place]?).map (·.subscribers)).getD []
      let started := { changed with reached := snapshot ++ changed.reached }
      (snapshot.foldlM (fun net s => deliver (write depth) net value s) started).map fun ended =>
        { ended with reached := ended.reached.drop snapshot.length }

/-- Adds a cell that is kept at a function of another, by a subscription of the same name. -/
def derive (net : Network) (cell name : String) (f : Int64 → Int64) : Network :=
  match net.place? cell with
  | none => net
  | some source =>
    let added := net.addCell name (f (net.value source))
    let (registered, subscription) := added.register source (.derive net.cells.length f)
    registered.keepAs name subscription

/-- Keeps a cell at the sum of others, from now on and by subscriptions in the bag. -/
def combine (depth : Nat) (net : Network) (cells : List String) (target : String) : Option Network := do
  let some place := net.place? target | return net
  let sources := cells.filterMap net.place?
  let total := net.sumOf sources
  let written ← write depth (net.note s!"sum:{total.toInt}") place total
  return sources.foldl (fun net source =>
    let (registered, subscription) := net.register source (.sum sources place)
    { registered with bag := registered.bag ++ [subscription] }) written

/-- Moves a subscription from its name into the bag. -/
def hold (net : Network) (name : String) : Network :=
  match net.held.find? (·.1 == name) with
  | none => net
  | some (_, subscription) => { net.drop name with bag := net.bag ++ [subscription] }

/-- Ends all subscriptions in the bag. -/
def dispose (net : Network) : Network := { net with bag := [] }

/-- The subscriptions to a cell, the dead ones not yet cleared away included. -/
def subscriberCount (source : Source) : Nat := source.subscribers.length

def liveSubscriberCount (net : Network) (source : Source) : Nat :=
  (source.subscribers.filter net.isAlive).length

end Network

end QueryMarkup
