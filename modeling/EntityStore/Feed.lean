import EntityStore.Properties

/-!
# The change feed

Every batch that a store applies is published as a change set. The feed numbers change sets from
one, keeps the last of them for those who poll, and hands each to everyone who has subscribed. A
subscription that its holder has closed is dropped at the next publication.
-/

namespace EntityStore

/-- One applied batch as others see it: the changed fields of each written entity and the ids that
are gone. -/
structure ChangeSet where
  sequence : SequenceNumber
  transaction : TransactionId
  name : String
  updates : OrderedMap Properties
  deleted : OrderedSet
  deriving DecidableEq

namespace ChangeSet

def isEmpty (c : ChangeSet) : Bool := c.updates.isEmpty && c.deleted.isEmpty

def toJson (c : ChangeSet) : Json :=
  Json.ofMembers
    [("sequence", Json.ofNat c.sequence.number),
     ("transaction", Json.ofNat c.transaction.number),
     ("name", Json.ofString c.name),
     ("updates", Json.ofMembers (c.updates.entries.map fun u => (u.1, u.2.toJson))),
     ("deleted", .array (c.deleted.keys.map Json.ofString))]

end ChangeSet

/-- A place where change sets arrive, in order, until they are taken. -/
structure Subscription where
  number : Nat
  isOpen : Bool
  received : List ChangeSet
  deriving DecidableEq

namespace Subscription

def deliver (c : ChangeSet) (s : Subscription) : Subscription :=
  { s with received := s.received ++ [c] }

end Subscription

structure Feed where
  /-- How many change sets are kept for polling. -/
  maxHistory : Nat
  latest : SequenceNumber
  /-- The change sets kept for polling, oldest first. -/
  history : List ChangeSet
  /-- The subscriptions that have not been dropped, oldest first. -/
  subscriptions : List Subscription
  /-- How many subscriptions there have ever been. -/
  subscribed : Nat
  deriving DecidableEq

namespace Feed

def defaultHistory : Nat := 10000

def new (maxHistory : Nat) : Feed :=
  { maxHistory := maxHistory, latest := ⟨0⟩, history := [], subscriptions := [], subscribed := 0 }

/-- Opens a subscription, which receives what is published from now on. -/
def subscribe (f : Feed) : Nat × Feed :=
  (f.subscribed,
    { f with
      subscriptions := f.subscriptions ++ [⟨f.subscribed, true, []⟩]
      subscribed := f.subscribed + 1 })

/-- Closes a subscription. It still counts until the next publication. -/
def close (f : Feed) (number : Nat) : Feed :=
  { f with
    subscriptions := f.subscriptions.map fun s =>
      if s.number = number then { s with isOpen := false, received := [] } else s }

def drain (f : Feed) (number : Nat) : List ChangeSet × Feed :=
  ((f.subscriptions.filter fun s => s.number = number).flatMap (·.received),
    { f with
      subscriptions := f.subscriptions.map fun s =>
        if s.number = number then { s with received := [] } else s })

def keepLast (limit : Nat) (changes : List ChangeSet) : List ChangeSet :=
  changes.drop (changes.length - limit)

/-- Publishes a change set under the next number: it is handed to every open subscription and joins
the history, whose oldest change sets make room. -/
def emit (f : Feed) (change : ChangeSet) : SequenceNumber × Feed :=
  let change := { change with sequence := f.latest.next }
  (change.sequence,
    { f with
      latest := change.sequence
      history := keepLast f.maxHistory (f.history ++ [change])
      subscriptions := (f.subscriptions.filter (·.isOpen)).map (·.deliver change) })

/-- The first change sets of the history after a place, at most as many as asked for. -/
def poll (f : Feed) (cursor : SequenceNumber) (limit : Nat) : List ChangeSet :=
  (f.history.filter fun c => cursor.number < c.sequence.number).take limit

def subscriberCount (f : Feed) : Nat := f.subscriptions.length

def describe (f : Feed) : String :=
  StoreError.showFields "ChangeFeed"
    [("subscribers", toString f.subscriberCount), ("history", toString f.history.length),
     ("max_history", toString f.maxHistory)]

end Feed

/-- Subscriptions under names of their holder's choice. -/
abbrev Listeners := OrderedMap Nat

namespace Listeners

/-- Subscribes under a name. The subscription that had the name is closed. -/
def subscribe (l : Listeners) (name : String) (f : Feed) : Listeners × Feed :=
  let (number, opened) := f.subscribe
  let feed := match l.find? name with
    | none => opened
    | some old => opened.close old
  (l.insert name number, feed)

def unsubscribe (l : Listeners) (name : String) (f : Feed) : Bool × Listeners × Feed :=
  match l.find? name with
  | none => (false, l, f)
  | some number => (true, l.erase name, f.close number)

def drain (l : Listeners) (name : String) (f : Feed) : Option (List ChangeSet) × Feed :=
  match l.find? name with
  | none => (none, f)
  | some number =>
    let (received, f) := f.drain number
    (some received, f)

end Listeners

end EntityStore
