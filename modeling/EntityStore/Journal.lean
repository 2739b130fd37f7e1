import EntityStore.Backend
import EntityStore.Config
import EntityStore.Statistics
import EntityStore.Transaction.State

/-!
# Replies and notes

What a client is told in reply to a step, and what the journal of a store takes down while hooks and
callbacks run.
-/

namespace EntityStore

/-- The two occasions on which an entity is asked to act. -/
inductive Hook where
  | check
  | delete
  deriving DecidableEq, Repr

def Hook.name : Hook → String
  | check => "check"
  | delete => "delete"

structure TransactionInfo where
  id : TransactionId
  name : String
  isActive : Bool
  autoCommit : Bool
  ignoreModifications : Bool
  ensureIntegrity : Bool
  ensuring : Bool
  deriving DecidableEq

/-- What an entity sees when it looks around in a transaction. -/
structure Sighting where
  contains : Bool
  found : Result Entity
  ensuring : Bool
  state : Transaction.State
  modified : List EntityId
  deleted : List EntityId
  deriving DecidableEq

structure FeedInfo where
  latest : SequenceNumber
  history : Nat
  subscribers : Nat
  deriving DecidableEq

structure BackendInfo where
  size : Nat
  counts : OrderedMap Nat
  batchesApplied : Nat
  deriving DecidableEq

structure BackendLog where
  batches : List Batch
  finished : List TransactionId
  announced : Nat
  deriving DecidableEq

/-- What came of a batch that was handed to the backend. -/
structure UpdateReport where
  size : Nat
  isEmpty : Bool
  result : Result Unit
  deriving DecidableEq

inductive Reply where
  | nothing
  | flag (value : Bool)
  | count (value : Nat)
  | text (value : String)
  | entity (e : Entity)
  | entities (es : List Entity)
  | maybeEntity (e : Option Entity)
  | delta (properties : Option Properties)
  | transaction (info : TransactionInfo)
  | transactions (ids : List TransactionId)
  | changes (changes : List ChangeSet)
  | maybeChanges (changes : Option (List ChangeSet))
  | feed (info : FeedInfo)
  | statistics (counters : Statistics)
  | backend (info : BackendInfo)
  | update (report : UpdateReport)
  | log (log : BackendLog)
  | rejections (count : Nat)
  | each (replies : List Reply)

/-- What a hook leaves in the journal. -/
inductive Remark where
  | began (hook : Hook) (id : EntityId)
  /-- The outcome of an action whose error was not passed on. -/
  | outcome (result : Result Unit)
  | sighting (sighting : Sighting)
  | found (entities : List Entity)

inductive Note where
  | remark (remark : Remark)
  /-- A callback ran, with so many entities committed and so many written up to then. -/
  | callback (tag : String) (size written : Nat)
  | replies (result : Result (List Reply))
  /-- A batch was applied on behalf of nobody. -/
  | applied

end EntityStore
