import EntityStore.Index.Basic
import EntityStore.Registry
import EntityStore.Sorting

/-!
# Backends

The committed side of a store. A backend holds the committed entities, answers lookups, and applies
a batch of changes as a whole or rejects it and changes no entity. It keeps a log, in the order of
events, of the batches that it was offered and of the transactions that it was told about. Some
backends show their log, and some decide on each batch whether to accept it.
-/

namespace EntityStore

/-- The changes of one write: entities to put, ids to take away, and the recorded fields. -/
structure Batch where
  transaction : TransactionId
  modified : List Entity
  deleted : OrderedSet
  deltas : OrderedMap Properties
  deriving DecidableEq

namespace Batch

def isEmpty (b : Batch) : Bool := b.modified.isEmpty && b.deleted.isEmpty

def size (b : Batch) : Nat := b.modified.length + b.deleted.size

def modifiedIds (b : Batch) : List EntityId := sortTexts (b.modified.map (·.id))

end Batch

inductive LogEntry where
  | started (transaction : TransactionId)
  | applied (batch : Batch)
  | rejected (batch : Batch)
  | finished (transaction : TransactionId)
  deriving DecidableEq

namespace LogEntry

def transaction : LogEntry → TransactionId
  | started t | finished t => t
  | applied b | rejected b => b.transaction

def applied? : LogEntry → Option Batch
  | applied b => some b
  | _ => none

def finished? : LogEntry → Option TransactionId
  | finished t => some t
  | _ => none

end LogEntry

/-- The committed entities in memory, with what is known about the transactions at work on them. -/
structure Memory where
  table : Index
  /-- The transactions that have begun and not ended, in the order in which they began. -/
  active : List TransactionId
  /-- What has happened, oldest first. -/
  log : List LogEntry
  announced : Nat
  /-- Whether a change was announced since the mark was last taken. -/
  dirty : Bool

namespace Memory

/-- A memory that holds the given entities. Of two with one id the later stays. -/
def ofEntities (entities : List Entity) : Memory :=
  { table := Index.ofList entities, active := [], log := [], announced := 0, dirty := false }

def note (m : Memory) (entry : LogEntry) : Memory := { m with log := m.log ++ [entry] }

def applied (m : Memory) : List Batch := m.log.filterMap LogEntry.applied?

def finished (m : Memory) : List TransactionId := m.log.filterMap LogEntry.finished?

def batchesApplied (m : Memory) : Nat := m.applied.length

/-- Applies a batch: the deletions first, then the entities in order. -/
def apply (m : Memory) (b : Batch) : Memory :=
  { m with table := (m.table.removeAll b.deleted.keys).addAll b.modified }.note (.applied b)

/-- The entity that a received snapshot stands for. An entity that is held under the snapshot's id
and type is brought up to date; otherwise the registry makes a new one. -/
def receiveOne (m : Memory) (registry : Registry) (snapshot : Properties) : Result Entity :=
  match snapshot.id? with
  | none => .error (.invalidProperty Properties.idKey "missing id")
  | some id =>
    match (m.table.find? id).filter fun e => some e.tag = snapshot.typeTag? with
    | some held => held.updated snapshot
    | none => registry.materialize snapshot

/-- Takes in snapshots from elsewhere, all or none, and tells how many. -/
def receive (m : Memory) (registry : Registry) (snapshots : List Properties) :
    Result Nat × Memory :=
  match snapshots.mapM (m.receiveOne registry) with
  | .error err => (.error err, m)
  | .ok received => (.ok received.length, { m with table := m.table.addAll received })

/-- Takes in deletions from elsewhere, and tells how many ids were there. -/
def receiveDeletions (m : Memory) : List EntityId → Nat × Memory
  | [] => (0, m)
  | id :: rest =>
    let found := if m.table.contains id then 1 else 0
    let (count, m) := receiveDeletions { m with table := m.table.remove id } rest
    (found + count, m)

end Memory

/-- What a backend does besides holding entities. -/
inductive Instrument where
  | plain
  /-- It shows its log. -/
  | recorder
  /-- It rejects a batch for which the verdict gives an error. The verdict knows how many batches
  were offered before. -/
  | gate (verdict : Nat → Batch → Option StoreError) (offered rejected : Nat)

/-- The committed side of a store. -/
structure Backend where
  memory : Memory
  instrument : Instrument

namespace Backend

def plain (entities : List Entity) : Backend := ⟨Memory.ofEntities entities, .plain⟩

def recording (entities : List Entity) : Backend := ⟨Memory.ofEntities entities, .recorder⟩

/-- A backend that accepts a batch unless a verdict rejects it. -/
def gated (verdict : Nat → Batch → Option StoreError) (entities : List Entity) : Backend :=
  ⟨Memory.ofEntities entities, .gate verdict 0 0⟩

def rejectFirst (failures offered : Nat) (b : Batch) : Option StoreError :=
  if offered < failures then
    some (.backend s!"injected failure for {b.transaction} ({b.size} changes)")
  else none

/-- A backend that rejects the first batches and then accepts all. -/
def failing (failures : Nat) (entities : List Entity) : Backend :=
  gated (rejectFirst failures) entities

def table (b : Backend) : Index := b.memory.table

def get (b : Backend) (id : EntityId) : Result Entity := b.table.get id

def contains (b : Backend) (id : EntityId) : Bool := b.table.contains id

def findAll (b : Backend) (q : Query) : List Entity := b.table.findAll q

def findFirst? (b : Backend) (q : Query) : Option Entity := b.table.findFirst? q

def size (b : Backend) : Nat := b.table.size

def onMemory (change : Memory → Memory) (b : Backend) : Backend :=
  { b with memory := change b.memory }

/-- Applies a batch as a whole, or rejects it and leaves the committed entities alone. -/
def update (b : Backend) (batch : Batch) : Result Unit × Backend :=
  match b.instrument with
  | .plain | .recorder => (.ok (), b.onMemory (·.apply batch))
  | .gate verdict offered rejected =>
    match verdict offered batch with
    | some err =>
      (.error err, ⟨b.memory.note (.rejected batch), .gate verdict (offered + 1) (rejected + 1)⟩)
    | none => (.ok (), ⟨b.memory.apply batch, .gate verdict (offered + 1) rejected⟩)

def noteModification (b : Backend) : Backend :=
  b.onMemory fun m => { m with announced := m.announced + 1, dirty := true }

/-- Takes note that a transaction has begun. Its number is above all before it. -/
def noteStarted (b : Backend) (id : TransactionId) : Backend :=
  b.onMemory fun m => { m with active := m.active ++ [id] }.note (.started id)

def noteFinished (b : Backend) (id : TransactionId) : Backend :=
  b.onMemory fun m => { m with active := m.active.filter (· ≠ id) }.note (.finished id)

end Backend

end EntityStore
