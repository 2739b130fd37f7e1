import EntityStore.Session.Step

/-!
# Sessions

A session is a store with the transactions that its clients hold open and their subscriptions, each
under a name. Commands either concern one transaction, or the store as a whole.
-/

namespace EntityStore

/-- A store in use. -/
structure Session where
  store : Store
  transactions : OrderedMap Transaction
  listeners : Listeners

inductive Command where
  /-- Begins a transaction and holds it under a key. One held there before is dropped. -/
  | begin (key name : String)
  | drop (key : String)
  | take (key : String) (step : Step)
  /-- Takes steps in a transaction of their own. -/
  | within (name : String) (steps : List Step)
  | subscribe (listener : String)
  | unsubscribe (listener : String)
  | drain (listener : String)
  | poll (cursor : SequenceNumber) (limit : Nat)
  | feed
  | statistics
  | active
  | isDirty
  | takeDirty
  | describe
  | backend
  | backendGet (id : EntityId)
  | backendContains (id : EntityId)
  | backendFindAll (query : Query)
  | backendFindFirst (query : Query)
  | receive (snapshots : List Properties)
  | receiveDeletions (ids : List EntityId)
  /-- Hands a batch to the backend, past all transactions. -/
  | update (transaction : TransactionId) (modified : List Properties) (deleted : List EntityId)
  | recorded

inductive Answer where
  | reply (value : Reply)
  | failure (err : StoreError)
  | noTransaction (key : String)

namespace Answer

def ofResult : Result Reply → Answer
  | .ok value => reply value
  | .error err => failure err

end Answer

namespace Session

def start (store : Store) : Session :=
  { store := store, transactions := .empty, listeners := .empty }

def onStore (s : Session) (change : Store → Store) : Session := { s with store := change s.store }

def onMemory (s : Session) (change : Memory → Memory) : Session :=
  s.onStore (·.onBackend (·.onMemory change))

def dropTransaction (s : Session) (t : Transaction) : Session :=
  s.onStore fun store => Work.drop ⟨store, t⟩

/-- Begins a transaction and holds it under a key. The one held there before is dropped after the
new one has begun. -/
def begin (s : Session) (key name : String) : Session :=
  let w := s.store.begin name
  let begun := { s with store := w.store, transactions := s.transactions.insert key w.txn }
  match s.transactions.find? key with
  | none => begun
  | some old => begun.dropTransaction old

def drop (s : Session) (key : String) : Bool × Session :=
  match s.transactions.find? key with
  | none => (false, s)
  | some t => (true, { s with transactions := s.transactions.erase key }.dropTransaction t)

def take (setting : Setting) (s : Session) (key : String) (step : Step) : Answer × Session :=
  match s.transactions.find? key with
  | none => (.noTransaction key, s)
  | some t =>
    let (result, w) := step.take setting ⟨s.store, t⟩
    (.ofResult result,
      { s with store := w.store, transactions := s.transactions.insert key w.txn })

/-- Hands a batch to the backend. The journal notes if it was applied. -/
def update (setting : Setting) (s : Session) (transaction : TransactionId)
    (modified : List Properties) (deleted : List EntityId) : Answer × Session :=
  match setting.registry.materializeAll modified with
  | .error err => (.failure err, s)
  | .ok entities =>
    let batch : Batch := ⟨transaction, entities, OrderedMap.setOf deleted, .empty⟩
    let (result, backend) := s.store.backend.update batch
    let updated := s.onStore (·.onBackend fun _ => backend)
    let noted := match result with
      | .ok () => updated.onStore (·.note .applied)
      | .error _ => updated
    (.reply (.update ⟨batch.size, batch.isEmpty, result⟩), noted)

def recorded (b : Backend) : Reply :=
  match b.instrument with
  | .plain => .nothing
  | .recorder => .log ⟨b.memory.applied, b.memory.finished, b.memory.announced⟩
  | .gate _ _ rejected => .rejections rejected

def execute (setting : Setting) (s : Session) : Command → Answer × Session
  | .begin key name => (.reply .nothing, s.begin key name)
  | .drop key =>
    let (held, s) := s.drop key
    (.reply (.flag held), s)
  | .take key step => s.take setting key step
  | .within name steps =>
    let (result, store) := s.store.within setting.run name (Step.takeAll setting steps)
    (.ofResult (result.map .each), { s with store := store })
  | .subscribe listener =>
    let (listeners, feed) := s.listeners.subscribe listener s.store.feed
    (.reply .nothing, { s with listeners := listeners }.onStore ({ · with feed := feed }))
  | .unsubscribe listener =>
    let (held, listeners, feed) := s.listeners.unsubscribe listener s.store.feed
    (.reply (.flag held), { s with listeners := listeners }.onStore ({ · with feed := feed }))
  | .drain listener =>
    let (received, feed) := s.listeners.drain listener s.store.feed
    (.reply (.maybeChanges received), s.onStore ({ · with feed := feed }))
  | .poll cursor limit => (.reply (.changes (s.store.feed.poll cursor limit)), s)
  | .feed =>
    let feed := s.store.feed
    (.reply (.feed ⟨feed.latest, feed.history.length, feed.subscriberCount⟩), s)
  | .statistics => (.reply (.statistics s.store.statistics), s)
  | .active => (.reply (.transactions s.store.backend.memory.active), s)
  | .isDirty => (.reply (.flag s.store.backend.memory.dirty), s)
  | .takeDirty =>
    (.reply (.flag s.store.backend.memory.dirty), s.onMemory ({ · with dirty := false }))
  | .describe => (.reply (.text s.store.describe), s)
  | .backend =>
    let b := s.store.backend
    (.reply (.backend ⟨b.size, b.table.counts, b.memory.batchesApplied⟩), s)
  | .backendGet id => (.ofResult ((s.store.backend.get id).map .entity), s)
  | .backendContains id => (.reply (.flag (s.store.backend.contains id)), s)
  | .backendFindAll query => (.reply (.entities (s.store.backend.findAll query)), s)
  | .backendFindFirst query => (.reply (.maybeEntity (s.store.backend.findFirst? query)), s)
  | .receive snapshots =>
    let (result, memory) := s.store.backend.memory.receive setting.registry snapshots
    (.ofResult (result.map .count), s.onMemory fun _ => memory)
  | .receiveDeletions ids =>
    let (count, memory) := s.store.backend.memory.receiveDeletions ids
    (.reply (.count count), s.onMemory fun _ => memory)
  | .update transaction modified deleted => s.update setting transaction modified deleted
  | .recorded => (.reply (recorded s.store.backend), s)

def takeJournal (s : Session) : List Note × Session :=
  (s.store.journal, s.onStore ({ · with journal := [] }))

def run (setting : Setting) (s : Session) (commands : List Command) : Session :=
  commands.foldl (fun s c => (s.execute setting c).2) s

end Session

end EntityStore
