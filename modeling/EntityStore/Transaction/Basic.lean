import EntityStore.Store

/-!
# Transactions

A transaction holds the changes of one logical operation until they are written: entities to put,
ids to take away, and for each entity the fields that were recorded as changed. Together they are
its working set.
-/

namespace EntityStore

/-- A transaction and its working set. -/
structure Transaction where
  id : TransactionId
  name : String
  state : Transaction.State
  modified : Index
  deleted : OrderedSet
  /-- The recorded fields, by entity. -/
  deltas : OrderedMap Properties
  /-- What is to be done once a batch is applied, in order of registration. -/
  callbacks : List Callback
  /-- Whether every change is written at once. -/
  autoCommit : Bool
  /-- Whether changes of fields are dropped. -/
  ignoreModifications : Bool
  /-- Whether references are repaired before a batch is written. -/
  ensureIntegrity : Bool
  ensuring : Bool
  /-- The entity whose check hook is running. -/
  checking : Option EntityId

namespace Transaction

def new (id : TransactionId) (name : String) (config : Config) : Transaction :=
  { id := id, name := name, state := .active, modified := .empty, deleted := .empty,
    deltas := .empty, callbacks := [], autoCommit := config.autoCommit,
    ignoreModifications := false, ensureIntegrity := config.ensureIntegrity, ensuring := false,
    checking := none }

def isEmpty (t : Transaction) : Bool := t.modified.isEmpty && t.deleted.isEmpty

def isActive (t : Transaction) : Bool := t.state = .active

/-! ## Recording -/

/-- Puts an entity, all of whose fields count as changed. -/
def recordSnapshot (t : Transaction) (e : Entity) : Transaction :=
  { t with
    modified := t.modified.add e
    deltas := t.deltas.insert e.id e.properties }

/-- Puts an entity, one of whose fields counts as changed besides those already recorded. -/
def recordField (t : Transaction) (e : Entity) (field : String) (value : PropertyValue) :
    Transaction :=
  { t with
    modified := t.modified.add e
    deltas := t.deltas.insert e.id
      (((t.deltas.find? e.id).getD (Properties.forId e.id)).insert field value) }

/-- Takes an id away, and forgets what was recorded for it. -/
def recordDeletion (t : Transaction) (id : EntityId) : Transaction :=
  { t with
    modified := t.modified.remove id
    deleted := t.deleted.add id
    deltas := t.deltas.erase id }

def clearPending (t : Transaction) : Transaction :=
  { t with modified := .empty, deleted := .empty, deltas := .empty }

/-! ## What is written and published -/

def batch (t : Transaction) : Batch :=
  { transaction := t.id, modified := t.modified.toList, deleted := t.deleted, deltas := t.deltas }

/-- What is published of an entity to put: its recorded fields, or all if none were recorded, under
its true tag and id. -/
def update (t : Transaction) (e : Entity) : Properties :=
  (((t.deltas.find? e.id).getD e.properties).withType e.tag).withId e.id

/-- The working set as a change set. The feed gives it its number. -/
def changeSet (t : Transaction) : ChangeSet :=
  { sequence := ⟨0⟩, transaction := t.id, name := t.name,
    updates := OrderedMap.ofList (t.modified.toList.map fun e => (e.id, t.update e)),
    deleted := t.deleted }

/-! ## The signature of the working set -/

def fieldSignature (field : String × PropertyValue) : String :=
  "\x00" ++ field.1 ++
    match field.2 with
    | some value => "\x01" ++ value
    | none => "\x02"

/-- A text that tells working sets apart: the ids to put, the ids to take away and the recorded
fields, each introduced by a letter and closed by a null character. -/
def signature (t : Transaction) : String :=
  String.join ((sortTexts t.modified.ids).map fun id => "m" ++ id ++ "\x00") ++
    String.join (t.deleted.keys.map fun id => "d" ++ id ++ "\x00") ++
    String.join (t.deltas.entries.map fun d =>
      "p" ++ d.1 ++ String.join (d.2.entries.map fieldSignature) ++ "\x00")

/-! ## Texts -/

/-- How many ids are listed before only their number is given. -/
def listedIds : Nat := 7

def showIds (label : String) (ids : List EntityId) : String :=
  if ids.isEmpty then ""
  else if ids.length > listedIds then s!" {label}: {ids.length} entities"
  else " " ++ label ++ ": [" ++ ", ".intercalate ids ++ "]"

instance : ToString Transaction where
  toString t :=
    s!"Transaction '{t.name}' ({t.id}, {t.state.name})" ++ showIds "modified" t.modified.ids ++
      showIds "deleted" t.deleted.keys

def describe (t : Transaction) : String :=
  let modified := ", ".intercalate (t.modified.ids.map showEntityId)
  let deleted := ", ".intercalate (t.deleted.keys.map showEntityId)
  s!"Transaction \x7b id: {t.id.describe}, name: {Text.quote t.name}, " ++
    s!"state: {t.state.describe}, modified: [{modified}], deleted: \x7b" ++ deleted ++
    s!"\x7d, auto_commit: {t.autoCommit}, .. \x7d"

def info (t : Transaction) : TransactionInfo :=
  { id := t.id, name := t.name, isActive := t.isActive, autoCommit := t.autoCommit,
    ignoreModifications := t.ignoreModifications, ensureIntegrity := t.ensureIntegrity,
    ensuring := t.ensuring }

end Transaction

/-- A unit of work: a transaction together with the store that it is open on. -/
structure Work where
  store : Store
  txn : Transaction

namespace Work

def onStore (w : Work) (change : Store → Store) : Work := { w with store := change w.store }

def onTxn (w : Work) (change : Transaction → Transaction) : Work := { w with txn := change w.txn }

def count (w : Work) (counter : Statistics → Statistics) : Work := w.onStore (·.count counter)

end Work

namespace Store

/-- Begins a transaction under the next number. -/
def begin (s : Store) (name : String) : Work :=
  let id : TransactionId := ⟨s.begun + 1⟩
  { store :=
      ({ s with begun := s.begun + 1 }.onBackend (·.noteStarted id)).count Statistics.countStart
    txn := Transaction.new id name s.config }

end Store

end EntityStore
