import EntityStore.Transaction.Basic

/-!
# Reading in a transaction

A transaction sees the committed entities through its working set: what it puts stands in front of
what is committed, and what it takes away is hidden.
-/

namespace EntityStore

namespace Query

/-- The query without the entities whose ids are hidden. Its test can no longer be skipped. -/
def without (hidden : EntityId → Bool) (q : Query) : Query :=
  { q with matchesAll := false, test := fun e => !hidden e.id && q.test e }

end Query

namespace Work

/-- Whether an id stands for an entity. The one that is being checked does. -/
def contains (w : Work) (id : EntityId) : Bool :=
  !w.txn.deleted.contains id &&
    (w.txn.checking == some id || w.txn.modified.contains id || w.store.backend.contains id)

/-- The entity with an id, as the working set or else the backend has it. -/
def get (w : Work) (id : EntityId) : Result Entity :=
  if w.txn.deleted.contains id then .error (.entityDoesNotExist id)
  else
    match w.txn.modified.find? id with
    | some e => .ok e
    | none => w.store.backend.get id

def getAll (w : Work) (ids : List EntityId) : Result (List Entity) := ids.mapM w.get

/-- The entities that an entity refers to, as far as they are there. -/
def referenced (w : Work) (e : Entity) : List Entity :=
  e.references.filterMap fun id => (w.get id).toOption

def ownQuery (w : Work) (q : Query) : Query := q.without w.txn.deleted.contains

/-- A query as it is put to the backend, whose entities may be deleted or replaced. -/
def committedQuery (w : Work) (q : Query) : Query :=
  q.without fun id => w.txn.deleted.contains id || w.txn.modified.contains id

/-- The visible entities that a query picks: those of the working set, then the committed ones. -/
def matching (w : Work) (q : Query) : List Entity :=
  w.txn.modified.findAll (w.ownQuery q) ++ w.store.backend.findAll (w.committedQuery q)

def firstMatching? (w : Work) (q : Query) : Option Entity :=
  (w.txn.modified.findFirst? (w.ownQuery q)).or
    (w.store.backend.findFirst? (w.committedQuery q))

/-- Answers a query with every entity that it picks, and counts it. -/
def findAll (w : Work) (q : Query) : List Entity × Work :=
  (w.matching q, w.count Statistics.countQuery)

def findFirst (w : Work) (q : Query) : Option Entity × Work :=
  (w.firstMatching? q, w.count Statistics.countQuery)

def findAllOf (w : Work) (kind : Kind) (test : Entity → Bool) : List Entity × Work :=
  let (found, w) := w.findAll (Query.ofKind kind test)
  (found.filterMap fun e => (e.expect kind).toOption, w)

end Work

end EntityStore
