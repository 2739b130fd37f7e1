import EntityStore.Index.Partitions

/-!
# Indexes of entities

A set of entities, at most one for an id, kept in partitions by type and within a partition by id.
Listing an index goes through the types in order and within a type through the ids in order. A query
skips the partitions whose type it does not admit, and its test where it declares that all match.
-/

namespace EntityStore

/-- A set of entities with at most one for an id, partitioned by type. -/
structure Index where
  partitions : Partitions
  wellFormed : partitions.WellFormed

namespace Index

def empty : Index := ⟨OrderedMap.empty, .empty⟩

instance : EmptyCollection Index := ⟨empty⟩
instance : Inhabited Index := ⟨empty⟩

/-- The index with an entity, which replaces the one with its id, of whatever type that was. -/
def add (ix : Index) (e : Entity) : Index :=
  ⟨(ix.partitions.makeRoom e).place e,
    (ix.wellFormed.makeRoom e).place (Partitions.eq_tag_of_makeRoom ix.wellFormed)⟩

def addAll (ix : Index) (entities : List Entity) : Index := entities.foldl add ix

/-- The index of a list of entities. Of two with one id the later stays. -/
def ofList (entities : List Entity) : Index := empty.addAll entities

def remove (ix : Index) (id : EntityId) : Index :=
  ⟨ix.partitions.remove id, ix.wellFormed.remove id⟩

/-- The entity under an id, if there is one, and the index without it. -/
def take (ix : Index) (id : EntityId) : Option Entity × Index :=
  (ix.partitions.removed? id, ix.remove id)

def removeAll (ix : Index) (ids : List EntityId) : Index := ids.foldl remove ix

def find? (ix : Index) (id : EntityId) : Option Entity :=
  ix.partitions.values.findSome? fun part => part.find? id

def contains (ix : Index) (id : EntityId) : Bool :=
  ix.partitions.values.any fun part => part.contains id

def get (ix : Index) (id : EntityId) : Result Entity :=
  match ix.find? id with
  | some e => .ok e
  | none => .error (.entityDoesNotExist id)

/-- Goes through ids up to the first that is missing: the entities found and the error, if any. -/
def getEach (ix : Index) : List EntityId → List Entity × Result Unit
  | [] => ([], .ok ())
  | id :: rest =>
    match ix.get id with
    | .error err => ([], .error err)
    | .ok e =>
      let (found, result) := getEach ix rest
      (e :: found, result)

def getAll (ix : Index) (ids : List EntityId) : Result (List Entity) := ids.mapM ix.get

def getMap (ix : Index) (ids : List EntityId) : Result (OrderedMap Entity) :=
  (ix.getAll ids).map fun found => OrderedMap.ofList (found.map fun e => (e.id, e))

/-- The entities, by type and then by id. -/
def toList (ix : Index) : List Entity := ix.partitions.values.flatMap OrderedMap.values

/-- All entities taken out, and the index that is left. -/
def drain (ix : Index) : List Entity × Index := (ix.toList, empty)

def clear (_ : Index) : Index := empty

def ids (ix : Index) : List EntityId := ix.partitions.values.flatMap OrderedMap.keys

def size (ix : Index) : Nat := ix.partitions.values.foldr (fun part n => part.size + n) 0

def isEmpty (ix : Index) : Bool := ix.partitions.values.all OrderedMap.isEmpty

def counts (ix : Index) : OrderedMap Nat := ix.partitions.mapEntries fun _ part => part.size

/-- What a query picks from a partition whose type it admits. -/
def pick (q : Query) (part : OrderedMap Entity) : List Entity :=
  if q.matchesAll then part.values else part.values.filter q.test

/-- Appends all that a query finds to what was found elsewhere. -/
def findAllInto (ix : Index) (q : Query) (found : List Entity) : List Entity :=
  ix.partitions.entries.foldl
    (fun found p => if q.admits p.1 then found ++ pick q p.2 else found) found

def findAll (ix : Index) (q : Query) : List Entity := ix.findAllInto q []

def findFirst? (ix : Index) (q : Query) : Option Entity :=
  ((ix.partitions.entries.filter fun p => q.admits p.1).flatMap fun p => p.2.values).find?
    fun e => q.matchesAll || q.test e

/-- The index with the entity under an id changed where it stands. -/
def edit (ix : Index) (id : EntityId) (change : Entity.Edit) : Index :=
  ⟨ix.partitions.edit id change, ix.wellFormed.edit id change⟩

/-- The entity under an id updated from a property map in its place, as far as the map can be read,
and whether it could be. -/
def update (ix : Index) (id : EntityId) (change : Entity → Properties) : Result Entity × Index :=
  match ix.get id with
  | .error err => (.error err, ix)
  | .ok e => (e.updated (change e), ix.edit id (.reading change))

end Index

end EntityStore
