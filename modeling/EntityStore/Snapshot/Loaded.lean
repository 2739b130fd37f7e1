import EntityStore.Hook.Repair
import EntityStore.Snapshot.Basic

/-!
# Loading snapshots

A store is made from a snapshot by receiving its property maps as records. Types that the schema
does not mention have no reference fields. The store can be turned back into a snapshot, and its
dangling references can be listed.
-/

namespace EntityStore

/-- A reference of a record to an entity that is not there. -/
structure DanglingReference where
  record : EntityId
  type : TypeTag
  field : String
  target : EntityId
  policy : DanglingPolicy
  deriving DecidableEq

namespace DanglingReference

def toJson (d : DanglingReference) : Json :=
  Json.ofMembers
    [("record", Json.ofString d.record), ("entity_type", Json.ofString d.type),
     ("field", Json.ofString d.field), ("target", Json.ofString d.target),
     ("policy", Json.ofString d.policy.name)]

/-- Whether a dangling reference comes before another or is level with it: by record, then by
field. -/
def notAfter (a b : DanglingReference) : Bool :=
  a.record < b.record || (a.record = b.record && decide (a.field ≤ b.field))

end DanglingReference

namespace Properties

/-- Whether a label comes before another. Where one is missing, that comes first. -/
def labelBefore : Option String → Option String → Bool
  | some a, some b => a < b
  | none, some _ => true
  | _, none => false

/-- Whether a map comes before another or is level with it: by type, then by id. -/
def notAfter (p q : Properties) : Bool :=
  labelBefore p.typeTag? q.typeTag? ||
    (p.typeTag? = q.typeTag? && !labelBefore q.id? p.id?)

end Properties

structure LoadedStore where
  store : Store
  /-- All types that occur, those that the snapshot's schema lacks included. -/
  types : Schema
  /-- The schema of the snapshot. -/
  schema : Schema

namespace Snapshot

/-- The types of a snapshot: those of its schema and the tags of its entities. -/
def types (s : Snapshot) : Schema :=
  s.schema.internAll (s.entities.filterMap Properties.typeTag?)

def load (s : Snapshot) (config : Config) : Result LoadedStore :=
  let (result, memory) := (Memory.ofEntities []).receive (Registry.ofSchema s.types) s.entities
  match result with
  | .error err => .error err
  | .ok _ => .ok ⟨Store.new config ⟨memory, .plain⟩, s.types, s.schema⟩

end Snapshot

namespace LoadedStore

def table (l : LoadedStore) : Index := l.store.backend.table

def counts (l : LoadedStore) : OrderedMap Nat := l.table.counts

def danglingOf (table : Index) (e : Entity) : List DanglingReference :=
  (e.danglingFields table.contains).map fun d => ⟨e.id, e.tag, d.1, d.2.1, d.2.2⟩

/-- The dangling references of a table, by record and field. -/
def danglingIn (table : Index) : List DanglingReference :=
  sortBy DanglingReference.notAfter (table.toList.flatMap (danglingOf table))

def dangling (l : LoadedStore) : List DanglingReference := danglingIn l.table

/-- The entities by type and then by id, as a snapshot under the schema from which they were
loaded. -/
def toSnapshot (l : LoadedStore) : Snapshot :=
  ⟨l.schema, sortBy Properties.notAfter (l.table.toList.map Entity.properties)⟩

def withStore (l : LoadedStore) (store : Store) : LoadedStore := { l with store := store }

end LoadedStore

end EntityStore
