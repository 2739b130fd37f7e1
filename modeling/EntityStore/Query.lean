import EntityStore.Entity

/-!
# Queries

A query picks entities by their type and by a test. A query may declare that it takes every entity
of the types that it admits; whoever answers it may then skip the test.
-/

namespace EntityStore

/-- A choice of entities. -/
structure Query where
  /-- The type that the query is about, if it is about one. -/
  declared : Option TypeTag
  /-- Whether entities of a type can match at all. -/
  admits : TypeTag → Bool
  /-- Whether the test may be skipped for the types that are admitted. -/
  matchesAll : Bool
  test : Entity → Bool

namespace Query

def picks (q : Query) (e : Entity) : Bool := q.admits e.tag && q.test e

def filter (q : Query) (entities : List Entity) : List Entity := entities.filter q.picks

/-- The types that a query with a declared type admits: that one, or all if none is declared. -/
def admitsDeclared (declared : Option TypeTag) (tag : TypeTag) : Bool :=
  match declared with
  | none => true
  | some d => d = tag

def ofType (tag : TypeTag) : Query :=
  { declared := some tag, admits := admitsDeclared (some tag), matchesAll := true,
    test := fun _ => true }

def passing (declared : Option TypeTag) (test : Entity → Bool) : Query :=
  { declared := declared, admits := admitsDeclared declared, matchesAll := false, test := test }

/-- The entities of a kind that pass a test. A record is of no kind. -/
def ofKind (kind : Kind) (test : Entity → Bool) : Query :=
  passing (some kind.tag) fun e => e.body.kind? = some kind && test e

/-- The entities other than the target that refer to it. -/
def referringTo (target : EntityId) : Query :=
  passing none fun e => e.id ≠ target && e.references.contains target

/-- The entities of some types that pass a test, which may be declared void. -/
def amongTypes (tags : List TypeTag) (matchesAll : Bool) (test : Entity → Bool) : Query :=
  { declared := none, admits := tags.contains, matchesAll := matchesAll, test := test }

/-- Whether the declaration that the test may be skipped is true. -/
def Honest (q : Query) : Prop :=
  q.matchesAll = true → ∀ e : Entity, q.admits e.tag = true → q.test e = true

end Query

/-- A condition on an entity, put together from tests of its property map and references. -/
inductive Condition where
  | always (value : Bool)
  | equals (field : String) (value : PropertyValue)
  | has (field : String)
  | idPrefix (text : String)
  | refersTo (id : EntityId)
  | not (condition : Condition)
  | all (conditions : List Condition)
  | any (conditions : List Condition)
  deriving Inhabited

namespace Condition

mutual

def holds (e : Entity) : Condition → Bool
  | .always value => value
  | .equals field value => e.properties.find? field == some value
  | .has field => e.properties.contains field
  | .idPrefix text => text.toList.isPrefixOf e.id.toList
  | .refersTo id => e.references.contains id
  | .not c => !holds e c
  | .all cs => allHold e cs
  | .any cs => anyHolds e cs

def allHold (e : Entity) : List Condition → Bool
  | [] => true
  | c :: cs => holds e c && allHold e cs

def anyHolds (e : Entity) : List Condition → Bool
  | [] => false
  | c :: cs => holds e c || anyHolds e cs

end

end Condition

end EntityStore
