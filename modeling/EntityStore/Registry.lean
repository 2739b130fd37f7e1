import EntityStore.Entity

/-!
# Registries

A registry knows how to make an empty entity of each type, and so how to bring a property map back
to life: the map's tag picks the constructor, its id names the entity, and the entity then reads its
fields from the map.
-/

namespace EntityStore

/-- Makes an empty entity under an id. -/
abbrev Constructor := EntityId → Result Entity

structure Registry where
  constructors : OrderedMap Constructor

namespace Registry

def empty : Registry := ⟨OrderedMap.empty⟩

/-- The registry with a constructor for a tag, whatever the tag stood for before. -/
def registerWith (r : Registry) (tag : TypeTag) (make : Constructor) : Registry :=
  ⟨r.constructors.insert tag make⟩

def register (r : Registry) (kind : Kind) : Registry :=
  r.registerWith kind.tag fun id => .ok ⟨id, Body.initial kind⟩

/-- The registry with a kind under its own tag, unless the tag is taken. -/
def registerIfFree (r : Registry) (kind : Kind) : Registry :=
  if r.constructors.contains kind.tag then r else r.register kind

def ofSchema (schema : Schema) : Registry :=
  ⟨schema.mapEntries fun tag type => fun id => .ok (Entity.newRecord tag type id)⟩

/-- The registry of the six kinds whose hooks are fixed. -/
def builtIn : Registry := Kind.builtIn.foldl register empty

/-- The registry of a schema, then of the six kinds where the schema leaves their tags free, then of
probes. -/
def standard (schema : Schema) : Registry :=
  (Kind.builtIn.foldl registerIfFree (ofSchema schema)).register .probe

def contains (r : Registry) (tag : TypeTag) : Bool := r.constructors.contains tag

def tags (r : Registry) : List TypeTag := r.constructors.keys

def create (r : Registry) (tag : TypeTag) (id : EntityId) : Result Entity :=
  match r.constructors.find? tag with
  | none => .error (.unknownEntityType tag)
  | some make => make id

/-- The entity that a property map describes. -/
def materialize (r : Registry) (p : Properties) : Result Entity :=
  match p.typeTag? with
  | none => .error (.invalidProperty Properties.typeKey "missing type tag")
  | some tag =>
    match p.id? with
    | none => .error (.invalidProperty Properties.idKey "missing id")
    | some id => (r.create tag id).bind (Entity.updated p)

def materializeAll (r : Registry) (maps : List Properties) : Result (List Entity) :=
  maps.mapM r.materialize

def describe (r : Registry) : String :=
  "EntityRegistry \x7b types: [" ++ ", ".intercalate (r.tags.map Text.quote) ++ "] \x7d"

end Registry

end EntityStore
