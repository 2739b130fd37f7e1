import EntityStore.OrderedMap.Basic
import EntityStore.Identifier
import EntityStore.Json.Record

/-!
# Schemas of records

A schema says which fields of a type of records hold the ids of other entities, and what becomes of
a record when the entity that such a field names is gone.
-/

namespace EntityStore

/-- What becomes of a record whose reference has lost its target. -/
inductive DanglingPolicy where
  /-- The field is set to null. -/
  | clear
  /-- The record is deleted. -/
  | delete
  deriving DecidableEq, Repr, Inhabited

namespace DanglingPolicy

def name : DanglingPolicy → String
  | clear => "clear"
  | delete => "delete"

def title : DanglingPolicy → String
  | clear => "Clear"
  | delete => "Delete"

def ofName? (s : String) : Option DanglingPolicy :=
  if s = "clear" then some clear else if s = "delete" then some delete else none

/-- A policy is written as its name, or as an object that maps its name to null. -/
def ofJson? : Json → Option DanglingPolicy
  | .object [(source, .null)] => (Json.unescape? source).bind ofName?
  | value => value.toString?.bind ofName?

end DanglingPolicy

/-- The reference fields of one type of records, each with its policy. -/
structure TypeSchema where
  references : OrderedMap DanglingPolicy
  deriving DecidableEq, Inhabited

abbrev Schema := OrderedMap TypeSchema

/-- Reads an object as a map. Of a repeated name the last value counts. -/
def mapOfJson? {α : Type} (reader : Json → Option α) : Json → Option (OrderedMap α)
  | .object members => do
    let members ← (Json.object members).toMembers?
    let entries ← members.mapM fun m => (reader m.2).map fun value => (m.1, value)
    return OrderedMap.ofList entries
  | _ => none

namespace TypeSchema

def empty : TypeSchema := ⟨OrderedMap.empty⟩

def toJson (s : TypeSchema) : Json :=
  Json.ofMembers
    [("references",
      Json.ofMembers (s.references.entries.map fun e => (e.1, Json.ofString e.2.name)))]

/-- The type schema that a JSON record denotes. Without references it has none. -/
def ofJson? (document : Json) : Option TypeSchema := do
  match ← document.fields? ["references"] with
  | [some references] => return ⟨← mapOfJson? DanglingPolicy.ofJson? references⟩
  | _ => return empty

end TypeSchema

namespace Schema

def toJson (s : Schema) : Json := Json.ofMembers (s.entries.map fun e => (e.1, e.2.toJson))

def ofJson? (document : Json) : Option Schema := mapOfJson? TypeSchema.ofJson? document

/-- The schema with a type that it may lack. A type that is known keeps its references. -/
def intern (s : Schema) (tag : TypeTag) : Schema :=
  if s.contains tag then s else s.insert tag TypeSchema.empty

def internAll (s : Schema) (tags : List TypeTag) : Schema := tags.foldl intern s

end Schema

end EntityStore
