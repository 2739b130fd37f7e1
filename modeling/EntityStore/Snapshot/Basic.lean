import EntityStore.Files.Program
import EntityStore.Properties
import EntityStore.Schema

/-!
# Snapshots

A snapshot is a schema of record types and a list of property maps, one for each entity. It is kept
in a JSON file.
-/

namespace EntityStore

/-- A schema and the entities that it describes. -/
structure Snapshot where
  schema : Schema
  entities : List Properties
  deriving DecidableEq

/-- Why a tool that works on snapshots fails. -/
inductive ToolError where
  | request (message : String)
  | store (err : StoreError)
  | json
  | file (fault : FileFault)
  deriving DecidableEq, Repr

def ToolError.describe : ToolError → String
  | request message => Text.quote message
  | store err => err.describe
  | json => "Json"
  | file fault => fault.describe

namespace Snapshot

def toJson (s : Snapshot) : Json :=
  Json.ofMembers [("schema", s.schema.toJson), ("entities", .array (s.entities.map (·.toJson)))]

def entitiesOfJson? : Json → Option (List Properties)
  | .array items => items.mapM Properties.ofJson?
  | _ => none

/-- The snapshot that a JSON record denotes. Either part may be missing. -/
def ofJson? (document : Json) : Option Snapshot := do
  match ← document.fields? ["schema", "entities"] with
  | [schema, entities] =>
    let schema ← match schema with
      | none => some OrderedMap.empty
      | some value => Schema.ofJson? value
    let entities ← match entities with
      | none => some []
      | some value => entitiesOfJson? value
    return ⟨schema, entities⟩
  | _ => none

def render (s : Snapshot) : String := s.toJson.pretty

def parse? (contents : String) : Option Snapshot := (Json.parse? contents).bind ofJson?

def ofContents (path : String) : Except FileFault FileContents → Except ToolError Snapshot
  | .error fault => .error (.request s!"cannot open snapshot {path}: {fault.message}")
  | .ok .unreadable => .error .json
  | .ok (.text contents) =>
    match parse? contents with
    | some snapshot => .ok snapshot
    | none => .error .json

def read (path : String) : FileProgram (Except ToolError Snapshot) :=
  .read path fun contents => .done (ofContents path contents)

def write (s : Snapshot) (path : String) : FileProgram (Except ToolError Unit) :=
  .write path s.render fun
    | .ok () => .done (.ok ())
    | .error fault => .done (.error (.file fault))

end Snapshot

end EntityStore
