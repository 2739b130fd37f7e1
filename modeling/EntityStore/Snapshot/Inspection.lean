import EntityStore.Snapshot.Loaded

/-!
# Inspecting a snapshot

What there is in a snapshot: its entities by type, the reference fields of its types, and the
references that lead nowhere.
-/

namespace EntityStore

structure Inspection where
  path : String
  entityCount : Nat
  types : OrderedMap Nat
  /-- The reference fields of each type that has any. -/
  references : OrderedMap (List String)
  dangling : List DanglingReference
  deriving DecidableEq

namespace Inspection

def ofLoaded (path : String) (l : LoadedStore) : Inspection :=
  { path := path
    entityCount := l.table.size
    types := l.counts
    references :=
      (l.types.filter fun _ type => !type.references.isEmpty).mapEntries fun _ type =>
        type.references.keys
    dangling := l.dangling }

def run (path : String) : FileProgram (Except ToolError Inspection) :=
  (Snapshot.read path).andThen fun s =>
    match s.load Config.standard with
    | .error err => .done (.error (.store err))
    | .ok l => .done (.ok (ofLoaded path l))

def toJson (i : Inspection) : Json :=
  Json.ofMembers
    [("path", Json.ofString i.path),
     ("entity_count", Json.ofNat i.entityCount),
     ("types", Json.ofMembers (i.types.entries.map fun e => (e.1, Json.ofNat e.2))),
     ("references",
      Json.ofMembers (i.references.entries.map fun e => (e.1, .array (e.2.map Json.ofString)))),
     ("dangling", .array (i.dangling.map (·.toJson)))]

def padRight (width : Nat) (s : String) : String :=
  s ++ String.ofList (List.replicate (width - s.length) ' ')

def typeLine (e : TypeTag × Nat) : String := s!"  {padRight 20 e.1} {e.2}"

def referenceLines (references : OrderedMap (List String)) : List String :=
  if references.isEmpty then []
  else
    ["", "References:"] ++
      references.entries.map fun e => "  " ++ e.1 ++ ": " ++ ", ".intercalate e.2

def danglingLine (d : DanglingReference) : String :=
  s!"  {d.type}:{d.record}.{d.field} -> {d.target} ({d.policy.title})"

def danglingLines (dangling : List DanglingReference) : List String :=
  if dangling.isEmpty then ["", "✓ No dangling references"]
  else ["", s!"✗ {dangling.length} dangling references:"] ++ dangling.map danglingLine

def lines (i : Inspection) : List String :=
  ["Refstore Snapshot Inspection", "============================", "", "Path: " ++ i.path, "",
    s!"Entities: {i.entityCount}"] ++
    i.types.entries.map typeLine ++ referenceLines i.references ++ danglingLines i.dangling

/-- The report on an inspection, as JSON or as lines of text. -/
def report (format : String) (i : Inspection) : String :=
  if format = "json" then i.toJson.pretty ++ "\n"
  else String.join (i.lines.map (· ++ "\n"))

end Inspection

end EntityStore
