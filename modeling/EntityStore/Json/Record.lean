import EntityStore.Json.Basic

/-!
# Records in JSON

A record with known fields may be spelt as an object, whose other members are passed over, or as an
array of its fields in order, whose end may be missing.
-/

namespace EntityStore.Json

/-- The value of a member that may occur once. The outer `none` says that it is repeated. -/
def uniqueMember? (members : List (String × Json)) (name : String) : Option (Option Json) :=
  match members.filter fun m => m.1 = name with
  | [] => some none
  | [m] => some (some m.2)
  | _ => none

/-- The values of the named fields in a record, in the order of the names, `none` where a field is
missing. The outer `none` says that the document is not such a record: it is a scalar, a field is
repeated, or the array has more values than there are fields. -/
def fields? (names : List String) (document : Json) : Option (List (Option Json)) :=
  match document with
  | .array items =>
    if items.length ≤ names.length then
      some ((List.range names.length).map fun i => items[i]?)
    else none
  | document => do
    let members ← document.toMembers?
    names.mapM (uniqueMember? members)

end EntityStore.Json
