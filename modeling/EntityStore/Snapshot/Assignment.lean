import EntityStore.Properties
import EntityStore.Text.Split

/-!
# Assignments

An assignment is written `id.field=value`. The id ends at the last point before the first equals
sign, so ids may hold points and values may hold anything. The value `null` stands for null.
-/

namespace EntityStore

structure Assignment where
  id : EntityId
  field : String
  value : PropertyValue
  deriving DecidableEq, Repr

inductive AssignmentError where
  | noEquals (raw : String)
  | noPoint (target : String)
  | emptyPart (raw : String)
  | reserved (field : String)
  deriving DecidableEq, Repr

def AssignmentError.message : AssignmentError → String
  | noEquals raw => "expected id.field=value, got " ++ Text.quote raw
  | noPoint target => "expected id.field before '=', got " ++ Text.quote target
  | emptyPart raw => "empty id or field in " ++ Text.quote raw
  | reserved field => s!"field {Text.quote field} cannot be assigned"

namespace Assignment

/-- The value that a text stands for. -/
def valueOf (s : String) : PropertyValue := if s = "null" then none else some s

def parse (raw : String) : Except AssignmentError Assignment :=
  match Text.splitFirst '=' raw.toList with
  | none => .error (.noEquals raw)
  | some (target, value) =>
    match Text.splitLast '.' target with
    | none => .error (.noPoint (String.ofList target))
    | some (id, field) =>
      let field := String.ofList field
      if id = [] ∨ field = "" then .error (.emptyPart raw)
      else if Properties.isReserved field then .error (.reserved field)
      else .ok ⟨String.ofList id, field, valueOf (String.ofList value)⟩

end Assignment

end EntityStore
