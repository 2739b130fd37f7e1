import EntityStore.OrderedMap.Basic
import EntityStore.Error
import EntityStore.Text.Numeral
import EntityStore.Json.Printer
import EntityStore.Json.Reader

/-!
# Property maps

An entity seen from outside is a map from fields to texts. A field may be present and null, which
is not the same as absent: a null in a change says that the field was cleared. Two fields are
reserved, one for the tag of the entity's type and one for its id.
-/

namespace EntityStore

/-- The value of a field that is present. Null is `none`. -/
abbrev PropertyValue := Option String

/-- The fields of an entity, or of a change to one. -/
abbrev Properties := OrderedMap PropertyValue

namespace Properties

def typeKey : String := "@type"

def idKey : String := "id"

def isReserved (field : String) : Bool := field = typeKey || field = idKey

def forId (id : EntityId) : Properties := OrderedMap.empty.insert idKey (some id)

/-- The text of a field that is present and not null. -/
def text? (p : Properties) (field : String) : Option String := (p.find? field).join

def textD (p : Properties) (field : String) : String := (text? p field).getD ""

def id? (p : Properties) : Option EntityId := text? p idKey

def typeTag? (p : Properties) : Option TypeTag := text? p typeKey

def withType (p : Properties) (tag : TypeTag) : Properties := p.insert typeKey (some tag)

def withId (p : Properties) (id : EntityId) : Properties := p.insert idKey (some id)

def unreserved (p : Properties) : Properties := p.filter fun field _ => !isReserved field

/-! ## Values of other types -/

/-- Reads the text of a field, if there is one, and reports the field when it cannot be read. -/
def read {α : Type} (p : Properties) (field : String) (reader : String → Except String α) :
    Result (Option α) :=
  match text? p field with
  | none => .ok none
  | some raw =>
    match reader raw with
    | .ok value => .ok (some value)
    | .error reason => .error (.invalidProperty field reason)

def natural? (p : Properties) (field : String) (max : Nat) : Result (Option Nat) :=
  read p field fun raw => (Text.readNatural max raw).mapError (·.message)

def integer? (p : Properties) (field : String) (minMagnitude max : Nat) : Result (Option Int) :=
  read p field fun raw => (Text.readInteger minMagnitude max raw).mapError (·.message)

def word? (p : Properties) (field : String) : Result (Option UInt64) :=
  read p field fun raw => (Text.readWord raw).mapError (·.message)

def bool? (p : Properties) (field : String) : Result (Option Bool) :=
  read p field fun raw =>
    match Text.readBool? raw with
    | some b => .ok b
    | none => .error Text.notABool

/-! ## JSON -/

def valueToJson : PropertyValue → Json
  | none => .null
  | some s => Json.ofString s

def toJson (p : Properties) : Json :=
  Json.ofMembers (p.entries.map fun e => (e.1, valueToJson e.2))

def valueOfJson? : Json → Option PropertyValue
  | .null => some none
  | value => value.toString?.map some

/-- The map that a JSON object of texts and nulls denotes. Of a repeated field the last value
counts. -/
def ofJson? (document : Json) : Option Properties := do
  let members ← document.toMembers?
  let fields ← members.mapM fun m => (valueOfJson? m.2).map fun value => (m.1, value)
  return OrderedMap.ofList fields

end Properties

end EntityStore
