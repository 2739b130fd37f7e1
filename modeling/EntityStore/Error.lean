import EntityStore.Identifier
import EntityStore.Text.Quoted

/-!
# What can go wrong

The causes for which an operation of the store fails, their wording, and the form they take in
diagnostics. One of them is a signal: `integrityRestart` tells the integrity check that a deletion
has made the pass under way obsolete.
-/

namespace EntityStore

/-- The cause of a failed operation. -/
inductive StoreError where
  | entityDoesNotExist (id : EntityId)
  | illegalState (message : String)
  | integrityRestart
  | integrityNotConverged (passes : Nat)
  | missingMaster (id : EntityId) (type : TypeTag)
  | typeMismatch (id : EntityId) (expected actual : TypeTag)
  | propertiesMismatch (expected : EntityId) (actual : Option String)
  | invalidProperty (field message : String)
  | unknownEntityType (type : TypeTag)
  | backend (message : String)
  | nestedTooDeeply
  deriving DecidableEq, Repr

abbrev Result (α : Type) := Except StoreError α

instance decidableEqExcept {ε α : Type} [DecidableEq ε] [DecidableEq α] : DecidableEq (Except ε α)
  | .ok a, .ok b => if h : a = b then isTrue (h ▸ rfl) else isFalse fun e => h (Except.ok.inj e)
  | .error a, .error b =>
    if h : a = b then isTrue (h ▸ rfl) else isFalse fun e => h (Except.error.inj e)
  | .ok _, .error _ => isFalse nofun
  | .error _, .ok _ => isFalse nofun

namespace StoreError

def message : StoreError → String
  | entityDoesNotExist id => "entity does not exist: " ++ id
  | illegalState text => "illegal state: " ++ text
  | integrityRestart => "entity deleted while ensuring integrity"
  | integrityNotConverged passes => s!"integrity repair did not converge after {passes} passes"
  | missingMaster id type => "master entity is missing for " ++ showTypeAndId type id
  | typeMismatch id expected actual => s!"entity {id} is a {actual}, expected {expected}"
  | propertiesMismatch expected actual =>
    s!"properties of {Text.quoteOption actual} applied to entity {expected}"
  | invalidProperty field text => s!"invalid property {field}: {text}"
  | unknownEntityType type => "unknown entity type: " ++ type
  | backend text => "backend error: " ++ text
  | nestedTooDeeply => "integrity hooks are nested too deeply"

def isNotFound : StoreError → Bool
  | entityDoesNotExist _ => true
  | _ => false

def showFields (name : String) (fields : List (String × String)) : String :=
  name ++ " \x7b " ++ ", ".intercalate (fields.map fun f => f.1 ++ ": " ++ f.2) ++ " \x7d"

def describe : StoreError → String
  | entityDoesNotExist id => showFields "EntityDoesNotExist" [("id", showEntityId id)]
  | illegalState text => showFields "IllegalState" [("message", Text.quote text)]
  | integrityRestart => "IntegrityRestart"
  | integrityNotConverged passes =>
    showFields "IntegrityNotConverged" [("passes", toString passes)]
  | missingMaster id type =>
    showFields "MissingMaster" [("id", showEntityId id), ("entity_type", showType type)]
  | typeMismatch id expected actual =>
    showFields "TypeMismatch"
      [("id", showEntityId id), ("expected", showType expected), ("actual", showType actual)]
  | propertiesMismatch expected actual =>
    showFields "PropertiesMismatch"
      [("expected", showEntityId expected), ("actual", Text.quoteOption actual)]
  | invalidProperty field text =>
    showFields "InvalidProperty" [("field", Text.quote field), ("message", Text.quote text)]
  | unknownEntityType type => showFields "UnknownEntityType" [("type_tag", Text.quote type)]
  | backend text => showFields "Backend" [("message", Text.quote text)]
  | nestedTooDeeply => "NestedTooDeeply"
where
  showType (type : TypeTag) : String := "EntityType(" ++ Text.quote type ++ ")"

end StoreError

end EntityStore
