import EntityStore.Hook.Program

/-!
# How entities repair their references

The check of each kind of entity. An order whose customer is gone forgets the customer; a line
without its order and a node without its parent delete themselves; an attachment refuses to be left
behind; a rival changes its partner whenever it is asked. A record goes through its reference
fields and does what its schema says.
-/

namespace EntityStore.Repair

open Program

/-- The program of a hook that leaves the body as it is. -/
def leave (body : Body) (result : Result Unit) : Program HookOutcome := done ⟨body, result⟩

def deleteSelf (e : Entity) : Program HookOutcome :=
  ask (.delete e.id) fun reply => leave e.body reply

/-- Records a change of a field that the body has taken. -/
def record (e : Entity) (field : String) (value : PropertyValue) : Program HookOutcome :=
  ask (.modified e field value) fun reply => leave e.body reply

/-- The error of an entity that does not put up with the loss of what it belongs to. -/
def missingMaster (e : Entity) : StoreError := .missingMaster e.id e.tag

/-- Goes on with one program if the entity that a reference names is there, and with another if it
is not or if the reference is unset. -/
def ifPresent (reference : Option EntityId) (present absent : Program HookOutcome) :
    Program HookOutcome :=
  match reference with
  | none => absent
  | some target => ask (.contains target) fun (found : Bool) => if found then present else absent

/-- An order forgets a customer who is gone. -/
def checkOrder (e : Entity) (customer : Option EntityId) (number : String) : Program HookOutcome :=
  match customer with
  | none => leave e.body (.ok ())
  | some target =>
    ask (.get target) fun
      | .ok _ => leave e.body (.ok ())
      | .error err =>
        if err.isNotFound then record ⟨e.id, .order none number⟩ "customerId" none
        else leave e.body (.error err)

/-- A rival counts its partner up. -/
def checkRival (e : Entity) (partner : Option EntityId) : Program HookOutcome :=
  match partner with
  | none => leave e.body (.ok ())
  | some target =>
    ask (.get target) fun
      | .error err => leave e.body (.error err)
      | .ok other =>
        match other.body with
        | .rival back counter =>
          let counted := counter + 1
          ask (.modified ⟨other.id, .rival back counted⟩ "counter" (some (toString counted.toNat)))
            fun reply => leave e.body reply
        | _ => leave e.body (.error (.typeMismatch other.id Kind.rival.tag other.tag))

/-- A record goes through reference fields: one whose target is gone is cleared, or the record is
deleted. -/
def checkFields (e : Entity) : List (String × DanglingPolicy) → Program HookOutcome
  | [] => leave e.body (.ok ())
  | (field, policy) :: rest =>
    match e.field? field with
    | none => checkFields e rest
    | some target =>
      ask (.contains target) fun (found : Bool) =>
        if found then checkFields e rest
        else
          match policy with
          | .delete => deleteSelf e
          | .clear =>
            ask (.modified (e.setField field none) field none) fun
              | .ok () => checkFields (e.setField field none) rest
              | .error err => leave (e.setField field none).body (.error err)

def check (e : Entity) : Program HookOutcome :=
  match e.body with
  | .customer _ => leave e.body (.ok ())
  | .order customer number => checkOrder e customer number
  | .orderLine order _ => ifPresent order (leave e.body (.ok ())) (deleteSelf e)
  | .attachment order =>
    ifPresent order (leave e.body (.ok ())) (leave e.body (.error (missingMaster e)))
  | .node parent =>
    match parent with
    | none => leave e.body (.ok ())
    | some _ => ifPresent parent (leave e.body (.ok ())) (deleteSelf e)
  | .rival partner _ => checkRival e partner
  | .record _ schema _ => checkFields e schema.references.entries
  | .probe _ => leave e.body (.ok ())

/-- The hooks of entities that have no scripts. Nothing happens before a deletion. -/
def hooks : Hooks
  | .check, e => check e
  | .delete, e => leave e.body (.ok ())

end EntityStore.Repair
