import EntityStore.Properties
import EntityStore.Schema

/-!
# Entities

An entity has an id, which never changes, and a body: one of seven kinds with fields of their own,
or a record whose fields are free and whose references a schema names. Seen from outside, an entity
is its property map; `Entity.properties` writes it and `Entity.update` reads one back.
-/

namespace EntityStore

/-- The kinds of entities with fields of their own. -/
inductive Kind where
  | customer
  | order
  | orderLine
  | attachment
  | node
  | rival
  | probe
  deriving DecidableEq, Repr

namespace Kind

def tag : Kind → TypeTag
  | customer => "Customer"
  | order => "Order"
  | orderLine => "OrderLine"
  | attachment => "Attachment"
  | node => "Node"
  | rival => "Rival"
  | probe => "Probe"

/-- The kinds whose hooks are fixed. -/
def builtIn : List Kind := [customer, order, orderLine, attachment, node, rival]

/-- The kind of a tag. Any other tag means a probe. -/
def ofTag (tag : TypeTag) : Kind := (builtIn.find? fun kind => kind.tag = tag).getD probe

end Kind

/-- What an entity is apart from its id. -/
inductive Body where
  | customer (name : String)
  | order (customer : Option EntityId) (number : String)
  /-- A line of an order, which does not outlive it. -/
  | orderLine (order : Option EntityId) (product : String)
  /-- An attachment of an order, which must not lose it. -/
  | attachment (order : Option EntityId)
  /-- A node of a tree, which does not outlive its parent. -/
  | node (parent : Option EntityId)
  /-- One of two entities that keep changing each other. -/
  | rival (partner : Option EntityId) (counter : UInt64)
  | record (type : TypeTag) (schema : TypeSchema) (fields : Properties)
  /-- An entity with free fields whose hooks are scripted. -/
  | probe (fields : Properties)
  deriving DecidableEq

namespace Body

def kind? : Body → Option Kind
  | customer .. => some .customer
  | order .. => some .order
  | orderLine .. => some .orderLine
  | attachment .. => some .attachment
  | node .. => some .node
  | rival .. => some .rival
  | record .. => none
  | probe .. => some .probe

def tag : Body → TypeTag
  | record type _ _ => type
  | customer .. => Kind.customer.tag
  | order .. => Kind.order.tag
  | orderLine .. => Kind.orderLine.tag
  | attachment .. => Kind.attachment.tag
  | node .. => Kind.node.tag
  | rival .. => Kind.rival.tag
  | probe .. => Kind.probe.tag

def initial : Kind → Body
  | .customer => customer ""
  | .order => order none ""
  | .orderLine => orderLine none ""
  | .attachment => attachment none
  | .node => node none
  | .rival => rival none 0
  | .probe => probe OrderedMap.empty

def recordReferences (schema : TypeSchema) (fields : Properties) : List EntityId :=
  schema.references.keys.filterMap (Properties.text? fields)

/-- The ids in the fields of a probe whose names begin with `ref`. -/
def probeReferences (fields : Properties) : List EntityId :=
  fields.entries.filterMap fun e => if "ref".toList.isPrefixOf e.1.toList then e.2 else none

def references : Body → List EntityId
  | customer _ => []
  | order target _ => target.toList
  | orderLine target _ => target.toList
  | attachment target => target.toList
  | node target => target.toList
  | rival target _ => target.toList
  | record _ schema fields => recordReferences schema fields
  | probe fields => probeReferences fields

def storeInto (p : Properties) : Body → Properties
  | customer name => p.insert "name" (some name)
  | order target number => (p.insert "customerId" target).insert "number" (some number)
  | orderLine target product => (p.insert "orderId" target).insert "product" (some product)
  | attachment target => p.insert "orderId" target
  | node target => p.insert "parent" target
  | rival target counter =>
    (p.insert "partner" target).insert "counter" (some (toString counter.toNat))
  | record _ _ fields => p.merge fields
  | probe fields => p.merge fields

/-- The body with its fields read from a property map. A field that is absent or null takes its
initial value. When a field cannot be read, the body keeps what was read before it. -/
def update (p : Properties) : Body → Result Unit × Body
  | customer _ => (.ok (), customer (p.textD "name"))
  | order _ _ => (.ok (), order (p.text? "customerId") (p.textD "number"))
  | orderLine _ _ => (.ok (), orderLine (p.text? "orderId") (p.textD "product"))
  | attachment _ => (.ok (), attachment (p.text? "orderId"))
  | node _ => (.ok (), node (p.text? "parent"))
  | rival _ counter =>
    match p.word? "counter" with
    | .ok read => (.ok (), rival (p.text? "partner") (read.getD 0))
    | .error err => (.error err, rival (p.text? "partner") counter)
  | record type schema _ => (.ok (), record type schema p.unreserved)
  | probe fields =>
    match p.word? "num" with
    | .ok _ => (.ok (), probe p.unreserved)
    | .error err => (.error err, probe fields)

theorem tag_update (p : Properties) (b : Body) : (b.update p).2.tag = b.tag := by
  cases b with
  | rival partner counter => cases h : p.word? "counter" <;> simp [update, tag, h]
  | probe fields => cases h : p.word? "num" <;> simp [update, tag, h]
  | _ => rfl

end Body

structure Entity where
  id : EntityId
  body : Body
  deriving DecidableEq

namespace Entity

def tag (e : Entity) : TypeTag := e.body.tag

def references (e : Entity) : List EntityId := e.body.references

def typeAndId (e : Entity) : String := showTypeAndId e.tag e.id

def storeInto (p : Properties) (e : Entity) : Properties :=
  e.body.storeInto ((p.withType e.tag).withId e.id)

def properties (e : Entity) : Properties := e.storeInto OrderedMap.empty

/-- The entity with its fields read from a property map, which must give the entity's own id. When
it does not, or when a field cannot be read, the error comes with the entity as far as it was read.
-/
def update (p : Properties) (e : Entity) : Result Unit × Entity :=
  if p.id? = some e.id then
    let (result, body) := e.body.update p
    (result, { e with body := body })
  else (.error (.propertiesMismatch e.id p.id?), e)

def updated (p : Properties) (e : Entity) : Result Entity :=
  match e.update p with
  | (.ok (), e) => .ok e
  | (.error err, _) => .error err

/-- A change of an entity that leaves it its id and its type. -/
structure Edit where
  apply : Entity → Entity
  id_apply : ∀ e, (apply e).id = e.id
  tag_apply : ∀ e, (apply e).tag = e.tag

/-- The change that reads a property map, as far as it can be read. -/
def Edit.reading (change : Entity → Properties) : Edit where
  apply e := (e.update (change e)).2
  id_apply e := by
    unfold update
    split <;> rfl
  tag_apply e := by
    unfold update
    split
    · exact Body.tag_update _ _
    · rfl

/-- The entity with one field set in its property map and read back. -/
def withField (field : String) (value : PropertyValue) (e : Entity) : Result Entity :=
  e.updated (e.properties.insert field value)

/-- The entity, provided that it is of a kind. A record is of none, whatever its tag. -/
def expect (kind : Kind) (e : Entity) : Result Entity :=
  if e.body.kind? = some kind then .ok e else .error (.typeMismatch e.id kind.tag e.tag)

/-- Two entities count as equal when they have one id. -/
def sameAs (a b : Entity) : Bool := a.id = b.id

/-- An entity has an id from the start and takes no other. -/
def rejectId (e : Entity) (id : EntityId) : StoreError :=
  .illegalState s!"id already set: {e.id} (rejected {id})"

def newRecord (type : TypeTag) (schema : TypeSchema) (id : EntityId) : Entity :=
  ⟨id, .record type schema OrderedMap.empty⟩

def field? (e : Entity) (field : String) : Option String :=
  match e.body with
  | .record _ _ fields => fields.text? field
  | .probe fields => fields.text? field
  | _ => none

def counter (e : Entity) (field : String) : Result Nat :=
  match e.body with
  | .record _ _ fields => (fields.word? field).map fun n => (n.getD 0).toNat
  | .probe fields => (fields.word? field).map fun n => (n.getD 0).toNat
  | _ => .ok 0

/-- The record or probe with one free field set. Other bodies have none and stay as they are. -/
def setField (field : String) (value : PropertyValue) (e : Entity) : Entity :=
  match e.body with
  | .record type schema fields => { e with body := .record type schema (fields.insert field value) }
  | .probe fields => { e with body := .probe (fields.insert field value) }
  | _ => e

/-- The reference fields of a record whose target a test does not find, with target and policy, in
the order of the fields. -/
def danglingFields (found : EntityId → Bool) (e : Entity) :
    List (String × EntityId × DanglingPolicy) :=
  match e.body with
  | .record _ schema fields =>
    schema.references.entries.filterMap fun r =>
      match Properties.text? fields r.1 with
      | none => none
      | some target => if found target then none else some (r.1, target, r.2)
  | _ => []

end Entity

end EntityStore
