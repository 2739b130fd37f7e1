import EntityStore.Hook.Program

/-!
# Steps of a transaction

What a client can do in a transaction, as data, and what it is told in reply. A client names an
entity by its id, or brings a snapshot of it along. A step is taken as a whole, a commit with its
repair included: nothing else happens to the store in the meantime, apart from what hooks and
callbacks do.
-/

namespace EntityStore

inductive Target where
  /-- By a snapshot, from which the entity is made. -/
  | given (snapshot : Properties)
  /-- By the id under which the transaction has it. -/
  | stored (id : EntityId)

inductive Step where
  | persist (target : Target)
  /-- Records that a field has changed, after setting it in the entity if so wished. -/
  | modify (target : Target) (field : String) (value : PropertyValue) (apply : Bool)
  | setCustomer (order : EntityId) (customer : Option EntityId)
  | delete (id : EntityId)
  | deleteEntity (target : Target)
  | commit
  | rollback
  | setAutoCommit (value : Bool)
  | setIgnoreModifications (value : Bool)
  | setEnsureIntegrity (value : Bool)
  | afterCommit (tag : String)
  /-- Registers a callback that takes steps of its own, in a transaction named by the tag. -/
  | afterCommitTake (tag : String) (steps : List Step)
  | contains (id : EntityId)
  | isDeleted (id : EntityId)
  | get (id : EntityId)
  | getOfKind (id : EntityId) (kind : Kind)
  | getAll (ids : List EntityId)
  | referenced (target : Target)
  | findAll (query : Query)
  | findFirst (query : Query)
  | findAllOf (kind : Kind) (condition : Condition)
  | delta (id : EntityId)
  | display
  | describe
  | info
  | fail (message : String)
  deriving Inhabited

/-- What the steps of a client depend on: how snapshots come to life and how hooks are run. -/
structure Setting where
  registry : Registry
  run : HookRunner

def Target.resolve (setting : Setting) (w : Work) : Target → Result Entity
  | given snapshot => setting.registry.materialize snapshot
  | stored id => w.get id

namespace Step

def withTarget (setting : Setting) (target : Target) (w : Work)
    (operation : Entity → Work → Result Reply × Work) : Result Reply × Work :=
  match target.resolve setting w with
  | .error err => (.error err, w)
  | .ok e => operation e w

def done (outcome : Result Unit × Work) : Result Reply × Work :=
  (outcome.1.map fun _ => .nothing, outcome.2)

def answer (w : Work) (reply : Result Reply) : Result Reply × Work := (reply, w)

def recordChange (setting : Setting) (field : String) (value : PropertyValue) (apply : Bool)
    (e : Entity) (w : Work) : Result Reply × Work :=
  match if apply then e.withField field value else .ok e with
  | .error err => (.error err, w)
  | .ok e => done (w.modified setting.run e field value)

def reassign (setting : Setting) (order : EntityId) (customer : Option EntityId) (w : Work) :
    Result Reply × Work :=
  match (w.get order).bind (Entity.expect .order) with
  | .error err => (.error err, w)
  | .ok e =>
    let body := match e.body with
      | .order _ number => .order customer number
      | body => body
    done (w.modified setting.run ⟨e.id, body⟩ "customerId" customer)

mutual

def take (setting : Setting) : Step → Work → Result Reply × Work
  | .persist target, w => withTarget setting target w fun e w => done (w.persist setting.run e)
  | .modify target field value apply, w =>
    withTarget setting target w (recordChange setting field value apply)
  | .setCustomer order customer, w => reassign setting order customer w
  | .delete id, w => done (w.delete setting.run id)
  | .deleteEntity target, w =>
    withTarget setting target w fun e w => done (w.deleteEntity setting.run e)
  | .commit, w => done (w.commit setting.run)
  | .rollback, w => done w.rollback
  | .setAutoCommit value, w =>
    (.ok (.flag value), w.onTxn fun t => { t with autoCommit := value })
  | .setIgnoreModifications value, w =>
    (.ok (.flag value), w.onTxn fun t => { t with ignoreModifications := value })
  | .setEnsureIntegrity value, w =>
    (.ok (.flag value), w.onTxn fun t => { t with ensureIntegrity := value })
  | .afterCommit tag, w => (.ok .nothing, w.afterCommit (.silent tag))
  | .afterCommitTake tag steps, w =>
    let action := fun store : Store =>
      let (result, after) := store.within setting.run tag fun w => takeAll setting steps w
      after.note (.replies result)
    (.ok .nothing, w.afterCommit ⟨tag, action⟩)
  | .contains id, w => answer w (.ok (.flag (w.contains id)))
  | .isDeleted id, w => answer w (.ok (.flag (w.txn.deleted.contains id)))
  | .get id, w => answer w ((w.get id).map .entity)
  | .getOfKind id kind, w => answer w (((w.get id).bind (Entity.expect kind)).map .entity)
  | .getAll ids, w => answer w ((w.getAll ids).map .entities)
  | .referenced target, w =>
    withTarget setting target w fun e w => (.ok (.entities (w.referenced e)), w)
  | .findAll query, w =>
    let (found, w) := w.findAll query
    (.ok (.entities found), w)
  | .findFirst query, w =>
    let (found, w) := w.findFirst query
    (.ok (.maybeEntity found), w)
  | .findAllOf kind condition, w =>
    let (found, w) := w.findAllOf kind condition.holds
    (.ok (.entities found), w)
  | .delta id, w => answer w (.ok (.delta (w.txn.deltas.find? id)))
  | .display, w => answer w (.ok (.text (toString w.txn)))
  | .describe, w => answer w (.ok (.text w.txn.describe))
  | .info, w => answer w (.ok (.transaction w.txn.info))
  | .fail message, w => answer w (.error (.illegalState message))

/-- Takes steps in order, up to the first that fails. -/
def takeAll (setting : Setting) : List Step → Work → Result (List Reply) × Work
  | [], w => (.ok [], w)
  | step :: rest, w =>
    match take setting step w with
    | (.error err, w) => (.error err, w)
    | (.ok reply, w) =>
      match takeAll setting rest w with
      | (.error err, w) => (.error err, w)
      | (.ok replies, w) => (.ok (reply :: replies), w)

end

/-- The callback that takes steps in a transaction of its own and notes what came of them. -/
def callback (setting : Setting) (tag : String) (steps : List Step) : Callback :=
  ⟨tag, fun store =>
    let (result, after) := store.within setting.run tag (takeAll setting steps)
    after.note (.replies result)⟩

theorem take_afterCommitTake (setting : Setting) (tag : String) (steps : List Step) (w : Work) :
    take setting (.afterCommitTake tag steps) w =
      (.ok .nothing, w.afterCommit (callback setting tag steps)) := by
  rw [take]
  rfl

end Step

end EntityStore
