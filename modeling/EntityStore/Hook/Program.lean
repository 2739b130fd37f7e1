import EntityStore.Transaction.Lifecycle

/-!
# Hook programs

What a hook may do, as data. A program either is done, or asks for one operation of the transaction
and goes on with its reply. Every hook that uses nothing but the transaction's operations is such a
program, so a statement about all programs is a statement about all hooks.

A hook may delete an entity or commit, and so set off further hooks. `Hooks.runner` therefore comes
in levels: a hook at one level sets off hooks one level down, and at level zero hooks fail.
-/

namespace EntityStore

/-- An operation of a transaction that a hook may ask for. -/
inductive Operation where
  | persist (e : Entity)
  | modified (e : Entity) (field : String) (value : PropertyValue)
  | delete (id : EntityId)
  | deleteEntity (e : Entity)
  | commit
  | rollback
  | afterCommit (callback : Callback)
  | setAutoCommit (value : Bool)
  | setIgnoreModifications (value : Bool)
  | setEnsureIntegrity (value : Bool)
  | contains (id : EntityId)
  | get (id : EntityId)
  | findAll (q : Query)
  | findFirst (q : Query)
  | inspect
  | remark (remark : Remark)

namespace Operation

def Reply : Operation → Type
  | persist _ | modified _ _ _ | delete _ | deleteEntity _ | commit | rollback => Result Unit
  | afterCommit _ | setAutoCommit _ | setIgnoreModifications _ | setEnsureIntegrity _ => Unit
  | contains _ => Bool
  | get _ => Result Entity
  | findAll _ => List Entity
  | findFirst _ => Option Entity
  | inspect => Transaction
  | remark _ => Unit

/-- Performs an operation. Hooks that it sets off are carried out by the runner. -/
def perform (run : HookRunner) : (op : Operation) → Work → op.Reply × Work
  | persist e, w => w.persist run e
  | modified e field value, w => w.modified run e field value
  | delete id, w => w.delete run id
  | deleteEntity e, w => w.deleteEntity run e
  | commit, w => w.commit run
  | rollback, w => w.rollback
  | afterCommit c, w => ((), w.afterCommit c)
  | setAutoCommit value, w => ((), w.onTxn fun t => { t with autoCommit := value })
  | setIgnoreModifications value, w =>
    ((), w.onTxn fun t => { t with ignoreModifications := value })
  | setEnsureIntegrity value, w => ((), w.onTxn fun t => { t with ensureIntegrity := value })
  | contains id, w => (w.contains id, w)
  | get id, w => (w.get id, w)
  | findAll q, w => w.findAll q
  | findFirst q, w => w.findFirst q
  | inspect, w => (w.txn, w)
  | remark r, w => ((), w.onStore (·.note (.remark r)))

end Operation

/-- A program over the operations of a transaction. -/
inductive Program (α : Type) where
  | done (value : α)
  | ask (op : Operation) (next : op.Reply → Program α)

namespace Program

variable {α β : Type}

def andThen : Program α → (α → Program β) → Program β
  | done value, f => f value
  | ask op next, f => ask op fun reply => (next reply).andThen f

def run (runner : HookRunner) : Program α → Work → α × Work
  | done value, w => (value, w)
  | ask op next, w =>
    let (reply, w) := op.perform runner w
    (next reply).run runner w

end Program

/-- The programs of all entities for both hooks. -/
abbrev Hooks := Hook → Entity → Program HookOutcome

namespace Hooks

/-- Carries out hooks. The number says how many levels of hooks may set off one another. -/
def runner (hooks : Hooks) : Nat → HookRunner
  | 0, _, e, w => (⟨e.body, .error .nestedTooDeeply⟩, w)
  | level + 1, hook, e, w => (hooks hook e).run (runner hooks level) w

/-- How many levels of hooks a client's operation may set off. -/
def nestingLimit : Nat := 10000

def outermost (hooks : Hooks) : HookRunner := hooks.runner nestingLimit

end Hooks

end EntityStore
