import EntityStore.Transaction.Writing

/-!
# Recording changes

Three operations record changes: persisting an entity puts all of it, a modification puts an entity
one of whose fields has changed, and a deletion takes an id away. Each is refused once the
transaction has ended, and is written at once if the transaction is to.
-/

namespace EntityStore.Work

/-- Puts an entity, unless its id was deleted in this transaction. -/
def persist (run : HookRunner) (e : Entity) (w : Work) : Result Unit × Work :=
  match w.txn.state.ensureRecording with
  | .error err => (.error err, w)
  | .ok () =>
    if w.txn.deleted.contains e.id then
      (.error (.illegalState ("cannot persist deleted entity " ++ e.typeAndId)), w)
    else writeThrough run (w.onTxn (·.recordSnapshot e))

/-- Takes down that an entity is to be put because one of its fields has changed. -/
def takeDown (e : Entity) (field : String) (value : PropertyValue) (w : Work) : Work :=
  let recorded := w.onTxn (·.recordField e field value)
  (recorded.onStore (·.onBackend Backend.noteModification)).count Statistics.countModification

/-- Records that a field of an entity has changed. The change is dropped if the transaction ignores
modifications or does not see the entity. -/
def modified (run : HookRunner) (e : Entity) (field : String) (value : PropertyValue) (w : Work) :
    Result Unit × Work :=
  match w.txn.state.ensureRecording with
  | .error err => (.error err, w)
  | .ok () =>
    if w.txn.ignoreModifications || !w.contains e.id then (.ok (), w)
    else writeThrough run (w.takeDown e field value)

/-- Takes an id away, once. During an integrity pass a new deletion asks for a restart. -/
def delete (run : HookRunner) (id : EntityId) (w : Work) : Result Unit × Work :=
  match w.txn.state.ensureRecording with
  | .error err => (.error err, w)
  | .ok () =>
    if w.txn.deleted.contains id then (.ok (), w)
    else
      let recorded :=
        (w.onTxn (·.recordDeletion id)).onStore (·.onBackend Backend.noteModification)
      if recorded.txn.ensuring then (.error .integrityRestart, recorded)
      else writeThrough run recorded

/-- Lets an entity prepare for its deletion, then takes it away. -/
def deleteEntity (run : HookRunner) (e : Entity) (w : Work) : Result Unit × Work :=
  match run .delete e w with
  | (⟨_, .error err⟩, w) => (.error err, w)
  | (⟨_, .ok ()⟩, w) => delete run e.id w

end EntityStore.Work
