import EntityStore.Transaction.Integrity

/-!
# Writing the working set

A write repairs references, hands the working set to the backend as one batch, publishes what was
applied, and runs the callbacks that waited for it. If the repair or the backend fails, nothing is
written and the working set stays.
-/

namespace EntityStore.Work

/-- Runs the callbacks that wait, in order. None of them waits any longer. -/
def runCallbacks (w : Work) : Work :=
  { store := Callback.runAll w.txn.callbacks w.store, txn := { w.txn with callbacks := [] } }

/-- What follows once the backend has applied the batch: its change set is published, the callbacks
run, and the working set is forgotten. -/
def settle (w : Work) : Work :=
  let batch := w.txn.batch
  let published := w.onStore (·.publish w.txn.changeSet)
  let called := published.runCallbacks
  (called.count (·.countBatch batch.modified.length batch.deleted.size)).onTxn (·.clearPending)

/-- Hands the working set to the backend as it stands. -/
def applyPending (w : Work) : Result Unit × Work :=
  match w.store.backend.update w.txn.batch with
  | (.error err, backend) => (.error err, w.onStore (·.onBackend fun _ => backend))
  | (.ok (), backend) => (.ok (), (w.onStore (·.onBackend fun _ => backend)).settle)

/-- Repairs references if the transaction is to, then hands the working set to the backend. -/
def writePending (run : HookRunner) (w : Work) : Result Unit × Work :=
  if w.txn.ensureIntegrity then
    match ensureIntegrity run w with
    | (.error err, w) => (.error err, w)
    | (.ok (), w) => applyPending w
  else applyPending w

/-- Whether a change is written as soon as it is recorded. Changes that hooks record are not. -/
def writesThrough (w : Work) : Bool :=
  w.txn.autoCommit && !w.txn.ensuring && w.txn.isActive

/-- Writes the working set if changes are written as soon as they are recorded. -/
def writeThrough (run : HookRunner) (w : Work) : Result Unit × Work :=
  if w.writesThrough then writePending run w else (.ok (), w)

end EntityStore.Work
