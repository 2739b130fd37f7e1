import EntityStore.Transaction.Recording

/-!
# Ending a transaction

A transaction ends by a commit that succeeds or by a rollback. A commit that fails leaves it active
with its changes. A transaction that is dropped before it has ended counts as rolled back.
-/

namespace EntityStore

namespace Work

def finish (state : Transaction.State) (w : Work) : Work :=
  (w.onTxn fun t => { t with state := state }).onStore
    (·.onBackend (·.noteFinished w.txn.id))

/-- Writes the working set and ends the transaction. Without changes only the callbacks run. -/
def commit (run : HookRunner) (w : Work) : Result Unit × Work :=
  match w.txn.state.ensureActive "commit" with
  | .error err => (.error err, w)
  | .ok () =>
    if w.txn.isEmpty then
      (.ok (), (w.runCallbacks.finish .committed).count Statistics.countCommit)
    else
      match writePending run (w.onTxn fun t => { t with state := .committing }) with
      | (.ok (), w) => (.ok (), (w.finish .committed).count Statistics.countCommit)
      | (.error err, w) =>
        (.error err,
          (w.onTxn fun t => { t with state := .active }).count Statistics.countCommitFailure)

/-- Throws the changes and the waiting callbacks away and ends the transaction. -/
def rollback (w : Work) : Result Unit × Work :=
  match w.txn.state.ensureActive "roll back" with
  | .error err => (.error err, w)
  | .ok () =>
    let cleared := w.onTxn fun t => { t.clearPending with callbacks := [] }
    (.ok (), (cleared.finish .rolledBack).count Statistics.countRollback)

/-- Has a callback run once a batch is applied, or at once if every change is written at once. -/
def afterCommit (c : Callback) (w : Work) : Work :=
  if w.txn.autoCommit then w.onStore c.run
  else w.onTxn fun t => { t with callbacks := t.callbacks ++ [c] }

/-- Lets go of the transaction. What is left is its store. -/
def drop (w : Work) : Store :=
  if w.txn.state.isFinished then w.store
  else (w.store.count Statistics.countRollback).onBackend (·.noteFinished w.txn.id)

end Work

namespace Store

/-- Runs an operation in a transaction of its own, which is committed if the operation succeeds and
rolled back if it fails. -/
def within {α : Type} (run : HookRunner) (name : String) (operation : Work → Result α × Work)
    (s : Store) : Result α × Store :=
  match operation (s.begin name) with
  | (.error err, w) => (.error err, w.rollback.2.drop)
  | (.ok value, w) =>
    match w.commit run with
    | (.error err, w) => (.error err, w.drop)
    | (.ok (), w) => (.ok value, w.drop)

end Store

end EntityStore
