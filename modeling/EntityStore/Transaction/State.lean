import EntityStore.Error

/-!
# States of a transaction

A transaction collects changes, then writes them, and ends either committed or rolled back. While it
writes, integrity hooks may still record changes, but nobody may end it.
-/

namespace EntityStore

inductive Transaction.State where
  /-- Changes are collected. -/
  | active
  /-- References are being repaired, or the batch is being written. -/
  | committing
  /-- The batch was applied. Nothing follows. -/
  | committed
  /-- The changes were thrown away. Nothing follows. -/
  | rolledBack
  deriving DecidableEq, Repr

namespace Transaction.State

def name : State → String
  | active => "active"
  | committing => "committing"
  | committed => "committed"
  | rolledBack => "rolled back"

def describe : State → String
  | active => "Active"
  | committing => "Committing"
  | committed => "Committed"
  | rolledBack => "RolledBack"

def isFinished : State → Bool
  | committed | rolledBack => true
  | active | committing => false

/-- Refuses an operation unless the transaction can still be ended. -/
def ensureActive (operation : String) : State → Result Unit
  | active => .ok ()
  | committing => .error (.illegalState s!"cannot {operation}: transaction is committing")
  | committed => .error (.illegalState s!"cannot {operation}: transaction already committed")
  | rolledBack => .error (.illegalState s!"cannot {operation}: transaction already rolled back")

/-- Refuses a change unless changes can still be recorded. -/
def ensureRecording : State → Result Unit
  | active | committing => .ok ()
  | committed => ensureActive "record changes" committed
  | rolledBack => ensureActive "record changes" rolledBack

end Transaction.State

end EntityStore
