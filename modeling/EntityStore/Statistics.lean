import EntityStore.Error

/-!
# Statistics of a store

What has happened in a store, counted. Counters grow by one with every event and so never come near
the limit of a machine word; they have none here.
-/

namespace EntityStore

structure Statistics where
  transactionsStarted : Nat := 0
  transactionsCommitted : Nat := 0
  transactionsRolledBack : Nat := 0
  commitFailures : Nat := 0
  integrityPasses : Nat := 0
  integrityRestarts : Nat := 0
  entitiesWritten : Nat := 0
  entitiesDeleted : Nat := 0
  queries : Nat := 0
  modifications : Nat := 0
  deriving DecidableEq, Inhabited

namespace Statistics

def zero : Statistics := {}

def countStart (s : Statistics) : Statistics :=
  { s with transactionsStarted := s.transactionsStarted + 1 }

def countCommit (s : Statistics) : Statistics :=
  { s with transactionsCommitted := s.transactionsCommitted + 1 }

/-- Counts a transaction that ended without a commit. -/
def countRollback (s : Statistics) : Statistics :=
  { s with transactionsRolledBack := s.transactionsRolledBack + 1 }

def countCommitFailure (s : Statistics) : Statistics :=
  { s with commitFailures := s.commitFailures + 1 }

/-- Counts an integrity pass, whatever came of it. -/
def countPass (s : Statistics) : Statistics :=
  { s with integrityPasses := s.integrityPasses + 1 }

/-- Counts an integrity pass that a deletion has cut short. -/
def countRestart (s : Statistics) : Statistics :=
  { s with integrityRestarts := s.integrityRestarts + 1 }

def countBatch (s : Statistics) (written deleted : Nat) : Statistics :=
  { s with
    entitiesWritten := s.entitiesWritten + written
    entitiesDeleted := s.entitiesDeleted + deleted }

def countQuery (s : Statistics) : Statistics := { s with queries := s.queries + 1 }

def countModification (s : Statistics) : Statistics :=
  { s with modifications := s.modifications + 1 }

def fields (s : Statistics) : List (String × Nat) :=
  [("transactions_started", s.transactionsStarted),
   ("transactions_committed", s.transactionsCommitted),
   ("transactions_rolled_back", s.transactionsRolledBack),
   ("commit_failures", s.commitFailures),
   ("integrity_passes", s.integrityPasses),
   ("integrity_restarts", s.integrityRestarts),
   ("entities_written", s.entitiesWritten),
   ("entities_deleted", s.entitiesDeleted),
   ("queries", s.queries),
   ("modifications", s.modifications)]

def describe (s : Statistics) : String :=
  StoreError.showFields "StatsSnapshot" (s.fields.map fun f => (f.1, toString f.2))

end Statistics

end EntityStore
