import EntityStore.Error
import EntityStore.Feed
import EntityStore.Text.Duration

/-!
# Configuration of a store
-/

namespace EntityStore

/-- The settings that a store is made with. Thresholds are in milliseconds. -/
structure Config where
  ensureIntegrity : Bool := true
  maxIntegrityPasses : Nat := 64
  autoCommit : Bool := false
  historySize : Nat := Feed.defaultHistory
  slowQueryDebug : Nat := 100
  slowQueryWarn : Nat := 1000
  deriving DecidableEq, Inhabited

namespace Config

def standard : Config := {}

def withEnsureIntegrity (c : Config) (value : Bool) : Config := { c with ensureIntegrity := value }

/-- How many integrity passes may complete. At least one must. -/
def withMaxIntegrityPasses (c : Config) (passes : Nat) : Config :=
  { c with maxIntegrityPasses := if passes = 0 then 1 else passes }

def withAutoCommit (c : Config) (value : Bool) : Config := { c with autoCommit := value }

def withHistorySize (c : Config) (size : Nat) : Config := { c with historySize := size }

def withSlowQueryThresholds (c : Config) (debug warn : Nat) : Config :=
  { c with slowQueryDebug := debug, slowQueryWarn := warn }

def describe (c : Config) : String :=
  StoreError.showFields "StoreConfig"
    [("ensure_integrity_on_commit", toString c.ensureIntegrity),
     ("max_integrity_passes", toString c.maxIntegrityPasses),
     ("auto_commit", toString c.autoCommit),
     ("change_feed_history", toString c.historySize),
     ("slow_query_debug", Text.showMillis c.slowQueryDebug),
     ("slow_query_warn", Text.showMillis c.slowQueryWarn)]

end Config

end EntityStore
