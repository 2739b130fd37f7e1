import EntityStore.Journal

/-!
# Stores

A store is its committed side together with the feed of changes, the counters and the number of
transactions begun. Callbacks act on a store as a whole.

Nothing is written to a log here and nothing takes time, so there are no slow queries and entities
do not know when they were changed.
-/

namespace EntityStore

/-- A store, apart from the transactions that are open on it. -/
structure Store where
  config : Config
  backend : Backend
  feed : Feed
  statistics : Statistics
  begun : Nat
  /-- What hooks and callbacks have left, oldest first. -/
  journal : List Note

namespace Store

def new (config : Config) (backend : Backend) : Store :=
  { config := config, backend := backend, feed := Feed.new config.historySize,
    statistics := Statistics.zero, begun := 0, journal := [] }

def note (s : Store) (entry : Note) : Store := { s with journal := s.journal ++ [entry] }

def count (s : Store) (counter : Statistics → Statistics) : Store :=
  { s with statistics := counter s.statistics }

def onBackend (s : Store) (change : Backend → Backend) : Store :=
  { s with backend := change s.backend }

def publish (s : Store) (change : ChangeSet) : Store := { s with feed := (s.feed.emit change).2 }

def describe (s : Store) : String :=
  s!"Store \x7b config: {s.config.describe}, stats: {s.statistics.describe}, .. \x7d"

end Store

/-- Something to be done once a batch is applied, and the tag under which the journal notes it. -/
structure Callback where
  tag : String
  action : Store → Store

namespace Callback

/-- A callback that leaves nothing but its note. -/
def silent (tag : String) : Callback := ⟨tag, id⟩

/-- Runs a callback. The journal notes it before it acts. -/
def run (c : Callback) (s : Store) : Store :=
  c.action (s.note (.callback c.tag s.backend.size s.statistics.entitiesWritten))

def runAll (callbacks : List Callback) (s : Store) : Store :=
  callbacks.foldl (fun s c => c.run s) s

end Callback

end EntityStore
