import EntityStore.Snapshot.Assignment
import EntityStore.Snapshot.Loaded

/-!
# Changing a snapshot

Assignments and deletions are applied to a snapshot in one transaction, which repairs the references
that the deletions leave dangling. What comes of it is the change set that the commit published, if
there was anything to write.
-/

namespace EntityStore

structure ApplyOptions where
  deletes : List EntityId
  sets : List String
  output : Option String
  skipIntegrity : Bool
  deriving DecidableEq

namespace ApplyOptions

def assignments (o : ApplyOptions) : Except ToolError (List Assignment) :=
  o.sets.mapM fun raw => (Assignment.parse raw).mapError fun err => .request err.message

end ApplyOptions

namespace Apply

def assign (run : HookRunner) (a : Assignment) (w : Work) : Result Unit × Work :=
  match w.get a.id with
  | .error err => (.error err, w)
  | .ok e => w.modified run (e.setField a.field a.value) a.field a.value

/-- Carries out an operation for each item of a list, up to the first that fails. -/
def each {α : Type} (operation : α → Work → Result Unit × Work) : List α → Work → Result Unit × Work
  | [], w => (.ok (), w)
  | item :: rest, w =>
    match operation item w with
    | (.error err, w) => (.error err, w)
    | (.ok (), w) => each operation rest w

def change (run : HookRunner) (assignments : List Assignment) (deletes : List EntityId) (w : Work) :
    Result Unit × Work :=
  match each (assign run) assignments w with
  | (.error err, w) => (.error err, w)
  | (.ok (), w) =>
    match each (fun id w => w.delete run id) deletes w with
    | (.error err, w) => (.error err, w)
    | (.ok (), w) => w.commit run

/-- Changes a loaded store in a transaction of the given name. The change set is the one that
reaches a subscription opened before. -/
def toLoaded (name : String) (assignments : List Assignment) (deletes : List EntityId)
    (skipIntegrity : Bool) (l : LoadedStore) : Result (Option ChangeSet × LoadedStore) :=
  let (subscription, feed) := l.store.feed.subscribe
  let begun := ({ l.store with feed := feed }).begin name
  let w := begun.onTxn fun t => { t with ensureIntegrity := !skipIntegrity }
  match change (Hooks.outermost Repair.hooks) assignments deletes w with
  | (.error err, _) => .error err
  | (.ok (), w) =>
    let (received, feed) := w.store.feed.drain subscription
    .ok (received.head?, l.withStore { w.drop with feed := feed })

def toSnapshot (name : String) (assignments : List Assignment) (o : ApplyOptions) (s : Snapshot) :
    Result (Option ChangeSet × Snapshot) :=
  match s.load Config.standard with
  | .error err => .error err
  | .ok l =>
    (toLoaded name assignments o.deletes o.skipIntegrity l).map fun r => (r.1, r.2.toSnapshot)

def writeOutput (s : Snapshot) : Option String → FileProgram (Except ToolError Unit)
  | none => .done (.ok ())
  | some path => s.write path

/-- Changes the snapshot in a file. The assignments are read before the file is. -/
def run (path : String) (o : ApplyOptions) : FileProgram (Except ToolError (Option ChangeSet)) :=
  match o.assignments with
  | .error err => .done (.error err)
  | .ok assignments =>
    (Snapshot.read path).andThen fun s =>
      match toSnapshot ("apply " ++ path) assignments o s with
      | .error err => .done (.error (.store err))
      | .ok (change, changed) =>
        (writeOutput changed o.output).andThen fun () => .done (.ok change)

def report : Option ChangeSet → String
  | none => "No changes\n"
  | some change => change.toJson.pretty ++ "\n"

end Apply

end EntityStore
