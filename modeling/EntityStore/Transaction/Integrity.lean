import EntityStore.Transaction.Reading

/-!
# Repairing references

Before a batch is written, the entities to be put and those that the deletions may have left
dangling are asked to check themselves. A check may change or delete entities, so passes are
repeated until one of them leaves the working set as it was. A deletion cuts the pass short and
starts the next.

How a check runs is a parameter here: a runner takes an entity's hook and carries it out on the unit
of work.
-/

namespace EntityStore

/-- What a hook leaves: its entity's body, and whether it succeeded. -/
structure HookOutcome where
  body : Body
  result : Result Unit

/-- Carries out a hook of an entity. -/
abbrev HookRunner := Hook → Entity → Work → HookOutcome × Work

namespace Work

/-! ## One check -/

/-- The entity to check under an id: the one to be put, or else the committed one. -/
def candidate? (w : Work) (id : EntityId) : Option Entity :=
  (w.txn.modified.find? id).or (w.store.backend.table.find? id)

/-- Takes an entity out of the working set for the time of its check. -/
def checkOut (w : Work) (id : EntityId) : Work :=
  w.onTxn fun t => { t with modified := t.modified.remove id, checking := some id }

/-- Ends a check. The entity joins the working set if it was or is now part of it and has not been
deleted. -/
def checkIn (w : Work) (tracked : Bool) (e : Entity) : Work :=
  w.onTxn fun t =>
    if !t.deleted.contains e.id && (tracked || t.modified.contains e.id) then
      { t with checking := none, modified := t.modified.add e }
    else { t with checking := none }

/-- Lets the entity under an id check itself, if there is one. -/
def checkEntity (run : HookRunner) (id : EntityId) (w : Work) : Result Unit × Work :=
  match w.candidate? id with
  | none => (.ok (), w)
  | some e =>
    let (outcome, after) := run .check e (w.checkOut id)
    (outcome.result, after.checkIn (w.txn.modified.contains id) ⟨id, outcome.body⟩)

/-! ## One pass -/

/-- Checks the entities of a list that are still to be put. The ids checked are added to those
given; an error ends the pass. -/
def checkModified (run : HookRunner) : List EntityId → OrderedSet → Work → Result OrderedSet × Work
  | [], checked, w => (.ok checked, w)
  | id :: rest, checked, w =>
    if w.txn.modified.contains id then
      match checkEntity run id w with
      | (.ok (), w) => checkModified run rest (checked.add id) w
      | (.error err, w) => (.error err, w)
    else checkModified run rest checked w

/-- Checks the entities of a list that are neither deleted nor checked already. The ids checked are
added to those given; an error ends the pass. -/
def checkAffected (run : HookRunner) : List EntityId → OrderedSet → Work → Result OrderedSet × Work
  | [], checked, w => (.ok checked, w)
  | id :: rest, checked, w =>
    if w.txn.deleted.contains id || checked.contains id then checkAffected run rest checked w
    else
      match checkEntity run id w with
      | (.ok (), w) => checkAffected run rest (checked.add id) w
      | (.error err, w) => (.error err, w)

def referrerQuery (w : Work) : Query :=
  Query.passing none fun e => e.references.any w.txn.deleted.contains

def committedReferences (w : Work) (id : EntityId) : List EntityId :=
  match w.store.backend.table.find? id with
  | some e => e.references
  | none => []

/-- An entity joins what is affected by those of the given ids to which it refers. -/
def noteReferrer (targets : OrderedMap OrderedSet) (e : Entity) : OrderedMap OrderedSet :=
  e.references.foldl (fun targets id => targets.modify id (·.add e.id)) targets

/-- For each deleted id the ids that its deletion affects: those to which it referred and those of
the visible entities that refer to it, itself apart. -/
def affectedBy (w : Work) (referrers : List Entity) : OrderedMap OrderedSet :=
  let referred := w.txn.deleted.mapEntries fun id _ => OrderedMap.setOf (w.committedReferences id)
  (referrers.foldl noteReferrer referred).mapEntries fun id affected => affected.erase id

/-- For each deleted id the ids that its deletion affects. All referrers are found by one query. -/
def cascadeTargets (w : Work) : OrderedMap OrderedSet × Work :=
  let (referrers, w) := w.findAll w.referrerQuery
  (w.affectedBy referrers, w)

/-- One pass: the entities to be put are checked, then those that the deletions affect. A pass that
completes gives the ids that it has checked. -/
def integrityPass (run : HookRunner) (w : Work) : Result OrderedSet × Work :=
  match checkModified run w.txn.modified.ids .empty w with
  | (.error err, w) => (.error err, w)
  | (.ok checked, w) =>
    let (targets, w) := w.cascadeTargets
    checkAffected run (targets.values.flatMap OrderedMap.keys) checked w

/-! ## Passes until nothing changes -/

def beginPass (w : Work) : Work := w.onTxn fun t => { t with ensuring := true }

def endPass (w : Work) : Work :=
  (w.onTxn fun t => { t with ensuring := false }).count Statistics.countPass

/-- Repeats passes until one leaves the signature as it was, given how many have completed and how
many were cut short. The last argument bounds the passes to come. -/
def repeatPasses (run : HookRunner) (maxPasses maxRestarts : Nat) (passes restarts : Nat)
    (w : Work) :
    Nat → Result Unit × Work
  | 0 => (.error (.integrityNotConverged passes), w)
  | bound + 1 =>
    if passes ≥ maxPasses ∨ restarts > maxRestarts then
      (.error (.integrityNotConverged passes), w)
    else
      match integrityPass run w.beginPass with
      | (.error .integrityRestart, after) =>
        repeatPasses run maxPasses maxRestarts passes (restarts + 1)
          (after.endPass.count Statistics.countRestart) bound
      | (.error err, after) => (.error err, after.endPass)
      | (.ok _, after) =>
        if after.endPass.txn.signature = w.txn.signature then (.ok (), after.endPass)
        else repeatPasses run maxPasses maxRestarts (passes + 1) restarts after.endPass bound

def maxPasses (w : Work) : Nat := w.store.config.maxIntegrityPasses

/-- How many passes may be cut short: each deletes an entity, so the entities there are and as many
again as passes may complete. The sum is one of machine words, which starts again from zero when it
does not fit. Only the passes can bring it that far: no memory holds as many entities as half a word
can count, and from there on they are merely added. -/
def maxRestarts (w : Work) : Nat :=
  let entities := w.store.backend.size + w.txn.modified.size
  if entities < UInt64.size / 2 then (entities + w.maxPasses) % UInt64.size
  else entities + w.maxPasses

/-- Repairs references. No more passes can be needed than may complete and may be cut short. -/
def ensureIntegrity (run : HookRunner) (w : Work) : Result Unit × Work :=
  repeatPasses run w.maxPasses w.maxRestarts 0 0 w (w.maxPasses + w.maxRestarts + 1)

end Work

end EntityStore
