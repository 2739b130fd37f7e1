import EntityStore.Hook.Repair

/-!
# Scripted hooks

The hooks of a probe are scripts: lists of actions, each of which may depend on whether some entity
is there, and each of which may fail. A failing action ends the hook, unless its error is to be
noted in the journal and passed over.
-/

namespace EntityStore

inductive Script.Act where
  | delete (id : EntityId)
  | deleteSelf
  | deleteEntity (id : EntityId)
  | set (field : String) (value : PropertyValue)
  /-- Sets a field of the probe and tells nobody. -/
  | setQuietly (field : String) (value : PropertyValue)
  /-- Records a change of a field that does not happen. -/
  | mark (field : String) (value : PropertyValue)
  /-- Counts a field up to a limit. -/
  | bump (field : String) (limit : Nat)
  | setOther (id : EntityId) (field : String) (value : PropertyValue)
  | persist (snapshot : Properties)
  | persistSelf
  | require (id : EntityId)
  | repair
  | fail (message : String)
  | commit
  | rollback
  | look (id : EntityId)
  | find (query : Query)

structure Script.Action where
  /-- The action is skipped if this entity is there. -/
  ifMissing : Option EntityId
  /-- The action is skipped if this entity is not there. -/
  ifPresent : Option EntityId
  /-- Whether the outcome goes to the journal and the hook goes on. -/
  swallow : Bool
  act : Script.Act

abbrev Script := List Script.Action

abbrev Scripts := EntityId → Hook → Script

namespace Script

open Program

/-- An action has been carried out, or not; the probe is as given. -/
def conclude (e : Entity) (result : Result Unit) : Program (Entity × Result Unit) :=
  done (e, result)

/-- Asks for an operation and passes its outcome on. -/
def report (e : Entity) (op : Operation) (outcome : op.Reply → Result Unit) :
    Program (Entity × Result Unit) :=
  ask op fun reply => conclude e (outcome reply)

def bump (e : Entity) (field : String) (limit : Nat) : Program (Entity × Result Unit) :=
  match e.counter field with
  | .error err => conclude e (.error err)
  | .ok n =>
    if limit ≤ n then conclude e (.ok ())
    else
      let value := some (toString (n + 1))
      let counted := e.setField field value
      report counted (.modified counted field value) id

def perform (registry : Registry) (e : Entity) : Act → Program (Entity × Result Unit)
  | .delete target => report e (.delete target) id
  | .deleteSelf => report e (.delete e.id) id
  | .deleteEntity target =>
    ask (.get target) fun
      | .error err => conclude e (.error err)
      | .ok other => report e (.deleteEntity other) id
  | .set field value =>
    let changed := e.setField field value
    report changed (.modified changed field value) id
  | .setQuietly field value => conclude (e.setField field value) (.ok ())
  | .mark field value => report e (.modified e field value) id
  | .bump field limit => bump e field limit
  | .setOther target field value =>
    ask (.get target) fun
      | .error err => conclude e (.error err)
      | .ok other =>
        match other.withField field value with
        | .error err => conclude e (.error err)
        | .ok changed => report e (.modified changed field value) id
  | .persist snapshot =>
    match registry.materialize snapshot with
    | .error err => conclude e (.error err)
    | .ok other => report e (.persist other) id
  | .persistSelf => report e (.persist e) id
  | .require target => report e (.get target) fun reply => Except.map (fun _ => ()) reply
  | .repair => conclude e (.error (Repair.missingMaster e))
  | .fail message => conclude e (.error (.illegalState message))
  | .commit => report e .commit id
  | .rollback => report e .rollback id
  | .look target =>
    ask (.contains target) fun contains => ask (.get target) fun found =>
      ask .inspect fun (t : Transaction) =>
        report e
          (.remark (.sighting
            { contains := contains, found := found, ensuring := t.ensuring, state := t.state,
              modified := t.modified.ids, deleted := t.deleted.keys }))
          fun _ => .ok ()
  | .find query =>
    ask (.findAll query) fun found => report e (.remark (.found found)) fun _ => .ok ()

/-- Skips what follows if an entity is there, or if it is not. -/
def guarding (target : Option EntityId) (skipIf : Bool) (skip go : Program HookOutcome) :
    Program HookOutcome :=
  match target with
  | none => go
  | some id => ask (.contains id) fun (found : Bool) => if found = skipIf then skip else go

def run (registry : Registry) : Script → Entity → Program HookOutcome
  | [], e => done ⟨e.body, .ok ()⟩
  | action :: rest, e =>
    guarding action.ifMissing true (run registry rest e) <|
      guarding action.ifPresent false (run registry rest e) <|
        (perform registry e action.act).andThen fun (e, result) =>
          if action.swallow then ask (.remark (.outcome result)) fun _ => run registry rest e
          else
            match result with
            | .error err => done ⟨e.body, .error err⟩
            | .ok () => run registry rest e

/-- The hooks of a store whose probes have scripts. The journal notes when the hook of a probe
begins. -/
def hooks (registry : Registry) (scripts : Scripts) : Hooks
  | hook, e =>
    match e.body with
    | .probe _ =>
      ask (.remark (.began hook e.id)) fun _ => run registry (scripts e.id hook) e
    | _ => Repair.hooks hook e

end Script

end EntityStore
