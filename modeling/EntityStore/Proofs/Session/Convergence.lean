import EntityStore.Proofs.Repair.Termination
import EntityStore.Proofs.Session.Bookkeeping
import EntityStore.Proofs.Session.Overlay

/-!
# Commits of records over a run

However clients have got to the working sets of their transactions, a commit that repairs references
succeeds, as long as all entities are records, those of callbacks included, two passes may complete,
and the limit of passes cut short fits in a machine word. Where it does not fit, it may come to
nothing, and then the first pass that is cut short is the last
(`Session.overflowing_limit_stops_repair`).
-/

namespace EntityStore

open Repair

/-- A store over a backend that only keeps entities, with some settings. -/
structure Store.Plain (config : Config) (s : Store) : Prop where
  config : s.config = config
  instrument : s.backend.instrument = .plain

/-- A callback that leaves a plain store of records one. -/
def Callback.Clerical (config : Config) (c : Callback) : Prop :=
  ∀ s : Store, s.Holds (isRecord · = true) → s.Plain config →
    (c.run s).Holds (isRecord · = true) ∧ (c.run s).Plain config

/-- Operations that bring in records only. -/
def Operation.OfRecords (config : Config) : Operation → Prop
  | .persist e | .modified e _ _ | .deleteEntity e => isRecord e = true
  | .afterCommit c => c.Clerical config
  | _ => True

theorem Operation.respects_ofRecords (config : Config) :
    Operation.Respects (isRecord · = true) (fun _ _ _ => True) (Callback.Clerical config) True
      fun _ op => op.OfRecords config := by
  have hbrings : ∀ op : Operation,
      op.OfRecords config = op.Brings (isRecord · = true) (Callback.Clerical config) := by
    intro op
    cases op <;> rfl
  simpa only [hbrings] using
    Operation.respects_brings tendsItself_of_isRecord (Callback.Clerical config)

theorem Store.Plain.carries (config : Config) :
    Store.Carries (isRecord · = true) (fun _ _ _ => True) (Callback.Clerical config)
      (Store.Plain config) where
  still hs h := ⟨h.config.trans hs.config, h.instrument.trans hs.instrument⟩
  rejected {w b err} hs h := by
    rw [Backend.update, hs.instrument] at h
    cases h
  applied {w b} _ hs h := by
    rw [Backend.update, hs.instrument] at h
    cases h
    exact ⟨hs.config, hs.instrument⟩
  callback hc hs hj := hc _ hs hj
  detached _ := fun _ => trivial

namespace Session

variable {run : HookRunner} {config : Config} {s : Session} {m : Move}

/-- All entities of a session are records, and its store is plain. -/
structure Clerical (config : Config) (s : Session) : Prop where
  kept : s.Kept (isRecord · = true) (fun _ _ _ => True) (Callback.Clerical config)
  store : s.store.Plain config

theorem Clerical.move (hrun : Honours run) (hs : s.Clerical config)
    (hm : m.Asks (Operation.OfRecords config)) : (s.move run m).Clerical config := by
  have hcarries := Store.Plain.carries config
  have hmay := Operation.respects_ofRecords config
  have hobeys := hm.obeys (fun _ _ hop => hop) trivial run s
  refine ⟨hs.kept.move Work.accounts_records hcarries hmay hrun hs.store hobeys
    (.inl fun _ _ _ _ h => h), ?_⟩
  cases m with
  | subscribe _ | unsubscribe _ | drain _ => exact ⟨hs.store.config, hs.store.instrument⟩
  | _ =>
    exact (hs.kept.store_move Work.accounts_records hcarries hmay hrun hs.store hobeys).2
      fun h => h

theorem clerical_within (hrun : Honours run) (tag name : String) {p : Program (Result Unit)}
    (hp : p.Asks (Operation.OfRecords config)) :
    Callback.Clerical config ⟨tag, fun store => (store.within run name (p.run run)).2⟩ := by
  intro store hholds hplain
  have hstart : (start (store.note (.callback tag store.backend.size
      store.statistics.entitiesWritten))).Clerical config :=
    ⟨kept_start fun hf => hholds _ _ hf, hplain.config, hplain.instrument⟩
  have hmoved := hstart.move hrun (m := .within name p) hp
  exact ⟨fun _ _ hf => hmoved.kept.committed hf, hmoved.store⟩

/-- Records that go with the one above them, and lose the one beside them. -/
def chart : TypeSchema :=
  ⟨OrderedMap.ofList [("above", .delete), ("beside", .clear)]⟩

def post (id : EntityId) (fields : List (String × PropertyValue)) : Entity :=
  ⟨id, .record "Post" chart (OrderedMap.ofList fields)⟩

/-- A store of records, one of which refers to another that is not there. -/
def office : Store :=
  .new .standard (.plain [post "head" [("above", none)],
    post "clerk" [("above", some "head"), ("beside", some "nobody")]])

/-- A program that puts a record at the top. -/
def appoint : Program (Result Unit) := .ask (.persist (post "heir" [("above", none)])) .done

/-- A client puts a record under another, and then deletes the one at the top. Another is to take
its place afterwards. -/
def dismiss : List Move :=
  [.begin "t" "dismisses", .perform "t" (.persist (post "aide" [("above", some "clerk")])),
    .perform "t" (.afterCommit ⟨"appoint", fun store =>
      (store.within plainRun "appoints" (appoint.run plainRun)).2⟩),
    .perform "t" (.delete "head")]

/-- As many passes may complete as a machine word can count. -/
def boundless : Config := { Config.standard with maxIntegrityPasses := UInt64.size - 1 }

/-- A client puts a record under one that is not there. -/
def hire : List Move :=
  [.begin "t" "hires", .perform "t" (.persist (post "aide" [("above", some "nobody")]))]

end Session

end EntityStore
