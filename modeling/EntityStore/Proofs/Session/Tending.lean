import EntityStore.Proofs.Session.Bookkeeping

/-!
# Sessions of entities that look after themselves

Clients bring in customers, orders and their lines, attachments, nodes and records only, of which
each looks after nothing but itself when it is checked. However their moves interleave, the
committed entities and those to be put stay of these kinds, whatever the backend rejects and
whatever callbacks transact in between.
-/

namespace EntityStore

open Repair

/-- A callback that brings in only entities that look after themselves. -/
def Callback.Tending (c : Callback) : Prop :=
  ∀ s : Store, s.Holds (tendsItself · = true) → (c.run s).Holds (tendsItself · = true)

/-- Operations that bring in only entities that look after themselves. -/
def Operation.Tending : Operation → Prop
  | .persist e | .modified e _ _ | .deleteEntity e => tendsItself e = true
  | .afterCommit c => c.Tending
  | _ => True

/-- What is known of a unit of work of entities that look after themselves. -/
abbrev Work.OfTending (w : Work) : Prop :=
  w.Kept (tendsItself · = true) (fun _ _ _ => True) Callback.Tending

theorem Work.accounts_tending :
    Work.Accounts (tendsItself · = true) (fun _ _ _ => True) True where
  tends h := h
  drops _ hdrop := hdrop.tendsItself
  fresh _ := trivial
  noted _ _ _ := trivial
  muted := fun _ _ _ _ _ _ _ _ _ => trivial

theorem Operation.respects_tending :
    Operation.Respects (tendsItself · = true) (fun _ _ _ => True) Callback.Tending True
      fun _ op => op.Tending := by
  have hbrings : ∀ op : Operation,
      op.Tending = op.Brings (tendsItself · = true) Callback.Tending := by
    intro op
    cases op <;> rfl
  simpa only [hbrings] using Operation.respects_brings (fun he => he) Callback.Tending

theorem Store.carries_tending :
    Store.Carries (tendsItself · = true) (fun _ _ _ => True) Callback.Tending fun _ => True :=
  Store.carries_preserves _

namespace Session

variable {run : HookRunner} {s : Session} {m : Move}

/-- All entities of a session look after themselves. -/
abbrev OfTending (s : Session) : Prop :=
  s.Kept (tendsItself · = true) (fun _ _ _ => True) Callback.Tending

theorem OfTending.move (hrun : Honours run) (hs : s.OfTending) (hm : m.Asks Operation.Tending) :
    (s.move run m).OfTending :=
  Session.Kept.move Work.accounts_tending Store.carries_tending Operation.respects_tending hrun hs
    trivial (hm.obeys (fun _ _ hop => hop) trivial run s) (.inl fun _ _ _ _ h => h)

theorem OfTending.program (hrun : Honours run) (hs : s.OfTending) (name : String) {α : Type}
    {p : Program α} (hp : p.Asks Operation.Tending) :
    (p.run run (s.store.begin name)).2.OfTending :=
  ((hp.obeys (fun _ _ hop => hop) (s.store.begin name)).keeps
    (Work.kept_upholds Work.accounts_tending Store.carries_tending Operation.respects_tending hrun)
    ⟨kept_begin hs.committed name rfl, trivial⟩).1

theorem ofTending_of_reach (hrun : Honours run) {store : Store}
    (hstore : store.Holds (tendsItself · = true))
    (hreach : Reach run (fun _ m => m.Asks Operation.Tending) (start store) s) : s.OfTending :=
  hreach.invariant (I := OfTending) (kept_start fun h => hstore _ _ h) fun _ _ hu hm =>
    hu.move hrun hm

theorem tending_within (hrun : Honours run) (tag name : String) {p : Program (Result Unit)}
    (hp : p.Asks Operation.Tending) :
    Callback.Tending ⟨tag, fun store => (store.within run name (p.run run)).2⟩ := by
  intro store hholds
  have hstart : (start (store.note (.callback tag store.backend.size
      store.statistics.entitiesWritten))).OfTending := kept_start fun hf => hholds _ _ hf
  have hmoved := hstart.move hrun (m := .within name p) hp
  exact fun _ _ hf => hmoved.committed hf

end Session

end EntityStore
