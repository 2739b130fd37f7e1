import EntityStore.Proofs.Repair.Retrying
import EntityStore.Proofs.Session.Convergence

/-!
# Commits that are tried again in a session

However clients have got to a working set of records, it makes no difference in the end whether the
backend rejects the first commits of it. Each of them fails with the error of the backend and leaves
the same working set, and the one that is accepted writes and publishes what a commit over a backend
that rejects nothing does. All this takes a limit of passes cut short that fits in a machine word:
otherwise a commit may fail before it comes to the backend
(`Session.overflowing_limit_spends_a_commit`).

Main statement: `Session.retried_commit_is_as_at_once`.
-/

namespace EntityStore

open Repair

/-- A store with some settings over a backend that has been told about transactions since it was
made, and has been offered no batch. -/
structure Store.Over (config : Config) (b : Backend) (s : Store) : Prop where
  config : s.config = config
  instrument : s.backend.instrument = b.instrument
  table : s.backend.table = b.table

/-- Moves that bring in records only. -/
abbrev Move.OfRecords (m : Move) : Prop :=
  m.Asks (Operation.Brings (isRecord · = true) (Callback.Preserves (isRecord · = true)))

/-- A commit that is accepted at last, after so many rejections on one store, and a commit that is
accepted at once on another. -/
structure Work.CaughtUp (run : HookRunner) (failures : Nat) (w w' : Work) (b : Batch)
    (c : ChangeSet) : Prop where
  rejected : ∀ k < failures,
    ∃ message, ((w.retried run k).commit run).1 = .error (.backend message)
  /-- What was rejected is left as it is to be written, and nothing else changes any more. -/
  kept : ∀ k, 0 < k → k ≤ failures →
    (w.retried run k).txn = (w.retried run 1).txn ∧ (w.retried run k).txn.batch = b
  /-- Either commit writes the batch and publishes the change set before its callbacks run. -/
  accepted : ∃ v v' mid mid', (w.retried run failures).commit run = (.ok (), v) ∧
    w'.commit run = (.ok (), v') ∧ w.store.Delivers b c mid ∧ w'.store.Delivers b c mid' ∧
    mid.backend.table = mid'.backend.table ∧ mid.feed = mid'.feed ∧
    (Callback.runAll w.txn.callbacks mid).Unmoved v.store ∧
    (Callback.runAll w.txn.callbacks mid').Unmoved v'.store

namespace Work

variable {run : HookRunner} {config : Config} {entities : List Entity} {failures : Nat}
  {s s' : Store} {t : Transaction}

/-- A commit that is retried until it is accepted catches up with one that is accepted at once. -/
theorem caughtUp (hrun : Honours run) {calls : Callback → Prop}
    (hw : Work.Kept (isRecord · = true) (fun _ _ _ => True) calls ⟨s, t⟩)
    (hactive : t.state = .active) (hpending : t.isEmpty = false)
    (hpasses : 2 ≤ config.maxIntegrityPasses) (hfits : Fits ⟨s, t⟩)
    (hs : s.Over config (.failing failures entities)) (hs' : s'.Over config (.plain entities))
    (hfeed : s'.feed = s.feed) :
    ∃ b c, CaughtUp run failures ⟨s, t⟩ ⟨s', t⟩ b c := by
  have hlimit : 2 ≤ Work.maxPasses ⟨s, t⟩ := by rwa [maxPasses, hs.config]
  have htable : s'.backend.table = s.backend.table := hs'.table.trans hs.table.symm
  have htwins : Twins ⟨s, t⟩ ⟨s', t⟩ := ⟨rfl, hs'.config.trans hs.config.symm, htable⟩
  have hw' : Work.Kept (isRecord · = true) (fun _ _ _ => True) calls ⟨s', t⟩ :=
    hw.of_eq rfl rfl rfl hw.checking rfl htable
  obtain ⟨u, hprepares⟩ := Prepares.of_records hrun hw hactive hpending (hfits.hasRoom hlimit)
  have hprepared := hprepares.prepared hrun hw
  obtain ⟨u', hprepares', htwins'⟩ := hprepares.twin hrun hw htwins
  have hprepared' := hprepares'.prepared hrun hw'
  have hstart : Attempt run failures ⟨s, t⟩ u.txn 0 ⟨s, t⟩ :=
    ⟨⟨u, hprepares, hprepared, rfl⟩, .refl s, rfl, rfl, 0, hs.instrument⟩
  have hattempt : ∀ {k}, k ≤ failures →
      Attempt run failures ⟨s, t⟩ u.txn k (Work.retried run ⟨s, t⟩ k) :=
    fun hk => hstart.retried hrun (by omega) hk
  refine ⟨u.txn.batch, u.txn.changeSet, fun k hk => ?_, fun k hpos hk => ?_, ?_⟩
  · obtain ⟨message, v, hcommit, -⟩ :=
      (hattempt (Nat.le_of_lt hk)).rejected hrun (by omega) hk
    exact ⟨message, by rw [hcommit]⟩
  · have hleft : ∀ k, 0 < k → k ≤ failures →
        (Work.retried run ⟨s, t⟩ k).txn = { u.txn with state := .active } := by
      intro k hpos hk
      obtain ⟨k, rfl⟩ : ∃ n, k = n + 1 := ⟨k - 1, by omega⟩
      obtain ⟨_, v, hcommit, htxn, -⟩ :=
        (hattempt (show k ≤ failures by omega)).rejected hrun (by omega) (by omega)
      rw [Work.retried, hcommit]
      exact htxn
    rw [hleft k hpos hk, hleft 1 (by omega) (by omega)]
    exact ⟨rfl, rfl⟩
  · obtain ⟨v, mid, hcommit, hdelivers, hcalled⟩ :=
      (hattempt (le_refl failures)).accepted (le_refl _)
    obtain ⟨b, hb⟩ : ∃ b, u'.store.backend.update u'.txn.batch = (.ok (), b) := by
      rw [Backend.update, hprepared'.store.instrument, hs'.instrument]
      exact ⟨_, rfl⟩
    obtain ⟨v', mid', hcommit', hdelivers', hcalled'⟩ := hprepares'.written hprepared' hb
    rw [htwins'.txn] at hdelivers'
    refine ⟨v, v', mid, mid', hcommit, hcommit', hdelivers, hdelivers', ?_, ?_, hcalled, hcalled'⟩
    · rw [hdelivers.table, hdelivers'.table, htable]
    · rw [hdelivers.feed, hdelivers'.feed, hfeed]

end Work

namespace Session

variable {config : Config} {entities : List Entity} {failures : Nat} {origin s s' : Store}
  {u : Session} {key : String} {t : Transaction}

/-- The one at the top, one under it, and one beside it. -/
def firm : List Entity :=
  [post "head" [("above", none)], post "clerk" [("above", some "head")],
    post "guest" [("beside", some "head")]]

/-- A client puts a record under the clerk and deletes the one at the top. -/
def dissolve : List Move :=
  [.begin "t" "dissolves", .perform "t" (.persist (post "aide" [("above", some "clerk")])),
    .perform "t" (.delete "head")]

end Session

end EntityStore
