import EntityStore.Proofs.Repair.Lockstep
import EntityStore.Proofs.Repair.Termination
import EntityStore.Proofs.Repair.Treatment

/-!
# Commits that are tried again

A commit that the backend rejects leaves the working set as the repair has left it, and that needs
no further repair. So the next commit hands over the same batch, and the one that is accepted at
last writes and publishes what the first would have (`Work.Attempt.rejected`,
`Work.Attempt.accepted`).
-/

namespace EntityStore

open Repair

namespace Backend

variable {b : Backend} {failures offered rejected : Nat}

theorem update_rejectFirst_of_lt
    (h : b.instrument = .gate (rejectFirst failures) offered rejected) (hmore : offered < failures)
    (batch : Batch) :
    ∃ message, b.update batch = (.error (.backend message),
      ⟨b.memory.note (.rejected batch),
        .gate (rejectFirst failures) (offered + 1) (rejected + 1)⟩) := by
  simp only [update, h, rejectFirst, if_pos hmore]
  exact ⟨_, rfl⟩

theorem update_rejectFirst_of_le
    (h : b.instrument = .gate (rejectFirst failures) offered rejected) (hlast : failures ≤ offered)
    (batch : Batch) :
    b.update batch = (.ok (),
      ⟨b.memory.apply batch, .gate (rejectFirst failures) (offered + 1) rejected⟩) := by
  simp only [update, h, rejectFirst, if_neg (Nat.not_lt.2 hlast)]

end Backend

namespace Work

/-- A commit that can be made and comes to the backend, with the unit of work as it is then: the
working set is repaired if it is to be. -/
structure Prepares (run : HookRunner) (w u : Work) : Prop where
  active : w.txn.state = .active
  pending : w.txn.isEmpty = false
  repair : w.txn.ensureIntegrity = true → ensureIntegrity run (w.inState .committing) = (.ok (), u)
  unrepaired : w.txn.ensureIntegrity = false → u = w.inState .committing

/-- What the repair of a commit leaves when it is over. -/
structure Prepared (w u : Work) : Prop where
  records : u.Kept (isRecord · = true) (fun _ _ _ => True) fun _ => True
  state : u.txn.state = .committing
  pending : u.txn.isEmpty = false
  settings : w.SameSettings u
  callbacks : u.txn.callbacks = w.txn.callbacks
  store : w.store.Still u.store
  tended : w.txn.ensureIntegrity = true → u.Tended ∧ u.txn.ensuring = false

variable {run : HookRunner} {u u' v w w' : Work} {b : Backend} {err : StoreError}
  {calls : Callback → Prop}

/-- What refines a working set that is not empty is not empty. -/
theorem Refines.pending (h : w.Refines w') (hw : w.txn.isEmpty = false) :
    w'.txn.isEmpty = false := by
  rw [← Bool.not_eq_true, Transaction.isEmpty_iff, not_and_or] at hw
  rcases hw with hput | hgone
  · obtain ⟨id, hput⟩ := not_forall.1 hput
    obtain ⟨e, he⟩ := Index.contains_iff_find?.1 (Bool.eq_true_of_not_eq_false hput)
    rcases h.put id e he with hd | ⟨_, e', -, he'⟩
    · exact Transaction.isEmpty_of_deleted hd
    · exact Transaction.isEmpty_of_put (Index.contains_iff_find?.2 ⟨e', he'⟩)
  · obtain ⟨id, hgone⟩ := not_forall.1 hgone
    exact Transaction.isEmpty_of_deleted (h.deleted id (Bool.eq_true_of_not_eq_false hgone))

namespace Prepares

/-! ## What a commit prepares -/

theorem writePending (h : w.Prepares run u) :
    (w.inState .committing).writePending run = u.applyPending := by
  cases hflag : w.txn.ensureIntegrity with
  | true => exact writePending_of_repaired (h.repair hflag) hflag
  | false =>
    rw [h.unrepaired hflag]
    exact writePending_as_is run hflag

theorem commit_rejected (h : w.Prepares run u)
    (hb : u.store.backend.update u.txn.batch = (.error err, b)) :
    w.commit run =
      (.error err, ((u.withBackend b).inState .active).count Statistics.countCommitFailure) := by
  refine commit_of_failed h.active h.pending ?_
  rw [h.writePending, applyPending, hb]
  rfl

theorem commit_applied (h : w.Prepares run u)
    (hb : u.store.backend.update u.txn.batch = (.ok (), b)) :
    w.commit run =
      (.ok (), ((u.withBackend b).settle.finish .committed).count Statistics.countCommit) := by
  refine commit_of_written h.active h.pending ?_
  rw [h.writePending, applyPending, hb]
  rfl

section

variable (hrun : Honours run)
include hrun

theorem of_records (hw : w.Kept (isRecord · = true) (fun _ _ _ => True) calls)
    (hactive : w.txn.state = .active) (hpending : w.txn.isEmpty = false)
    (hroom : w.HasRoom) : ∃ u, w.Prepares run u := by
  cases hflag : w.txn.ensureIntegrity with
  | false =>
    exact ⟨_, hactive, hpending, fun hon => absurd (hflag.symm.trans hon) (by simp), fun _ => rfl⟩
  | true =>
    obtain ⟨_, _, u, hu, -⟩ :=
      hw.committing.ensureIntegrity hrun (hroom.congr rfl rfl rfl)
    exact ⟨u, hactive, hpending, fun _ => hu, fun hoff => absurd (hflag.symm.trans hoff) (by simp)⟩

theorem prepared (h : w.Prepares run u)
    (hw : w.Kept (isRecord · = true) (fun _ _ _ => True) calls) : w.Prepared u := by
  have hclerical := hw.committing
  cases hflag : w.txn.ensureIntegrity with
  | false =>
    obtain rfl := h.unrepaired hflag
    exact ⟨hclerical.kept, rfl, h.pending, ⟨rfl, rfl⟩, rfl, .refl _,
      fun hon => absurd (hflag.symm.trans hon) (by simp)⟩
  | true =>
    have hrepair := h.repair hflag
    have hstill := (Tending.ensureIntegrity accounts_records hrun hclerical).2
    have hbetween := between_ensureIntegrity hrun (hclerical.kept.sound accounts_records)
    have hrefines := treated_refines.ensureIntegrity accounts_records hrun hclerical
    rw [hrepair] at hstill hbetween hrefines
    obtain ⟨hrecords, htended⟩ := hclerical.tended hrun hrepair
    exact ⟨hrecords.kept, hbetween.adjusts.state, hrefines.pending h.pending,
      ⟨hbetween.settings.repairing, hbetween.settings.ignoring⟩, hbetween.adjusts.callbacks,
      hstill, fun _ => htended⟩

/-- Commits on two stores with the same settings and committed entities prepare the same. -/
theorem twin (h : w.Prepares run u) (hw : w.Kept (isRecord · = true) (fun _ _ _ => True) calls)
    (htwins : w.Twins w') : ∃ u', w'.Prepares run u' ∧ u.Twins u' := by
  have hbegun : (w.inState .committing).Twins (w'.inState .committing) := htwins.onTxn _
  have hactive : w'.txn.state = .active := htwins.txn ▸ h.active
  have hpending : w'.txn.isEmpty = false := htwins.txn ▸ h.pending
  cases hflag : w.txn.ensureIntegrity with
  | false =>
    obtain rfl := h.unrepaired hflag
    exact ⟨_, ⟨hactive, hpending,
      fun hon => absurd (hflag.symm.trans (htwins.txn ▸ hon)) (by simp), fun _ => rfl⟩, hbegun⟩
  | true =>
    obtain ⟨hresult, hrepaired⟩ :=
      hbegun.ensureIntegrity hrun (hw.committing.kept.sound accounts_records) rfl
    rw [h.repair hflag] at hresult hrepaired
    cases hrepair : (w'.inState .committing).ensureIntegrity run with | mk result u'
    rw [hrepair] at hresult hrepaired
    obtain rfl : result = .ok () := hresult
    exact ⟨u', ⟨hactive, hpending, fun _ => hrepair,
      fun hoff => absurd (hflag.symm.trans (htwins.txn ▸ hoff)) (by simp)⟩, hrepaired⟩

/-- What was prepared once is prepared again as it is. -/
theorem again (h : w.Prepared u) (hv : v.txn = { u.txn with state := .active })
    (hrecords : v.Kept (isRecord · = true) (fun _ _ _ => True) calls)
    (htable : v.store.backend.table = u.store.backend.table) (hpasses : 0 < v.maxPasses) :
    ∃ u', v.Prepares run u' ∧ u'.txn = u.txn := by
  have hactive : v.txn.state = .active := by rw [hv]
  have hpending : v.txn.isEmpty = false := by
    rw [hv]
    exact h.pending
  have hflags : v.txn.ensureIntegrity = w.txn.ensureIntegrity := by
    rw [hv]
    exact h.settings.repairing
  have hbegun : (v.inState .committing).txn = u.txn := by
    change { v.txn with state := .committing } = u.txn
    rw [hv, ← h.state]
  cases hflag : v.txn.ensureIntegrity with
  | false =>
    exact ⟨_, ⟨hactive, hpending, fun hon => absurd (hflag.symm.trans hon) (by simp),
      fun _ => rfl⟩, hbegun⟩
  | true =>
    obtain ⟨htended, hensuring⟩ := h.tended (hflags ▸ hflag)
    have hready : (v.inState .committing).Tended :=
      htended.congr (by rw [hbegun]) (by rw [hbegun]) (by rw [hbegun]) htable
    obtain ⟨u', hrepair, htxn⟩ := hready.ensureIntegrity hrun hrecords.committing hpasses
    refine ⟨u', ⟨hactive, hpending, fun _ => hrepair,
      fun hoff => absurd (hflag.symm.trans hoff) (by simp)⟩, ?_⟩
    rw [htxn, hbegun, ← hensuring]

end

theorem written (h : w.Prepares run u) (hu : w.Prepared u)
    (hb : u.store.backend.update u.txn.batch = (.ok (), b)) :
    ∃ w' mid, w.commit run = (.ok (), w') ∧
      w.store.Delivers u.txn.batch u.txn.changeSet mid ∧
      (Callback.runAll w.txn.callbacks mid).Unmoved w'.store := by
  refine ⟨_, _, h.commit_applied hb, .of_unmoved hu.store.toUnmoved
    (delivers_applied (Backend.update_ok hb)), ?_⟩
  rw [← hu.callbacks]
  exact u.unmoved_committed b

end Prepares

/-! ## Commits again and again -/

/-- Commits so many times. -/
def retried (run : HookRunner) (w : Work) : Nat → Work
  | 0 => w
  | n + 1 => ((w.retried run n).commit run).2

/-- A unit of work whose commit has been rejected so many times, by a backend that rejects the first
batches. Nothing has moved since the first attempt, and the next prepares what that one did. -/
structure Attempt (run : HookRunner) (failures : Nat) (w : Work) (prepared : Transaction)
    (rejections : Nat) (v : Work) : Prop where
  prepares : ∃ u, v.Prepares run u ∧ v.Prepared u ∧ u.txn = prepared
  store : w.store.Unmoved v.store
  config : v.store.config = w.store.config
  callbacks : v.txn.callbacks = w.txn.callbacks
  instrument : ∃ rejected,
    v.store.backend.instrument = .gate (Backend.rejectFirst failures) rejections rejected

namespace Attempt

variable {failures rejections : Nat} {prepared : Transaction}

/-- A commit that is rejected leaves what it has prepared. -/
theorem rejected (hrun : Honours run) (hpasses : 0 < w.maxPasses)
    (h : Attempt run failures w prepared rejections v) (hmore : rejections < failures) :
    ∃ message v', v.commit run = (.error (.backend message), v') ∧
      v'.txn = { prepared with state := .active } ∧
      Attempt run failures w prepared (rejections + 1) v' := by
  obtain ⟨u, hprepares, hu, rfl⟩ := h.prepares
  obtain ⟨rejected, hinstrument⟩ := h.instrument
  obtain ⟨message, hb⟩ := Backend.update_rejectFirst_of_lt
    (hu.store.instrument.trans hinstrument) hmore u.txn.batch
  have hrejected := unmoved_rejected (Backend.update_error hb)
  have hcommit := hprepares.commit_rejected hb
  generalize hv' : ((u.withBackend _).inState .active).count Statistics.countCommitFailure = v'
    at hcommit
  have htxn : v'.txn = { u.txn with state := .active } := by rw [← hv']; rfl
  have hmoved : u.store.Unmoved v'.store := by
    rw [← hv']
    exact hrejected.trans ⟨rfl, rfl, rfl, rfl⟩
  have hconfig : v'.store.config = u.store.config := by rw [← hv']; rfl
  have hrecords : v'.Kept (isRecord · = true) (fun _ _ _ => True) fun _ => True :=
    hu.records.of_eq (by rw [htxn]) (by rw [htxn]) (by rw [htxn])
      (by rw [htxn, hu.records.checking]) (by rw [htxn]) hmoved.table
  have hsettings : v'.store.config = w.store.config :=
    hconfig.trans (hu.store.config.trans h.config)
  have hpasses' : 0 < v'.maxPasses := by rwa [maxPasses, hsettings]
  obtain ⟨u', hagain, hsame⟩ := Prepares.again hrun hu htxn hrecords hmoved.table hpasses'
  refine ⟨message, v', hcommit, htxn, ⟨u', hagain, hagain.prepared hrun hrecords, hsame⟩,
    h.store.trans (hu.store.toUnmoved.trans hmoved), hsettings, ?_, rejected + 1, ?_⟩
  · rw [htxn]
    exact hu.callbacks.trans h.callbacks
  · rw [← hv']
    rfl

/-- The commit after the last rejection writes what was prepared. -/
theorem accepted (h : Attempt run failures w prepared rejections v)
    (hlast : failures ≤ rejections) :
    ∃ v' mid, v.commit run = (.ok (), v') ∧
      w.store.Delivers prepared.batch prepared.changeSet mid ∧
      (Callback.runAll w.txn.callbacks mid).Unmoved v'.store := by
  obtain ⟨u, hprepares, hu, rfl⟩ := h.prepares
  obtain ⟨rejected, hinstrument⟩ := h.instrument
  have hb := Backend.update_rejectFirst_of_le (hu.store.instrument.trans hinstrument) hlast
    u.txn.batch
  obtain ⟨v', mid, hcommit, hdelivers, hcalled⟩ := hprepares.written hu hb
  rw [h.callbacks] at hcalled
  exact ⟨v', mid, hcommit, .of_unmoved h.store hdelivers, hcalled⟩

theorem retried (hrun : Honours run) (hpasses : 0 < w.maxPasses)
    (h : Attempt run failures w prepared 0 w) (hle : rejections ≤ failures) :
    Attempt run failures w prepared rejections (w.retried run rejections) := by
  induction rejections with
  | zero => exact h
  | succ rejections ih =>
    obtain ⟨_, v', hcommit, -, hnext⟩ := (ih (by omega)).rejected hrun hpasses (by omega)
    rw [Work.retried, hcommit]
    exact hnext

end Attempt

end Work

end EntityStore
