import EntityStore.Proofs.Repair.Convergence
import EntityStore.Proofs.Repair.Stability

/-!
# Repairs of records come to an end

Whatever a transaction over records is about to write, and whether modifications are ignored or not,
its repair succeeds. A pass that is cut short has deleted one more id, which was to be put or is
committed, and the pass after one that has completed changes nothing (`Work.counted_converges`). For
the same reason a working set that was repaired once stays as it is when it is repaired again
(`Work.Tended.ensureIntegrity`).
-/

namespace EntityStore

open Repair

namespace Work

variable {run : HookRunner} {u w w' : Work} {id : EntityId}

/-! ## Many passes -/

/-- What a repair over records has come to between its passes, of which so many have completed and
so many were cut short. -/
structure Counted (u : Work) (completed cut : Nat) (w : Work) : Prop where
  clerical : w.Clerical
  table : w.store.backend.table = u.store.backend.table
  known : ∀ id, w.Known id → u.Known id
  deletes : u.Deletes w
  size : w.txn.deleted.size = u.txn.deleted.size + cut
  passes : w.store.statistics.integrityPasses =
    u.store.statistics.integrityPasses + completed + cut
  restarts : w.store.statistics.integrityRestarts = u.store.statistics.integrityRestarts + cut

theorem Counted.start (hu : u.Clerical) : u.Counted 0 0 u :=
  ⟨hu, rfl, fun _ h => h, fun _ h => h, rfl, rfl, rfl⟩

theorem Tending.of_marks {P : Entity → Prop} {Rel : Option Entity → Entity → Properties → Prop}
    {calls : Callback → Prop} {mute : Prop} (hw : w.Tending P Rel calls mute) (ensuring : Bool)
    (s : Store) (htable : s.backend.table = w.store.backend.table) :
    Tending P Rel calls mute ⟨s, { w.txn with ensuring := ensuring }⟩ :=
  hw.of_eq (hw.kept.of_eq rfl rfl rfl hw.kept.checking rfl htable) rfl ⟨rfl, rfl⟩

/-- How many of the ids that there were are not deleted. -/
def unspent (u w : Work) : Nat :=
  remaining u.store.backend.table w + remaining u.txn.modified w

theorem unspent_lt (hknown : u.Known id) (h : w.Deletes w')
    (hd : w.txn.deleted.contains id = false) (hgone : w'.txn.deleted.contains id = true) :
    u.unspent w' < u.unspent w := by
  have htable := remaining_le u.store.backend.table h
  have hput := remaining_le u.txn.modified h
  simp only [unspent]
  rcases hknown with hin | hin
  · have := remaining_lt h hin hd hgone
    omega
  · have := remaining_lt h hin hd hgone
    omega

section

variable (hrun : Honours run) {completed cut : Nat}
include hrun

/-- One more pass has been cut short: one more id is deleted, which was known. -/
theorem Counted.after_cut {err : StoreError} (hw : u.Counted completed cut w)
    (h : Work.integrityPass run w.beginPass = (.error err, w')) :
    err = .integrityRestart ∧
      u.Counted completed (cut + 1) (w'.endPass.count Statistics.countRestart) ∧
      ∃ id, u.Known id ∧ w.txn.deleted.contains id = false ∧ w'.txn.deleted.contains id = true ∧
        w.Deletes w' := by
  obtain ⟨rfl, id, hcut⟩ := integrityPass_cut hrun (hw.clerical.of_marks true _ rfl) rfl h
  have hdeletes : w.Deletes w' := fun other hother => by
    have hother : w.txn.deleted.contains other = true := hother
    rw [hcut.deleted, OrderedMap.contains_add]
    exact Bool.or_eq_true_iff.2 (.inr hother)
  have hgone : w'.txn.deleted.contains id = true := by
    rw [hcut.deleted, OrderedMap.contains_add]
    simp
  refine ⟨rfl, ?_, id, hw.known id hcut.struck, hcut.fresh, hgone, hdeletes⟩
  have hsize : w'.txn.deleted.size = w.txn.deleted.size + 1 := by
    rw [hcut.deleted]
    exact OrderedMap.size_insert hcut.fresh _
  have hpasses : w'.store.statistics.integrityPasses = w.store.statistics.integrityPasses :=
    hcut.calm.passes
  have hrestarts : w'.store.statistics.integrityRestarts = w.store.statistics.integrityRestarts :=
    hcut.calm.restarts
  exact ⟨hcut.clerical.of_marks false _ rfl, hcut.calm.table.trans hw.table,
    fun other hother => hw.known other (hcut.known other hother),
    fun other hother => hdeletes other (hw.deletes other hother),
    hsize.trans (congrArg Nat.succ hw.size), congrArg Nat.succ (hpasses.trans hw.passes),
    congrArg Nat.succ (hrestarts.trans hw.restarts)⟩

/-- One more pass has completed: nothing more is deleted, and nothing is left to do. -/
theorem Counted.after_completed {checked : OrderedSet} (hw : u.Counted completed cut w)
    (h : Work.integrityPass run w.beginPass = (.ok checked, w')) :
    u.Counted (completed + 1) cut w'.endPass ∧ w'.endPass.Tended := by
  have hbegin : w.beginPass.Clerical := hw.clerical.of_marks true _ rfl
  have hamid := integrityPass_amid hrun hbegin rfl h
  have hpasses : w'.store.statistics.integrityPasses = w.store.statistics.integrityPasses :=
    hamid.calm.passes
  have hdeleted : w'.txn.deleted = w.txn.deleted := hamid.deleted
  refine ⟨⟨hamid.clerical.of_marks false _ rfl, hamid.calm.table.trans hw.table,
    fun other hother => hw.known other (hamid.known other hother),
    fun other hother => hdeleted ▸ hw.deletes other hother,
    (congrArg OrderedMap.size hdeleted).trans hw.size, ?_,
    hamid.calm.restarts.trans hw.restarts⟩,
    (integrityPass_tended hrun hbegin rfl h).congr rfl rfl rfl rfl⟩
  refine (congrArg Nat.succ (hpasses.trans hw.passes)).trans ?_
  omega

theorem Tended.markedPass (h : w.Tended) (hw : w.Clerical) :
    ∃ checked v, Work.integrityPass run w.beginPass = (.ok checked, v) ∧
      v.endPass.txn = { w.txn with ensuring := false } ∧
      v.endPass.txn.signature = w.txn.signature := by
  have hbegin : w.beginPass.Tended := h.congr rfl rfl rfl rfl
  obtain ⟨checked, v, heq, hidle⟩ := hbegin.integrityPass hrun (hw.of_marks true _ rfl) rfl
  have htxn : v.endPass.txn = { w.txn with ensuring := false } := by
    change { v.txn with ensuring := false } = { w.txn with ensuring := false }
    rw [hidle.txn]
    rfl
  exact ⟨checked, v, heq, htxn, by rw [htxn]; rfl⟩

/-- Repairs of records come to an end. -/
theorem counted_converges (u : Work) : Converges run u.Counted Tended u.unspent where
  cut {_ _ w _ w'} hw h := by
    obtain ⟨herr, hcounted, id, hknown, hd, hgone, hdeletes⟩ := hw.after_cut hrun h
    have hless : u.unspent w' < u.unspent w := unspent_lt hknown hdeletes hd hgone
    exact ⟨herr, hcounted, hless⟩
  completed hw h := (hw.after_completed hrun h).imp id .inr
  settled hw hset := by
    obtain ⟨checked, w', heq, -, hsignature⟩ := hset.markedPass hrun hw.clerical
    exact ⟨checked, w', heq, hsignature⟩

/-- The repair of a working set of records succeeds if its limits leave room for it, after at most
two passes that complete and at most as many cut short as there are entities committed and to be
put. -/
theorem Clerical.ensureIntegrity (hw : w.Clerical) (hroom : w.HasRoom) :
    ∃ completed cut w', Work.ensureIntegrity run w = (.ok (), w') ∧ w.Counted completed cut w' ∧
      completed ≤ 2 ∧ cut ≤ w.store.backend.size + w.txn.modified.size := by
  have hunspent : w.unspent w ≤ w.store.backend.size + w.txn.modified.size :=
    Nat.add_le_add (remaining_le_size _ _) (remaining_le_size _ _)
  obtain ⟨completed, cut, w', heq, hcounted, hcompleted, hcut⟩ :=
    (counted_converges hrun w).ensureIntegrity (.start hw) hroom hunspent
  exact ⟨completed, cut, w', heq, hcounted, hcompleted, Nat.le_trans hcut hunspent⟩

/-- The repair of a working set that needs none changes nothing. -/
theorem Tended.ensureIntegrity (h : w.Tended) (hw : w.Clerical) (hpasses : 0 < w.maxPasses) :
    ∃ w', Work.ensureIntegrity run w = (.ok (), w') ∧
      w'.txn = { w.txn with ensuring := false } := by
  obtain ⟨checked, v, heq, htxn, hsignature⟩ := h.markedPass hrun hw
  refine ⟨v.endPass, ?_, htxn⟩
  rw [Work.ensureIntegrity, repeatPasses, if_neg (by omega), heq]
  exact if_pos hsignature

theorem Clerical.tended (hw : w.Clerical) (h : Work.ensureIntegrity run w = (.ok (), w')) :
    w'.Clerical ∧ w'.Tended ∧ w'.txn.ensuring = false := by
  obtain ⟨before, checked, after, hbefore, hpass, -, rfl⟩ := ensureIntegrity_ok (I := Clerical)
    (fun u hu => ((tending_passRelation accounts_records hrun).integrityPass u.beginPass
      ⟨Tending.beginPass hu, rfl⟩).1.endPass) (fun u hu => Tending.count hu _) hw h
  have hbegin : before.beginPass.Clerical := hbefore.of_marks true _ rfl
  exact ⟨(integrityPass_amid hrun hbegin rfl hpass).clerical.of_marks false _ rfl,
    (integrityPass_tended hrun hbegin rfl hpass).congr rfl rfl rfl rfl, rfl⟩

end

/-! ## Commits -/

/-- What a working set comes to that has been repaired, in so many passes that have completed and so
many that were cut short, and written. Each pass that was cut short has deleted one id more than the
client. First comes the store in which the callbacks begin to run, then the one that they leave. -/
structure Repaired (w : Work) (completed cut : Nat) (mid s : Store) : Prop where
  passes : mid.statistics.integrityPasses = w.store.statistics.integrityPasses + completed + cut
  restarts : mid.statistics.integrityRestarts = w.store.statistics.integrityRestarts + cut
  written : ∃ b, mid.backend.memory.applied = w.store.backend.memory.applied ++ [b] ∧
    b.deleted.size = w.txn.deleted.size + cut ∧
    ∀ id, w.txn.deleted.contains id = true → b.deleted.contains id = true
  called : (Callback.runAll w.txn.callbacks mid).Unmoved s ∧
    s.statistics.integrityPasses =
      (Callback.runAll w.txn.callbacks mid).statistics.integrityPasses ∧
    s.statistics.integrityRestarts =
      (Callback.runAll w.txn.callbacks mid).statistics.integrityRestarts

theorem unmoved_committed (w : Work) (b : Backend) :
    (Callback.runAll w.txn.callbacks ((w.withBackend b).store.publish w.txn.changeSet)).Unmoved
      (((w.withBackend b).settle.finish .committed).count Statistics.countCommit).store := by
  have hsettled : (Callback.runAll w.txn.callbacks
      ((w.withBackend b).store.publish w.txn.changeSet)).Unmoved
      (w.withBackend b).settle.store := by
    rw [store_settle]
    exact (Store.Quiet.count _ _).unmoved
  exact (hsettled.trans (unmoved_finish _ .committed)).trans (unmoved_count _ _)

theorem Counted.repaired {u : Work} {b : Backend} {completed cut : Nat}
    (h : w.Counted completed cut u) (hcallbacks : u.txn.callbacks = w.txn.callbacks)
    (happlied : u.store.backend.memory.applied = w.store.backend.memory.applied)
    (hb : u.store.backend.update u.txn.batch = (.ok (), b)) :
    w.Repaired completed cut ((u.withBackend b).store.publish u.txn.changeSet)
      (((u.withBackend b).settle.finish .committed).count Statistics.countCommit).store where
  passes := h.passes
  restarts := h.restarts
  written := by
    refine ⟨u.txn.batch, ?_, h.size, h.deletes⟩
    change b.memory.applied = _
    rw [Backend.update_ok hb, Memory.applied_apply, happlied]
  called := by
    rw [← hcallbacks]
    exact ⟨u.unmoved_committed b, rfl, rfl⟩

/-- Whenever the transaction can be committed with a repair, the commit succeeds. If there is
anything to write, at most two passes complete, and no more are cut short than there are entities
committed and to be put. -/
def CommitSucceeds (run : HookRunner) (w : Work) : Prop :=
  w.txn.isActive = true → w.txn.ensureIntegrity = true →
    ∃ w', w.commit run = (.ok (), w') ∧ (w.txn.isEmpty = false →
      ∃ completed cut mid, w.Repaired completed cut mid w'.store ∧ completed ≤ 2 ∧
        cut ≤ w.store.backend.size + w.txn.modified.size)

theorem Kept.committing {calls : Callback → Prop}
    (hw : w.Kept (isRecord · = true) (fun _ _ _ => True) calls) :
    (w.inState .committing).Clerical :=
  ⟨⟨hw.pending, hw.unrecorded, hw.committed, hw.apart, hw.checking, fun _ _ => trivial⟩, rfl,
    fun _ => trivial⟩

theorem commitSucceeds_of_records (hrun : Honours run) {calls : Callback → Prop}
    (hw : w.Kept (isRecord · = true) (fun _ _ _ => True) calls)
    (hplain : w.store.backend.instrument = .plain) (hroom : w.HasRoom) :
    w.CommitSucceeds run := by
  intro hactive hflag
  have hclerical := hw.committing
  obtain ⟨completed, cut, u, hu, hcounted, hcompleted, hcut⟩ :=
    hclerical.ensureIntegrity hrun (hroom.congr rfl rfl rfl)
  have hstill := (Tending.ensureIntegrity accounts_records hrun hclerical).2
  have hcallbacks :=
    (between_ensureIntegrity hrun (hclerical.kept.sound accounts_records)).adjusts.callbacks
  rw [hu] at hstill hcallbacks
  obtain ⟨b, hb⟩ : ∃ b, u.store.backend.update u.txn.batch = (.ok (), b) := by
    rw [Backend.update, hstill.instrument.trans hplain]
    exact ⟨_, rfl⟩
  have hwrite : (w.inState .committing).writePending run = (.ok (), (u.withBackend b).settle) := by
    rw [writePending_of_repaired hu hflag, applyPending, hb]
    rfl
  cases hempty : w.txn.isEmpty with
  | true =>
    exact ⟨_, commit_of_empty run (of_decide_eq_true hactive) hempty, nofun⟩
  | false =>
    obtain ⟨hpassed, hrestarted, hwritten, hcalled⟩ :=
      hcounted.repaired hcallbacks hstill.applied hb
    exact ⟨_, commit_of_written (of_decide_eq_true hactive) hempty hwrite, fun _ =>
      ⟨completed, cut, _, ⟨hpassed, hrestarted, hwritten, hcalled⟩, hcompleted, hcut⟩⟩

end Work

end EntityStore
