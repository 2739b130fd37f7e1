import EntityStore.Proofs.Transaction.Accrual
import EntityStore.Proofs.Transaction.WorkingSet

/-!
# What a failed commit leaves

A commit may fail in the middle of a check, after other checks have changed and deleted entities, or
when the backend rejects the batch. Whatever the hooks did until then, they could only add to the
working set, and an entity that was out for its check has come back. So nothing that was pending is
lost, and the transaction can be committed again.

Hooks may turn auto-commit on, but while a commit is writing, nothing else is written. That is why
what was recorded stays here, with no regard to auto-commit (compare
`Transaction.recorded_maintained`).

Main statement: `Work.commit_error_retains`.
-/

namespace EntityStore

namespace Transaction

/-- What the passes of a commit leave of what was recorded and of the callbacks that wait. -/
structure Retains (t t' : Transaction) : Prop where
  apart : t.Apart → t'.Apart
  /-- What was recorded is forgotten for deleted ids only. -/
  noted : ∀ {id}, t.deltas.contains id = true ∨ t.deleted.contains id = true →
    t'.deltas.contains id = true ∨ t'.deleted.contains id = true
  recorded : t.Recorded → t'.Recorded
  callbacks : t.callbacks <+: t'.callbacks

/-- What a commit that has failed leaves of a transaction. -/
structure Survives (t t' : Transaction) : Prop where
  state : t'.state = .active
  ensuring : t'.ensuring = false
  deleted : ∀ id, t.deleted.contains id = true → t'.deleted.contains id = true
  modified : ∀ id, t.modified.contains id = true →
    t'.modified.contains id = true ∨ t'.deleted.contains id = true
  /-- No id is both to be put and taken away. -/
  apart : ∀ id, ¬ (t'.modified.contains id = true ∧ t'.deleted.contains id = true)
  /-- If something was recorded of every entity to be put, this is so again. -/
  recorded : (∀ id, t.modified.contains id = true → t.deltas.contains id = true) →
    ∀ id, t'.modified.contains id = true → t'.deltas.contains id = true
  /-- The callbacks that waited still wait, before those that have joined them. -/
  callbacks : t.callbacks <+: t'.callbacks

variable {t t' u : Transaction}

theorem Retains.of_eq (hmodified : t'.modified = t.modified) (hdeleted : t'.deleted = t.deleted)
    (hdeltas : t'.deltas = t.deltas) (hcallbacks : t'.callbacks = t.callbacks) : t.Retains t' where
  apart h := fun id hid => hmodified ▸ h id (hdeleted ▸ hid)
  noted h := by rwa [hdeltas, hdeleted]
  recorded h := fun id hid => hdeltas ▸ h id (hmodified ▸ hid)
  callbacks := hcallbacks ▸ List.prefix_rfl

theorem Retains.refl (t : Transaction) : t.Retains t := .of_eq rfl rfl rfl rfl

theorem Retains.trans (h : t.Retains t') (h' : t'.Retains u) : t.Retains u where
  apart hapart := h'.apart (h.apart hapart)
  noted hnoted := h'.noted (h.noted hnoted)
  recorded hrecorded := h'.recorded (h.recorded hrecorded)
  callbacks := h.callbacks.trans h'.callbacks

/-- An entity that is not deleted joins, with something recorded of it. -/
theorem Retains.record {e : Entity} {fields : Properties} (hd : t.deleted.contains e.id = false)
    (hmodified : t'.modified = t.modified.add e) (hdeleted : t'.deleted = t.deleted)
    (hdeltas : t'.deltas = t.deltas.insert e.id fields) (hcallbacks : t'.callbacks = t.callbacks) :
    t.Retains t' where
  apart h := h.put hd hmodified hdeleted
  noted h := by
    rw [hdeltas, hdeleted, OrderedMap.contains_insert]
    exact h.imp_left fun hnoted => by simp [hnoted]
  recorded h := by
    intro id hid
    rw [hmodified, Index.contains_add, Bool.or_eq_true, decide_eq_true_iff] at hid
    rw [hdeltas, OrderedMap.contains_insert, Bool.or_eq_true, decide_eq_true_iff]
    exact hid.imp_right (h id)
  callbacks := hcallbacks ▸ List.prefix_rfl

theorem Retains.recordDeletion (t : Transaction) (id : EntityId) :
    t.Retains (t.recordDeletion id) where
  apart h := h.recordDeletion id
  noted {other} h := by
    simp only [Transaction.recordDeletion, OrderedMap.contains_erase, OrderedMap.contains_add]
    by_cases hne : id = other
    · simp [hne]
    · simpa [hne] using h
  recorded h := by
    intro other hother
    simp only [Transaction.recordDeletion, Index.contains_remove, Bool.and_eq_true,
      decide_eq_true_iff] at hother
    simp [Transaction.recordDeletion, OrderedMap.contains_erase, hother.1, h other hother.2]
  callbacks := List.prefix_rfl

end Transaction

namespace Work

variable {run : HookRunner} {w w' : Work}

/-! ## Checks and passes -/

/-- Hooks that lose nothing of what was recorded during the passes of a commit. -/
def Retaining (run : HookRunner) : Prop :=
  ∀ hook e (w : Work), w.txn.Repairing → w.txn.Retains (run hook e w).2.txn

theorem retains_delete (h : w.txn.Repairing) (run : HookRunner) (id : EntityId) :
    w.txn.Retains (w.delete run id).2.txn := by
  rw [delete_repairing h]
  split
  · exact .refl _
  · exact .recordDeletion _ id

/-- Whatever a hook asks for, nothing of what was recorded is lost. -/
theorem Retaining.perform (hook : Retaining run) (haccrues : Accruing run)
    (h : w.txn.Repairing) (op : Operation) : w.txn.Retains (op.perform run w).2.txn := by
  cases op with
  | persist e =>
    rw [Operation.perform, persist_repairing h]
    split
    · exact .refl _
    · rename_i hd
      exact .record (by simpa using hd) rfl rfl rfl rfl
  | modified e field value =>
    rw [Operation.perform, modified_repairing h]
    split
    · exact .refl _
    · rename_i hsees
      have hd : w.txn.deleted.contains e.id = false := by
        simp only [contains, Bool.or_eq_true, Bool.not_eq_true', not_or] at hsees
        by_contra hdeleted
        simp [hdeleted] at hsees
      exact .record hd rfl rfl rfl rfl
  | delete id => exact retains_delete h run id
  | deleteEntity e =>
    have hretains := hook .delete e w h
    rcases w.deleteEntity_cases run e with ⟨err, heq⟩ | heq <;> rw [Operation.perform, heq]
    · exact hretains
    · exact hretains.trans (retains_delete (haccrues .delete e w h).repairing run e.id)
  | commit =>
    rw [Operation.perform, commit_repairing h]
    exact .refl _
  | rollback =>
    rw [Operation.perform, rollback_repairing h]
    exact .refl _
  | afterCommit c =>
    rw [Operation.perform, afterCommit]
    split
    · exact .refl _
    · exact ⟨fun h => h, fun h => h, fun h => h, List.prefix_append _ _⟩
  | setAutoCommit _ | setIgnoreModifications _ | setEnsureIntegrity _ | findAll _ | findFirst _
  | remark _ => exact .of_eq rfl rfl rfl rfl
  | contains _ | get _ | inspect => exact .refl _

/-- A check loses nothing of what was recorded. What was recorded of the entity that is out stays
as long as it is not deleted, and it comes back if it is not. -/
theorem Retaining.checkEntity (hook : Retaining run) (h : w.txn.Repairing) (id : EntityId) :
    w.txn.Retains (w.checkEntity run id).2.txn := by
  rw [Work.checkEntity]
  split
  · exact .refl _
  · rename_i e _
    have hran := hook .check e (w.checkOut id) ⟨h.state, h.ensuring⟩
    cases hrun : run .check e (w.checkOut id) with
    | mk outcome after =>
      rw [hrun] at hran
      have hout : w.txn.Recorded → after.txn.Recorded := fun hrecorded =>
        hran.recorded fun other hother => by
          rw [show (w.checkOut id).txn.modified = w.txn.modified.remove id from rfl,
            Index.contains_remove, Bool.and_eq_true] at hother
          exact hrecorded other hother.2
      have hapart : w.txn.Apart → after.txn.Apart := fun hapart =>
        hran.apart (hapart.unput id rfl fun _ => .inr)
      dsimp only
      unfold Work.checkIn onTxn
      dsimp only
      split
      · rename_i hjoins
        simp only [Bool.and_eq_true, Bool.not_eq_true', Bool.or_eq_true] at hjoins
        refine ⟨fun h => (hapart h).put hjoins.1 rfl rfl, fun h => hran.noted h,
          fun hrecorded other hother => ?_, hran.callbacks⟩
        rw [Index.contains_add, Bool.or_eq_true, decide_eq_true_iff] at hother
        rcases hother with rfl | hother
        · rcases hjoins.2 with htracked | hput
          · exact (hran.noted (.inl (hrecorded id htracked))).resolve_right (by simp [hjoins.1])
          · exact hout hrecorded id hput
        · exact hout hrecorded other hother
      · exact ⟨hapart, fun h => hran.noted h, hout, hran.callbacks⟩

theorem Retaining.passRelation (hook : Retaining run) (haccrues : Accruing run) :
    PassRelation run fun w w' => w.txn.Repairing → w'.txn.Repairing ∧ w.txn.Retains w'.txn where
  refl _ h := ⟨h, .refl _⟩
  trans h h' hw := ⟨(h' (h hw).1).1, (h hw).2.trans (h' (h hw).1).2⟩
  check id _ _ hw := ⟨(haccrues.checkEntity hw id).repairing, hook.checkEntity hw id⟩
  query _ hw := ⟨⟨hw.state, hw.ensuring⟩, .refl _⟩

/-! ## Commits that fail -/

/-- A unit of work between the passes of a commit, beside the transaction as it was at first. -/
structure Pending (t : Transaction) (w : Work) : Prop where
  state : w.txn.state = .committing
  ensuring : w.txn.ensuring = false
  deleted : ∀ {id}, t.deleted.contains id = true → w.txn.deleted.contains id = true
  modified : ∀ {id}, t.modified.contains id = true →
    w.txn.modified.contains id = true ∨ w.txn.deleted.contains id = true
  retains : t.Retains w.txn

variable {t : Transaction}

theorem Pending.pass (hook : Retaining run) (haccrues : Accruing run) (h : w.Pending t) :
    (integrityPass run w.beginPass).2.endPass.Pending t := by
  have hbegun : w.beginPass.txn.Repairing := ⟨h.state, rfl⟩
  have haccrued := haccrues.integrityPass hbegun
  have hretained := ((hook.passRelation haccrues).integrityPass w.beginPass hbegun).2
  have hopen : t.Retains w.beginPass.txn := h.retains.trans (.of_eq rfl rfl rfl rfl)
  refine ⟨haccrued.repairing.state, rfl, fun hd => haccrued.deleted (h.deleted hd), fun hm => ?_,
    (hopen.trans hretained).trans (.of_eq rfl rfl rfl rfl)⟩
  exact (h.modified hm).elim haccrued.modified fun hd => .inr (haccrued.deleted hd)

theorem Pending.ensureIntegrity (hook : Retaining run) (haccrues : Accruing run)
    (h : w.Pending t) : (Work.ensureIntegrity run w).2.Pending t :=
  repeatPasses_preserves (fun _ hu => hu.pass hook haccrues)
    (fun _ hu => ⟨hu.state, hu.ensuring, hu.deleted, hu.modified, hu.retains⟩) h

/-- A write that fails, in its repair or at the backend, leaves what it was to write. -/
theorem Pending.writePending_error (hook : Retaining run) (haccrues : Accruing run)
    (h : w.Pending t) {err : StoreError} (herr : w.writePending run = (.error err, w')) :
    w'.Pending t := by
  have rejected {u v : Work} {err : StoreError} (hu : u.Pending t)
      (hrejected : u.applyPending = (.error err, v)) : v.Pending t := by
    rcases u.applyPending_cases with ⟨_, b, -, heq⟩ | ⟨b, -, heq⟩ <;> rw [heq] at hrejected
    · cases hrejected
      exact ⟨hu.state, hu.ensuring, hu.deleted, hu.modified, hu.retains⟩
    · cases hrejected
  rcases w.writePending_cases run with ⟨-, err', u, hrepair, heq⟩ | ⟨-, u, hrepair, heq⟩ |
    ⟨-, heq⟩
  · have hu := h.ensureIntegrity hook haccrues
    rw [hrepair] at hu
    rw [heq] at herr
    cases herr
    exact hu
  · have hu := h.ensureIntegrity hook haccrues
    rw [hrepair] at hu
    exact rejected hu (heq.symm.trans herr)
  · exact rejected h (heq.symm.trans herr)

end Work

/-- The hooks at every level lose nothing of what was recorded during the passes of a commit. -/
theorem Hooks.retaining (hooks : Hooks) (level : Nat) : Work.Retaining (hooks.runner level) := by
  induction level with
  | zero => exact fun _ _ _ _ => .refl _
  | succ level ih =>
    intro hook e w hw
    have hasks := (hooks hook e).asks_true
    exact (hasks.run_preserves (I := fun v => v.txn.Repairing ∧ w.txn.Retains v.txn)
      (fun op _ v hv => ⟨((hooks.accruing level).perform hv.1 op).repairing,
        hv.2.trans (ih.perform (hooks.accruing level) hv.1 op)⟩) ⟨hw, .refl _⟩).2

/-- A commit that fails, outside of hooks, leaves the transaction active and loses nothing that was
pending. -/
theorem Work.commit_error_retains (hooks : Hooks) (level : Nat) {w w' : Work} {err : StoreError}
    (hactive : w.txn.state = .active) (hquiescent : w.txn.Quiescent) (hapart : w.txn.Apart)
    (h : w.commit (hooks.runner level) = (.error err, w')) : w.txn.Survives w'.txn := by
  have hstart : (w.inState .committing).Pending w.txn :=
    ⟨rfl, hquiescent.ensuring rfl, fun hd => hd, .inl, .of_eq rfl rfl rfl rfl⟩
  rcases w.commit_cases (hooks.runner level) with ⟨hnot, -⟩ | ⟨-, -, heq⟩ | ⟨-, -, u, -, heq⟩ |
    ⟨-, -, err', u, hwrite, heq⟩
  · exact absurd hactive hnot
  · rw [heq] at h
    cases h
  · rw [heq] at h
    cases h
  · rw [heq] at h
    cases h
    have hu := hstart.writePending_error (hooks.retaining level) (hooks.accruing level) hwrite
    have happart := hu.retains.apart hapart
    exact {
      state := rfl
      ensuring := hu.ensuring
      deleted := fun _ => hu.deleted
      modified := fun _ => hu.modified
      apart := fun id hid => absurd (hid.1.symm.trans (happart id hid.2)) (by simp)
      recorded := hu.retains.recorded
      callbacks := hu.retains.callbacks }

end EntityStore
