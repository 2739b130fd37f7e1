import EntityStore.Transaction.Lifecycle

/-!
# What operations can come to

Each operation that changes a transaction is refused or comes to one of a few outcomes. They are
listed here once, with what has been found out on the way, so that nothing else needs to know how an
operation is made up. A backend that accepts a batch applies the whole of it, and one that rejects
it notes nothing but the rejection (`Backend.update_ok`, `Backend.update_error`).
-/

namespace EntityStore

theorem Backend.update_ok {b b' : Backend} {batch : Batch} (h : b.update batch = (.ok (), b')) :
    b'.memory = b.memory.apply batch := by
  unfold update at h
  split at h
  · cases h; rfl
  · cases h; rfl
  · split at h
    · cases h
    · cases h; rfl

theorem Backend.update_error {b b' : Backend} {batch : Batch} {err : StoreError}
    (h : b.update batch = (.error err, b')) : b'.memory = b.memory.note (.rejected batch) := by
  unfold update at h
  split at h
  · cases h
  · cases h
  · split at h
    · cases h; rfl
    · cases h

namespace Memory

@[simp] theorem applied_note_applied (m : Memory) (b : Batch) :
    (m.note (.applied b)).applied = m.applied ++ [b] := by
  simp [applied, note, LogEntry.applied?]

@[simp] theorem applied_note_rejected (m : Memory) (b : Batch) :
    (m.note (.rejected b)).applied = m.applied := by
  simp [applied, note, LogEntry.applied?]

@[simp] theorem applied_note_started (m : Memory) (t : TransactionId) :
    (m.note (.started t)).applied = m.applied := by
  simp [applied, note, LogEntry.applied?]

@[simp] theorem applied_note_finished (m : Memory) (t : TransactionId) :
    (m.note (.finished t)).applied = m.applied := by
  simp [applied, note, LogEntry.applied?]

theorem applied_apply (m : Memory) (b : Batch) : (m.apply b).applied = m.applied ++ [b] := by
  rw [apply, applied_note_applied]
  rfl

end Memory

namespace Work

@[simp] theorem backend_count (w : Work) (counter : Statistics → Statistics) :
    (w.count counter).store.backend = w.store.backend := rfl

@[simp] theorem table_finish (w : Work) (state : Transaction.State) :
    (w.finish state).store.backend.table = w.store.backend.table := rfl

@[simp] theorem applied_finish (w : Work) (state : Transaction.State) :
    (w.finish state).store.backend.memory.applied = w.store.backend.memory.applied :=
  Memory.applied_note_finished _ _

/-! ## Recording -/

theorem ensureRecording_ok_iff {state : Transaction.State} :
    state.ensureRecording = .ok () ↔ state.isFinished = false := by
  cases state <;> simp [Transaction.State.ensureRecording, Transaction.State.ensureActive,
    Transaction.State.isFinished]

theorem persist_cases (run : HookRunner) (e : Entity) (w : Work) :
    (∃ result, w.persist run e = (result, w)) ∨
    w.txn.state.isFinished = false ∧ w.txn.deleted.contains e.id = false ∧
      w.persist run e = (w.onTxn (·.recordSnapshot e)).writeThrough run := by
  unfold persist
  split
  · exact .inl ⟨_, rfl⟩
  · rename_i hrecording
    split
    · exact .inl ⟨_, rfl⟩
    · rename_i hdeleted
      exact .inr ⟨ensureRecording_ok_iff.1 hrecording, by simpa using hdeleted, rfl⟩

theorem modified_cases (run : HookRunner) (e : Entity) (field : String) (value : PropertyValue)
    (w : Work) :
    (∃ result, w.modified run e field value = (result, w)) ∨
    w.txn.state.isFinished = false ∧ w.txn.ignoreModifications = false ∧ w.contains e.id = true ∧
      w.modified run e field value = (w.takeDown e field value).writeThrough run := by
  unfold modified
  split
  · exact .inl ⟨_, rfl⟩
  · rename_i hrecording
    split
    · exact .inl ⟨_, rfl⟩
    · rename_i hsees
      simp only [Bool.or_eq_true, Bool.not_eq_true', not_or, Bool.not_eq_false,
        Bool.not_eq_true] at hsees
      exact .inr ⟨ensureRecording_ok_iff.1 hrecording, hsees.1, hsees.2, rfl⟩

/-- A deletion that is recorded asks for a restart if a pass is under way. -/
theorem delete_cases (run : HookRunner) (id : EntityId) (w : Work) :
    (∃ result, w.delete run id = (result, w)) ∨
    w.txn.state.isFinished = false ∧ w.txn.deleted.contains id = false ∧
      let recorded := (w.onTxn (·.recordDeletion id)).onStore (·.onBackend Backend.noteModification)
      (w.txn.ensuring = true ∧ w.delete run id = (.error .integrityRestart, recorded) ∨
        w.txn.ensuring = false ∧ w.delete run id = recorded.writeThrough run) := by
  unfold delete
  split
  · exact .inl ⟨_, rfl⟩
  · rename_i hrecording
    split
    · exact .inl ⟨_, rfl⟩
    · rename_i hdeleted
      refine .inr ⟨ensureRecording_ok_iff.1 hrecording, by simpa using hdeleted, ?_⟩
      dsimp only
      split
      · rename_i hensuring
        exact .inl ⟨hensuring, rfl⟩
      · rename_i hensuring
        exact .inr ⟨Bool.eq_false_iff.2 hensuring, rfl⟩

theorem deleteEntity_cases (run : HookRunner) (e : Entity) (w : Work) :
    (∃ err, w.deleteEntity run e = (.error err, (run .delete e w).2)) ∨
      w.deleteEntity run e = (run .delete e w).2.delete run e.id := by
  unfold deleteEntity
  split
  · rename_i heq
    exact .inl ⟨_, by rw [heq]⟩
  · rename_i heq
    exact .inr (by rw [heq])

/-! ### Where nothing is written at once -/

section Withheld

variable {w : Work}

theorem writesThrough_of_manual (h : w.txn.autoCommit = false) : w.writesThrough = false := by
  simp [writesThrough, h]

theorem writesThrough_of_ensuring (h : w.txn.ensuring = true) : w.writesThrough = false := by
  simp [writesThrough, h]

theorem writeThrough_withheld (h : w.writesThrough = false) (run : HookRunner) :
    w.writeThrough run = (.ok (), w) := by
  rw [writeThrough, h]
  rfl

variable (hopen : w.txn.state.isFinished = false) (h : w.writesThrough = false) (run : HookRunner)
include hopen h

theorem persist_withheld (e : Entity) :
    w.persist run e =
      if w.txn.deleted.contains e.id then
        (.error (.illegalState ("cannot persist deleted entity " ++ e.typeAndId)), w)
      else (.ok (), w.onTxn (·.recordSnapshot e)) := by
  have hrecorded := writeThrough_withheld (w := w.onTxn (·.recordSnapshot e)) h run
  rw [persist, ensureRecording_ok_iff.2 hopen]
  dsimp only
  rw [hrecorded]

theorem modified_withheld (e : Entity) (field : String) (value : PropertyValue) :
    w.modified run e field value =
      if w.txn.ignoreModifications || !w.contains e.id then (.ok (), w)
      else (.ok (), w.takeDown e field value) := by
  have hrecorded := writeThrough_withheld (w := w.takeDown e field value) h run
  rw [modified, ensureRecording_ok_iff.2 hopen]
  dsimp only
  rw [hrecorded]

theorem delete_withheld (id : EntityId) :
    w.delete run id =
      if w.txn.deleted.contains id then (.ok (), w)
      else (if w.txn.ensuring then .error .integrityRestart else .ok (),
        (w.onTxn (·.recordDeletion id)).onStore (·.onBackend Backend.noteModification)) := by
  have hrecorded := writeThrough_withheld
    (w := (w.onTxn (·.recordDeletion id)).onStore (·.onBackend Backend.noteModification)) h run
  rw [delete, ensureRecording_ok_iff.2 hopen]
  dsimp only
  rw [hrecorded]
  congr 1
  exact (apply_ite (·, _) _ _ _).symm

end Withheld

/-! ## Writing -/

/-- The unit of work once the backend has become another. -/
def withBackend (w : Work) (b : Backend) : Work := w.onStore (·.onBackend fun _ => b)

theorem applyPending_cases (w : Work) :
    (∃ err b, b.memory = w.store.backend.memory.note (.rejected w.txn.batch) ∧
      w.applyPending = (.error err, w.withBackend b)) ∨
    ∃ b, b.memory = w.store.backend.memory.apply w.txn.batch ∧
      w.applyPending = (.ok (), (w.withBackend b).settle) := by
  unfold applyPending
  split
  · rename_i err b h
    exact .inl ⟨err, b, Backend.update_error h, rfl⟩
  · rename_i b h
    exact .inr ⟨b, Backend.update_ok h, rfl⟩

/-- A write has come to nothing when its repair fails, and otherwise is up to the backend. -/
theorem writePending_cases (run : HookRunner) (w : Work) :
    (w.txn.ensureIntegrity = true ∧
      ∃ err u, ensureIntegrity run w = (.error err, u) ∧ w.writePending run = (.error err, u)) ∨
    (w.txn.ensureIntegrity = true ∧
      ∃ u, ensureIntegrity run w = (.ok (), u) ∧ w.writePending run = u.applyPending) ∨
    w.txn.ensureIntegrity = false ∧ w.writePending run = w.applyPending := by
  unfold writePending
  split
  · rename_i hflag
    split
    · rename_i err u h
      exact .inl ⟨hflag, err, u, h, rfl⟩
    · rename_i u h
      exact .inr (.inl ⟨hflag, u, h, rfl⟩)
  · rename_i hflag
    exact .inr (.inr ⟨by simpa using hflag, rfl⟩)

section

variable {run : HookRunner} {w u : Work} {err : StoreError}

theorem writePending_of_repaired (h : ensureIntegrity run w = (.ok (), u))
    (hflag : w.txn.ensureIntegrity = true) : w.writePending run = u.applyPending := by
  rw [writePending, if_pos hflag, h]

theorem writePending_of_unrepaired (h : ensureIntegrity run w = (.error err, u))
    (hflag : w.txn.ensureIntegrity = true) : w.writePending run = (.error err, u) := by
  rw [writePending, if_pos hflag, h]

theorem writePending_as_is (run : HookRunner) (hflag : w.txn.ensureIntegrity = false) :
    w.writePending run = w.applyPending := by
  rw [writePending, hflag]
  rfl

end

/-! ## Ending -/

/-- The unit of work with its transaction in a state. -/
def inState (state : Transaction.State) (w : Work) : Work :=
  w.onTxn fun t => { t with state := state }

theorem ensureActive_error {state : Transaction.State} (h : state ≠ .active) (operation : String) :
    ∃ err, state.ensureActive operation = .error err := by
  cases state with
  | active => exact absurd rfl h
  | committing | committed | rolledBack => exact ⟨_, rfl⟩

/-- A commit is refused, or has nothing to write, or ends with a write that succeeds or fails. -/
theorem commit_cases (run : HookRunner) (w : Work) :
    (w.txn.state ≠ .active ∧ ∃ err, w.commit run = (.error err, w)) ∨
    (w.txn.state = .active ∧ w.txn.isEmpty = true ∧
      w.commit run =
        (.ok (), (w.runCallbacks.finish .committed).count Statistics.countCommit)) ∨
    (w.txn.state = .active ∧ w.txn.isEmpty = false ∧
      ∃ u, writePending run (w.inState .committing) = (.ok (), u) ∧
        w.commit run = (.ok (), (u.finish .committed).count Statistics.countCommit)) ∨
    (w.txn.state = .active ∧ w.txn.isEmpty = false ∧
      ∃ err u, writePending run (w.inState .committing) = (.error err, u) ∧
        w.commit run = (.error err, (u.inState .active).count Statistics.countCommitFailure)) := by
  by_cases hstate : w.txn.state = .active
  · simp only [commit, hstate, Transaction.State.ensureActive]
    cases hempty : w.txn.isEmpty with
    | true => exact .inr (.inl ⟨trivial, rfl, rfl⟩)
    | false =>
      cases hwrite : writePending run (w.inState .committing) with
      | mk result u =>
        unfold inState at hwrite
        cases result with
        | ok _ =>
          refine .inr (.inr (.inl ⟨trivial, rfl, u, rfl, ?_⟩))
          simp only [Bool.false_eq_true, if_false, hwrite]
        | error err =>
          refine .inr (.inr (.inr ⟨trivial, rfl, err, u, rfl, ?_⟩))
          simp only [Bool.false_eq_true, if_false, hwrite, inState]
  · obtain ⟨err, herr⟩ := ensureActive_error hstate "commit"
    refine .inl ⟨hstate, err, ?_⟩
    rw [commit, herr]

section

variable {run : HookRunner} {w u : Work} {err : StoreError}

theorem commit_of_empty (run : HookRunner) (hactive : w.txn.state = .active)
    (hempty : w.txn.isEmpty = true) :
    w.commit run =
      (.ok (), (w.runCallbacks.finish .committed).count Statistics.countCommit) := by
  rw [commit, hactive]
  exact if_pos hempty

/-- A commit ends as its write does. -/
theorem commit_of_written (hactive : w.txn.state = .active) (hpending : w.txn.isEmpty = false)
    (hwrite : writePending run (w.inState .committing) = (.ok (), u)) :
    w.commit run = (.ok (), (u.finish .committed).count Statistics.countCommit) := by
  rcases w.commit_cases run with ⟨hnot, -⟩ | ⟨-, hempty, -⟩ | ⟨-, -, v, hv, heq⟩ |
    ⟨-, -, err, v, hv, -⟩
  · exact absurd hactive hnot
  · exact absurd (hpending.symm.trans hempty) (by simp)
  · rw [hwrite] at hv
    cases hv
    exact heq
  · rw [hwrite] at hv
    cases hv

theorem commit_of_failed (hactive : w.txn.state = .active) (hpending : w.txn.isEmpty = false)
    (hwrite : writePending run (w.inState .committing) = (.error err, u)) :
    w.commit run = (.error err, (u.inState .active).count Statistics.countCommitFailure) := by
  rcases w.commit_cases run with ⟨hnot, -⟩ | ⟨-, hempty, -⟩ | ⟨-, -, v, hv, -⟩ |
    ⟨-, -, err', v, hv, heq⟩
  · exact absurd hactive hnot
  · exact absurd (hpending.symm.trans hempty) (by simp)
  · rw [hwrite] at hv
    cases hv
  · rw [hwrite] at hv
    cases hv
    exact heq

end

theorem rollback_cases (w : Work) :
    (w.txn.state ≠ .active ∧ ∃ err, w.rollback = (.error err, w)) ∨
    (w.txn.state = .active ∧ w.rollback =
      (.ok (), (finish .rolledBack (w.onTxn fun t => { t.clearPending with callbacks := [] })).count
        Statistics.countRollback)) := by
  by_cases hstate : w.txn.state = .active
  · refine .inr ⟨hstate, ?_⟩
    rw [rollback, hstate]
    rfl
  · obtain ⟨err, herr⟩ := ensureActive_error hstate "roll back"
    refine .inl ⟨hstate, err, ?_⟩
    rw [rollback, herr]

end Work

namespace Store

variable {α : Type} (run : HookRunner) (name : String) (operation : Work → Result α × Work)
  (s : Store)

/-- An operation in a transaction of its own fails and is rolled back, or it succeeds and its commit
fails or succeeds. -/
theorem within_cases :
    (∃ err, (operation (s.begin name)).1 = .error err ∧
      s.within run name operation = (.error err, (operation (s.begin name)).2.rollback.2.drop)) ∨
    (∃ value, (operation (s.begin name)).1 = .ok value ∧
      ∃ err w, (operation (s.begin name)).2.commit run = (.error err, w) ∧
        s.within run name operation = (.error err, w.drop)) ∨
    ∃ value, (operation (s.begin name)).1 = .ok value ∧
      ∃ w, (operation (s.begin name)).2.commit run = (.ok (), w) ∧
        s.within run name operation = (.ok value, w.drop) := by
  unfold within
  split
  · rename_i heq
    rw [heq]
    exact .inl ⟨_, rfl, rfl⟩
  · rename_i value w heq
    rw [heq]
    refine .inr ?_
    dsimp only
    split
    · rename_i err u hcommit
      exact .inl ⟨value, rfl, err, u, hcommit, rfl⟩
    · rename_i u hcommit
      exact .inr ⟨value, rfl, u, hcommit, rfl⟩

theorem within_store :
    (s.within run name operation).2 = (operation (s.begin name)).2.rollback.2.drop ∨
      (s.within run name operation).2 = ((operation (s.begin name)).2.commit run).2.drop := by
  rcases s.within_cases run name operation with ⟨err, -, heq⟩ |
    ⟨value, -, err, w, hcommit, heq⟩ | ⟨value, -, w, hcommit, heq⟩
  · exact .inl (by rw [heq])
  · exact .inr (by rw [heq, hcommit])
  · exact .inr (by rw [heq, hcommit])

end Store

end EntityStore
