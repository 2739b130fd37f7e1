import EntityStore.Proofs.Transaction.Callbacks

/-!
# What becomes of callbacks

A write that succeeds is the last event of its row and closes the queue, whether it is made by a
commit or by an operation that writes at once. A commit that fails leaves all callbacks waiting, and
those besides that its repair has had registered.

Main statement: `Work.dutiful`.
-/

namespace EntityStore

namespace Work

open Transaction (Event)

variable {run : HookRunner} {w : Work}

/-! ## Writes -/

/-- What a repair leads to, and drifts keep, holds when a write has failed, and held just before a
batch was applied. -/
theorem writePending_leads {P : Work → Prop} (hw : P w) (hrepair : P (ensureIntegrity run w).2)
    (hdrift : ∀ {u v}, P u → u.Drifts v → v.txn.state = u.txn.state → P v) :
    (∃ u b, P u ∧ u.store.backend.update u.txn.batch = (.ok (), b) ∧
      w.writePending run = (.ok (), (u.withBackend b).settle)) ∨
    ∃ err u, P u ∧ w.writePending run = (.error err, u) := by
  have handed (u : Work) (hu : P u) (heq : w.writePending run = u.applyPending) :
      (∃ u b, P u ∧ u.store.backend.update u.txn.batch = (.ok (), b) ∧
        w.writePending run = (.ok (), (u.withBackend b).settle)) ∨
      ∃ err u, P u ∧ w.writePending run = (.error err, u) := by
    rw [heq, applyPending]
    split
    · rename_i err b hupdate
      exact .inr ⟨err, u.withBackend b, hdrift hu (.rejected hupdate) rfl, rfl⟩
    · rename_i b hupdate
      exact .inl ⟨u, b, hu, hupdate, rfl⟩
  rcases w.writePending_cases run with ⟨-, err, u, hfailed, heq⟩ | ⟨-, u, hok, heq⟩ | ⟨-, heq⟩
  · rw [hfailed] at hrepair
    exact .inr ⟨err, u, hrepair, heq⟩
  · rw [hok] at hrepair
    exact handed u hrepair heq
  · exact handed w hw heq

end Work

/-- An operation has written at once, and with success, what it has recorded. -/
inductive Operation.WritesAtOnce (run : HookRunner) : Operation → Work → Work → Prop
  | persist {e : Entity} {w w' : Work} : w.writesThrough = true →
      w.persist run e = (.ok (), w') → WritesAtOnce run (.persist e) w w'
  | modified {e : Entity} {field : String} {value : PropertyValue} {w w' : Work} :
      w.writesThrough = true → w.txn.ignoreModifications = false → w.contains e.id = true →
      w.modified run e field value = (.ok (), w') →
      WritesAtOnce run (.modified e field value) w w'
  | delete {id : EntityId} {w w' : Work} : w.writesThrough = true →
      w.txn.deleted.contains id = false → w.delete run id = (.ok (), w') →
      WritesAtOnce run (.delete id) w w'
  /-- The hook that is set off first may do anything, also write and commit. -/
  | deleteEntity {e : Entity} {w w' : Work} :
      WritesAtOnce run (.delete e.id) (run .delete e w).2 w' →
      w.deleteEntity run e = (.ok (), w') → WritesAtOnce run (.deleteEntity e) w w'

namespace Work

open Transaction (Event)

variable {w w' : Work} {hooks : Hooks} {level : Nat}

/-- A write that succeeds is the last event of its row. -/
theorem undergoes_write (h : w.writePending (hooks.runner level) = (.ok (), w')) :
    ∃ es b c calls, w.Undergoes (es ++ [.wrote b c calls]) w' := by
  rcases writePending_leads (.start w) (reached_repair hooks level w) Reached.drift with
    ⟨u, b, hu, hupdate, heq⟩ | ⟨err, u, -, heq⟩
  · rw [heq] at h
    cases h
    obtain ⟨es, hes⟩ := hu.row
    exact ⟨es, _, _, _, hes.occur (.wrote hupdate)⟩
  · rw [heq] at h
    cases h

theorem undergoes_writeThrough {u : Work} (hrecorded : w.Adjusts u)
    (hthrough : u.writesThrough = true) (h : u.writeThrough (hooks.runner level) = (.ok (), w')) :
    ∃ es b c calls, w.Undergoes (es ++ [.wrote b c calls]) w' := by
  rw [writeThrough, if_pos hthrough] at h
  obtain ⟨es, b, c, calls, hwrite⟩ := undergoes_write h
  exact ⟨es, b, c, calls, (Undergoes.of_drifts (.of_adjusts hrecorded)).trans hwrite⟩

/-- An operation that writes at once and succeeds ends with the event of that write. -/
theorem undergoes_writesAtOnce {op : Operation}
    (h : op.WritesAtOnce (hooks.runner level) w w') :
    ∃ es b c calls, w.Undergoes (es ++ [.wrote b c calls]) w' := by
  have recording {w : Work} (hthrough : w.writesThrough = true) :
      w.txn.state.ensureRecording = .ok () :=
    ensureRecording_ok_iff.2 (not_finished_of_active (active_of_writesThrough hthrough))
  induction h with
  | persist hthrough hok =>
    rw [Work.persist, recording hthrough] at hok
    dsimp only at hok
    split at hok
    · cases hok
    · exact undergoes_writeThrough (.recordSnapshot _ _) hthrough hok
  | modified hthrough hheeds hsees hok =>
    rw [Work.modified, recording hthrough, hheeds, hsees] at hok
    exact undergoes_writeThrough (.takeDown _ _ _ _) hthrough hok
  | @delete id w w' hthrough hfresh hok =>
    rw [Work.delete, recording hthrough, hfresh] at hok
    have hensuring : w.txn.ensuring = false := by
      simp only [writesThrough, Bool.and_eq_true, Bool.not_eq_true'] at hthrough
      exact hthrough.1.2
    have hrecorded : ((w.onTxn (·.recordDeletion id)).onStore
        (·.onBackend Backend.noteModification)).txn.ensuring = false := hensuring
    simp only [Bool.false_eq_true, if_false, hrecorded] at hok
    exact undergoes_writeThrough (.recordDeletion _ _) hthrough hok
  | @deleteEntity e w w' _ _ ih =>
    obtain ⟨before, hbefore⟩ := undergoes_hook hooks level .delete e w
    obtain ⟨es, b, c, calls, hes⟩ := ih
    refine ⟨before ++ es, b, c, calls, ?_⟩
    rw [List.append_assoc]
    exact hbefore.trans hes

/-! ## Ends -/

theorem undergoes_rollback (h : w.rollback = (.ok (), w')) :
    w.Undergoes [.discarded w.txn.callbacks] w' := by
  rcases w.rollback_cases with ⟨-, err, heq⟩ | ⟨hactive, heq⟩ <;> rw [heq] at h <;> cases h
  exact (Undergoes.of_occurs (.discarded hactive)).drift (.count _ _)

theorem gathers_committing (hooks : Hooks) (level : Nat) (hactive : w.txn.state = .active) :
    (∃ u b, w.Gathers u ∧ u.store.backend.update u.txn.batch = (.ok (), b) ∧
      writePending (hooks.runner level) (w.inState .committing) =
        (.ok (), (u.withBackend b).settle)) ∨
    ∃ err u, w.Gathers u ∧
      writePending (hooks.runner level) (w.inState .committing) = (.error err, u) :=
  writePending_leads (.begin hactive) (gathers_repair hooks level hactive) Gathers.drift

/-- A commit that succeeds takes up all callbacks that have waited, and those that its repair has
had registered; if there is something to write, when that is written. -/
theorem undergoes_commit_ok (h : w.commit (hooks.runner level) = (.ok (), w')) :
    w.txn.isEmpty = true ∧ w.Undergoes [.emptied w.txn.callbacks] w' ∨
    w.txn.isEmpty = false ∧ ∃ es b c, (∀ e ∈ es, e.closes = false) ∧
      w.Undergoes (es ++ [.wrote b c (w.txn.callbacks ++ es.filterMap Event.queued?)]) w' := by
  rcases w.commit_cases (hooks.runner level) with ⟨-, err, heq⟩ | ⟨hactive, hempty, heq⟩ |
    ⟨hactive, hempty, v, hwrite, heq⟩ | ⟨-, -, err, v, -, heq⟩ <;> rw [heq] at h <;> cases h
  · exact .inl ⟨hempty, (Undergoes.of_occurs (.emptied hactive hempty)).drift (.count _ _)⟩
  · rcases gathers_committing hooks level hactive with
      ⟨u, b, ⟨⟨es, hopen, hes⟩, hstate⟩, hupdate, hok⟩ | ⟨err, u, -, herr⟩
    · rw [hwrite] at hok
      cases hok
      refine .inr ⟨hempty, es, u.txn.batch, u.txn.changeSet, hopen, ?_⟩
      rw [← hes.callbacks_of_not_closes hopen]
      exact (hes.occur (.wrote hupdate)).drift (.succeeds hstate)
    · rw [hwrite] at herr
      cases herr

/-- A commit that fails leaves all callbacks waiting. -/
theorem undergoes_commit_error {err : StoreError}
    (h : w.commit (hooks.runner level) = (.error err, w')) :
    ∃ es, (∀ e ∈ es, e.closes = false) ∧ w.Undergoes es w' ∧
      w'.txn.callbacks = w.txn.callbacks ++ es.filterMap Event.queued? := by
  rcases w.commit_cases (hooks.runner level) with ⟨-, err, heq⟩ | ⟨-, -, heq⟩ |
    ⟨-, -, v, -, heq⟩ | ⟨hactive, -, err, v, hwrite, heq⟩ <;> rw [heq] at h <;> cases h
  · exact ⟨[], nofun, .refl, (List.append_nil _).symm⟩
  · rcases gathers_committing hooks level hactive with
      ⟨u, b, -, -, hok⟩ | ⟨err, u, ⟨⟨es, hopen, hes⟩, hstate⟩, herr⟩
    · rw [hwrite] at hok
      cases hok
    · rw [hwrite] at herr
      cases herr
      have hfailed := hes.drift (.fails hstate)
      exact ⟨es, hopen, hfailed, hfailed.callbacks_of_not_closes hopen⟩

/-- A unit of work whose operations treat the callbacks of its transaction as they should. -/
structure Dutiful (run : HookRunner) (w : Work) : Prop where
  /-- Whatever an operation does to callbacks, it does by events. -/
  undergoes : ∀ op : Operation, ∃ es, w.Undergoes es (op.perform run w).2
  queues : ∀ c, w.txn.autoCommit = false → w.Undergoes [.queued c] (w.afterCommit c)
  runs : ∀ c, w.txn.autoCommit = true → w.Undergoes [.ran c] (w.afterCommit c)
  /-- A commit runs all that have waited, and those that its repair has had registered. -/
  commits : ∀ {w'}, w.commit run = (.ok (), w') →
    w.txn.isEmpty = true ∧ w.Undergoes [.emptied w.txn.callbacks] w' ∨
    w.txn.isEmpty = false ∧ ∃ es b c, (∀ e ∈ es, e.closes = false) ∧
      w.Undergoes (es ++ [.wrote b c (w.txn.callbacks ++ es.filterMap Event.queued?)]) w'
  fails : ∀ {err w'}, w.commit run = (.error err, w') →
    ∃ es, (∀ e ∈ es, e.closes = false) ∧ w.Undergoes es w' ∧
      w'.txn.callbacks = w.txn.callbacks ++ es.filterMap Event.queued?
  writes : ∀ {op : Operation} {w'}, op.WritesAtOnce run w w' →
    ∃ es b c calls, w.Undergoes (es ++ [.wrote b c calls]) w'
  rollsBack : ∀ {w'}, w.rollback = (.ok (), w') → w.Undergoes [.discarded w.txn.callbacks] w'

/-- Whatever hooks do, every unit of work is one. -/
theorem dutiful (hooks : Hooks) (level : Nat) (w : Work) : w.Dutiful (hooks.runner level) where
  undergoes op := undergoes_perform hooks level op w
  queues _ hauto := .of_occurs (.queued hauto)
  runs _ hauto := .of_occurs (.ran hauto)
  commits := undergoes_commit_ok
  fails := undergoes_commit_error
  writes := undergoes_writesAtOnce
  rollsBack := undergoes_rollback

end Work

end EntityStore
