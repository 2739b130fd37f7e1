import EntityStore.Proofs.Transaction.Finality

/-!
# What is left of ended transactions

An operation in an ended transaction leaves its state and its working set alone. A transaction that
ends forgets its working set. But a check that has ended its transaction in the midst of a write at
once still puts its entity back, and if the write then fails nobody takes it away. Main statement:
nothing else is ever left (`Hooks.tidy_perform`).
-/

namespace EntityStore

namespace Work

/-! ## Operations in ended transactions -/

/-- Two units of work between which a transaction has kept its state and its working set. -/
structure Rests (w w' : Work) : Prop where
  state : w'.txn.state = w.txn.state
  modified : w'.txn.modified = w.txn.modified
  deleted : w'.txn.deleted = w.txn.deleted

variable {run : HookRunner} {u w w' : Work}

theorem Rests.refl (w : Work) : w.Rests w := ⟨rfl, rfl, rfl⟩

theorem Rests.trans (h : u.Rests w) (h' : w.Rests w') : u.Rests w' :=
  ⟨h'.state.trans h.state, h'.modified.trans h.modified, h'.deleted.trans h.deleted⟩

theorem Rests.isEmpty (h : w.Rests w') : w'.txn.isEmpty = w.txn.isEmpty := by
  rw [Transaction.isEmpty, h.modified, h.deleted, Transaction.isEmpty]

theorem delete_of_finished (hw : w.txn.state.isFinished = true) (id : EntityId) :
    (w.delete run id).2 = w := by
  rcases w.delete_cases run id with ⟨result, heq⟩ | ⟨hopen, -⟩
  · rw [heq]
  · rw [hw] at hopen
    cases hopen

/-- An operation in an ended transaction leaves it as it is if the hooks that it sets off do. -/
theorem rests_perform (hook : ∀ e, w.Rests (run .delete e w).2)
    (hw : w.txn.state.isFinished = true) (op : Operation) : w.Rests (op.perform run w).2 := by
  have hopen : w.txn.state.isFinished ≠ false := by simp [hw]
  have hended : w.txn.state ≠ .active := fun h => by rw [h] at hw; cases hw
  cases op with
  | persist e =>
    rcases w.persist_cases run e with ⟨result, heq⟩ | ⟨hno, -⟩
    · rw [Operation.perform, heq]
      exact .refl w
    · exact absurd hno hopen
  | modified e field value =>
    rcases w.modified_cases run e field value with ⟨result, heq⟩ | ⟨hno, -⟩
    · rw [Operation.perform, heq]
      exact .refl w
    · exact absurd hno hopen
  | delete id =>
    rw [Operation.perform, delete_of_finished hw]
    exact .refl w
  | deleteEntity e =>
    have hrests := hook e
    rcases w.deleteEntity_cases run e with ⟨err, heq⟩ | heq <;> rw [Operation.perform, heq]
    · exact hrests
    · rw [delete_of_finished (by rw [hrests.state]; exact hw)]
      exact hrests
  | commit =>
    rcases w.commit_cases run with ⟨-, err, heq⟩ | ⟨h, -⟩ | ⟨h, -⟩ | ⟨h, -⟩
    · rw [Operation.perform, heq]
      exact .refl w
    all_goals exact absurd h hended
  | rollback =>
    rcases w.rollback_cases with ⟨-, err, heq⟩ | ⟨h, -⟩
    · rw [Operation.perform, heq]
      exact .refl w
    · exact absurd h hended
  | afterCommit c =>
    rw [Operation.perform, afterCommit]
    split <;> exact ⟨rfl, rfl, rfl⟩
  | setAutoCommit _ | setIgnoreModifications _ | setEnsureIntegrity _ => exact ⟨rfl, rfl, rfl⟩
  | findAll _ | findFirst _ | remark _ => exact ⟨rfl, rfl, rfl⟩
  | contains _ | get _ | inspect => exact .refl w

/-! ## Working sets of ended transactions -/

/-- What an ended transaction holds was left by a write at once: the repair before it had ended the
transaction, and then the repair itself or the backend failed. -/
structure LeftOver (runs : HookRunner → Prop) (w : Work) : Prop where
  nonempty : w.txn.isEmpty = false
  origin : ∃ run u, runs run ∧ u.writesThrough = true ∧ u.txn.ensureIntegrity = true ∧
    (ensureIntegrity run u).2.txn.state.isFinished = true ∧ (u.writePending run).1 ≠ .ok () ∧
    (u.writePending run).2.Rests w ∧
    (u.writePending run).2.store.backend.memory.log <+: w.store.backend.memory.log

/-- An ended transaction holds nothing but what a write at once has left. -/
def Tidy (runs : HookRunner → Prop) (w : Work) : Prop :=
  w.txn.state.isFinished = true → w.txn.isEmpty = true ∨ w.LeftOver runs

variable {runs : HookRunner → Prop} {auto : Bool}

theorem tidy_of_not_finished (h : w.txn.state.isFinished = false) : w.Tidy runs := by
  intro hfinished
  rw [h] at hfinished
  cases hfinished

theorem Tidy.isEmpty_iff (hw : w.Tidy runs) (hended : w.txn.state.isFinished = true) :
    w.txn.isEmpty = true ↔ ¬ w.LeftOver runs := by
  refine ⟨fun hempty hleft => ?_, (hw hended).resolve_right⟩
  rw [hleft.nonempty] at hempty
  cases hempty

theorem tidy_of_isEmpty (h : w.txn.isEmpty = true) : w.Tidy runs := fun _ => .inl h

theorem Tidy.rests (hw : w.Tidy runs) (h : w.Rests w')
    (hlog : w.store.backend.memory.log <+: w'.store.backend.memory.log) : w'.Tidy runs := by
  intro hfinished
  rw [h.state] at hfinished
  rcases hw hfinished with hempty |
    ⟨hnonempty, run, u, hrun, hthrough, hflag, hend, hfails, hrests, hle⟩
  · exact .inl (h.isEmpty.trans hempty)
  · exact .inr ⟨h.isEmpty.trans hnonempty, run, u, hrun, hthrough, hflag, hend, hfails,
      hrests.trans h, hle.trans hlog⟩

theorem settle_isEmpty (w : Work) : w.settle.txn.isEmpty = true := rfl

/-- A write at once leaves an ended transaction with something only if it fails. -/
theorem tidy_writePending (hrun : runs run) (hthrough : w.writesThrough = true) :
    (w.writePending run).2.Tidy runs := by
  have left : ∀ err v, w.writePending run = (.error err, v) → w.txn.ensureIntegrity = true →
      ((ensureIntegrity run w).2.txn.state = v.txn.state) → v.Tidy runs := by
    intro err v hv hflag hstate hfinished
    cases hempty : v.txn.isEmpty with
    | true => exact .inl rfl
    | false =>
      refine .inr ⟨hempty, run, w, hrun, hthrough, hflag, by rw [hstate]; exact hfinished, ?_⟩
      rw [hv]
      exact ⟨by simp, .refl v, List.prefix_refl _⟩
  rcases w.writePending_cases run with ⟨hflag, err, u, hu, heq⟩ | ⟨hflag, u, hu, heq⟩ | ⟨-, heq⟩
  · rw [heq]
    exact left err u heq hflag (by rw [hu])
  · rcases u.applyPending_cases with ⟨err, b, -, hpending⟩ | ⟨b, -, hpending⟩
    · rw [heq, hpending]
      exact left err (u.withBackend b) (heq.trans hpending) hflag (by rw [hu]; rfl)
    · rw [heq, hpending]
      exact tidy_of_isEmpty (settle_isEmpty _)
  · rw [heq]
    rcases w.applyPending_cases with ⟨err, b, -, hpending⟩ | ⟨b, -, hpending⟩
    · rw [hpending]
      exact tidy_of_not_finished (not_finished_of_active (active_of_writesThrough hthrough))
    · rw [hpending]
      exact tidy_of_isEmpty (settle_isEmpty _)

theorem tidy_writeThrough (hrun : auto = true → runs run) (hw : w.Cautious auto)
    (hopen : w.txn.state.isFinished = false) : (w.writeThrough run).2.Tidy runs := by
  rw [writeThrough]
  split
  · rename_i hthrough
    refine tidy_writePending (hrun (hw.resolve_right fun hm => ?_)) hthrough
    rw [hm.not_writesThrough] at hthrough
    cases hthrough
  · exact tidy_of_not_finished hopen

theorem tidy_delete (hrun : auto = true → runs run) (hw : w.Cautious auto) (htidy : w.Tidy runs)
    (id : EntityId) : (w.delete run id).2.Tidy runs := by
  rcases w.delete_cases run id with ⟨result, heq⟩ | ⟨hopen, -, ⟨-, heq⟩ | ⟨-, heq⟩⟩ <;> rw [heq]
  · exact htidy
  · exact tidy_of_not_finished hopen
  · exact tidy_writeThrough hrun (hw.imp_right fun hm => hm.adjusts (.recordDeletion w id)) hopen

theorem tidy_commit (hw : w.txn.state.isFinished = false) : (w.commit run).2.Tidy runs := by
  rcases w.commit_cases run with ⟨-, err, heq⟩ | ⟨-, hempty, heq⟩ | ⟨-, -, u, hu, heq⟩ |
    ⟨-, -, err, u, hu, heq⟩
  · rw [heq]
    exact tidy_of_not_finished hw
  · rw [heq]
    exact tidy_of_isEmpty hempty
  · rw [heq]
    refine tidy_of_isEmpty ?_
    have settled : ∀ v : Work, v.applyPending = (.ok (), u) → u.txn.isEmpty = true := by
      intro v hv
      rcases v.applyPending_cases with ⟨err, b, -, hpending⟩ | ⟨b, -, hpending⟩
      · rw [hpending] at hv
        cases hv
      · rw [hpending] at hv
        cases hv
        rfl
    rcases writePending_cases run (w.inState .committing) with ⟨-, err, v, -, hwrite⟩ |
      ⟨-, v, -, hwrite⟩ | ⟨-, hwrite⟩
    · rw [hwrite] at hu
      cases hu
    · exact settled v (hwrite ▸ hu)
    · exact settled _ (hwrite ▸ hu)
  · rw [heq]
    exact tidy_of_not_finished rfl

theorem tidy_rollback (hw : w.txn.state.isFinished = false) : w.rollback.2.Tidy runs := by
  rcases w.rollback_cases with ⟨-, err, heq⟩ | ⟨-, heq⟩
  · rw [heq]
    exact tidy_of_not_finished hw
  · rw [heq]
    exact tidy_of_isEmpty rfl

/-- An operation leaves an ended transaction with nothing but what a write at once has left. -/
theorem tidy_perform_of_open (hrun : auto = true → runs run)
    (hook : ∀ e, (run .delete e w).2.Cautious auto ∧ (run .delete e w).2.Tidy runs)
    (hw : w.Cautious auto) (hopen : w.txn.state.isFinished = false) (op : Operation) :
    (op.perform run w).2.Tidy runs := by
  have hsame : w.Tidy runs := tidy_of_not_finished hopen
  cases op with
  | persist e =>
    rcases w.persist_cases run e with ⟨result, heq⟩ | ⟨-, -, heq⟩ <;> rw [Operation.perform, heq]
    · exact hsame
    · exact tidy_writeThrough hrun (hw.imp_right fun hm => hm.adjusts (.recordSnapshot w e)) hopen
  | modified e field value =>
    rcases w.modified_cases run e field value with ⟨result, heq⟩ | ⟨-, -, -, heq⟩ <;>
      rw [Operation.perform, heq]
    · exact hsame
    · exact tidy_writeThrough hrun (hw.imp_right fun hm => hm.adjusts (.takeDown w e field value))
        hopen
  | delete id => exact tidy_delete hrun hw hsame id
  | deleteEntity e =>
    obtain ⟨hcautious, htidy⟩ := hook e
    rcases w.deleteEntity_cases run e with ⟨err, heq⟩ | heq <;> rw [Operation.perform, heq]
    · exact htidy
    · exact tidy_delete hrun hcautious htidy e.id
  | commit => exact tidy_commit hopen
  | rollback => exact tidy_rollback hopen
  | afterCommit c =>
    rw [Operation.perform, afterCommit]
    split <;> exact tidy_of_not_finished hopen
  | setAutoCommit _ | setIgnoreModifications _ | setEnsureIntegrity _ | findAll _ | findFirst _
  | remark _ | contains _ | get _ | inspect => exact tidy_of_not_finished hopen

end Work

namespace Hooks

/-- However hooks set off one another, an ended transaction keeps its state and its working set. -/
theorem rests (hooks : Hooks) (level : Nat) (hook : Hook) (e : Entity) {w : Work}
    (hw : w.txn.state.isFinished = true) : w.Rests (hooks.runner level hook e w).2 := by
  -- the hooks that an operation of this level sets off are those of the level below
  induction level generalizing hook e w with
  | zero => exact .refl w
  | succ level ih =>
    refine (Program.asks_true (hooks hook e)).run_preserves (I := w.Rests) (fun op _ u hu => ?_)
      (.refl w)
    have hended : u.txn.state.isFinished = true := by rw [hu.state]; exact hw
    exact hu.trans (Work.rests_perform (fun e => ih .delete e hended) hended op)

theorem rests_perform (hooks : Hooks) (level : Nat) (op : Operation) {w : Work}
    (hw : w.txn.state.isFinished = true) : w.Rests (op.perform (hooks.runner level) w).2 :=
  Work.rests_perform (fun e => hooks.rests level .delete e hw) hw op

variable {hooks : Hooks} {auto : Bool} {level : Nat}
  (h : hooks.Ask (Work.Permitted auto (hooks.runners auto level)))
include h

theorem tidy_step {lower : Nat} (hle : lower ≤ level)
    (hook : ∀ e w, w.Cautious auto → w.Regular (hooks.runners auto level) →
      w.Tidy (hooks.runners auto level) →
      (hooks.runner lower .delete e w).2.Tidy (hooks.runners auto level))
    {op : Operation} (hop : Work.Permitted auto (hooks.runners auto level) op) {w : Work}
    (hw : w.Cautious auto) (hregular : w.Regular (hooks.runners auto level))
    (htidy : w.Tidy (hooks.runners auto level)) :
    (op.perform (hooks.runner lower) w).2.Tidy (hooks.runners auto level) := by
  -- only an operation that begins while the transaction is open can leave something in it
  cases hfinished : w.txn.state.isFinished with
  | true =>
    exact htidy.rests (hooks.rests_perform lower op hfinished)
      (continues_perform h hle hop hw hregular).store.grows.log
  | false =>
    refine Work.tidy_perform_of_open (fun hauto => ⟨hauto, lower, hle, rfl⟩) (fun e => ?_) hw
      hfinished op
    exact ⟨(lasts h lower hle .delete e w ⟨hw, hregular⟩).1, hook e w hw hregular htidy⟩

theorem tidy_run_of_hook {α : Type} {lower : Nat} (hle : lower ≤ level)
    (hook : ∀ e w, w.Cautious auto → w.Regular (hooks.runners auto level) →
      w.Tidy (hooks.runners auto level) →
      (hooks.runner lower .delete e w).2.Tidy (hooks.runners auto level))
    {p : Program α} (hp : p.Asks (Work.Permitted auto (hooks.runners auto level))) {w : Work}
    (hw : w.Cautious auto) (hregular : w.Regular (hooks.runners auto level))
    (htidy : w.Tidy (hooks.runners auto level)) :
    (p.run (hooks.runner lower) w).2.Tidy (hooks.runners auto level) := by
  refine (hp.run_preserves (I := fun w => w.Cautious auto ∧
    w.Regular (hooks.runners auto level) ∧ w.Tidy (hooks.runners auto level))
    (fun op hop w hw => ?_) ⟨hw, hregular, htidy⟩).2.2
  obtain ⟨hw, hregular, htidy⟩ := hw
  exact ⟨cautious_perform h lower hop hw, (continues_perform h hle hop hw hregular).regular,
    tidy_step h hle hook hop hw hregular htidy⟩

theorem tidy : ∀ lower ≤ level, ∀ hook e w, w.Cautious auto →
    w.Regular (hooks.runners auto level) → w.Tidy (hooks.runners auto level) →
    (hooks.runner lower hook e w).2.Tidy (hooks.runners auto level) := by
  intro lower
  induction lower with
  | zero => exact fun _ _ _ _ _ _ htidy => htidy
  | succ lower ih =>
    intro hle hook e w
    have hlower : lower ≤ level := Nat.le_of_succ_le hle
    exact tidy_run_of_hook h hlower (fun e w => ih hlower .delete e w) (h hook e)

/-- An ended transaction holds nothing but what a write at once has left. -/
theorem tidy_perform {op : Operation} (hop : Work.Permitted auto (hooks.runners auto level) op)
    {w : Work} (hw : w.Cautious auto) (hregular : w.Regular (hooks.runners auto level))
    (htidy : w.Tidy (hooks.runners auto level)) :
    (op.perform (hooks.runner level) w).2.Tidy (hooks.runners auto level) :=
  tidy_step h (Nat.le_refl _) (fun e w => tidy h level (Nat.le_refl _) .delete e w) hop hw hregular
    htidy

theorem tidy_run {α : Type} {p : Program α}
    (hp : p.Asks (Work.Permitted auto (hooks.runners auto level))) {w : Work}
    (hw : w.Cautious auto) (hregular : w.Regular (hooks.runners auto level))
    (htidy : w.Tidy (hooks.runners auto level)) :
    (p.run (hooks.runner level) w).2.Tidy (hooks.runners auto level) :=
  tidy_run_of_hook h (Nat.le_refl _) (fun e w => tidy h level (Nat.le_refl _) .delete e w) hp hw
    hregular htidy

end Hooks

end EntityStore
