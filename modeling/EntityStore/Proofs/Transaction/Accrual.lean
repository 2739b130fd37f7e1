import EntityStore.Proofs.Transaction.Quiescence

/-!
# What a commit adds to its working set

During the passes of a commit nobody may end the transaction, and a change is recorded but not
written. So the hooks only add to the working set: what is taken away stays taken away, and what is
to be put stays unless it is taken away (`Hooks.accruing`, `Accruing.integrityPass`). No check sets
off another (`Hooks.check_alone`). A pass of honest hooks that is cut short has taken something more
away (`Forthright.integrityPass`).
-/

namespace EntityStore

/-- A commit repairs references, and one of its passes is under way. -/
structure Transaction.Repairing (t : Transaction) : Prop where
  state : t.state = .committing
  ensuring : t.ensuring = true

theorem Transaction.Repairing.unfinished {t : Transaction} (h : t.Repairing) :
    t.state.isFinished = false := by
  rw [h.state]
  rfl

/-- A callback that leaves the committed entities alone. -/
def Callback.SparesTable (c : Callback) : Prop :=
  ∀ s : Store, (c.run s).backend.table = s.backend.table

theorem Callback.runAll_sparesTable {callbacks : List Callback}
    (h : ∀ c ∈ callbacks, c.SparesTable) (s : Store) :
    (Callback.runAll callbacks s).backend.table = s.backend.table := by
  induction callbacks generalizing s with
  | nil => rfl
  | cons c rest ih =>
    exact (ih (fun d hd => h d (List.mem_cons_of_mem _ hd)) (c.run s)).trans
      (h c List.mem_cons_self s)

namespace Work

variable {run run' : HookRunner} {u v w w' : Work}

/-! ## Operations during the passes of a commit -/

theorem persist_repairing (h : w.txn.Repairing) (run : HookRunner) (e : Entity) :
    w.persist run e =
      if w.txn.deleted.contains e.id then
        (.error (.illegalState ("cannot persist deleted entity " ++ e.typeAndId)), w)
      else (.ok (), w.onTxn (·.recordSnapshot e)) :=
  persist_withheld h.unfinished (writesThrough_of_ensuring h.ensuring) run e

theorem modified_repairing (h : w.txn.Repairing) (run : HookRunner) (e : Entity) (field : String)
    (value : PropertyValue) :
    w.modified run e field value =
      if w.txn.ignoreModifications || !w.contains e.id then (.ok (), w)
      else (.ok (), w.takeDown e field value) :=
  modified_withheld h.unfinished (writesThrough_of_ensuring h.ensuring) run e field value

theorem delete_repairing (h : w.txn.Repairing) (run : HookRunner) (id : EntityId) :
    w.delete run id =
      if w.txn.deleted.contains id then (.ok (), w)
      else (.error .integrityRestart,
        (w.onTxn (·.recordDeletion id)).onStore (·.onBackend Backend.noteModification)) := by
  rw [delete_withheld h.unfinished (writesThrough_of_ensuring h.ensuring), if_pos h.ensuring]

theorem commit_repairing (h : w.txn.Repairing) (run : HookRunner) :
    w.commit run = (.error (.illegalState "cannot commit: transaction is committing"), w) := by
  rw [commit, h.state]
  rfl

theorem rollback_repairing (h : w.txn.Repairing) :
    w.rollback = (.error (.illegalState "cannot roll back: transaction is committing"), w) := by
  rw [rollback, h.state]
  rfl

/-- Whatever an operation comes to, only the deletion hooks have a part in it. -/
theorem perform_repairing_congr (h : w.txn.Repairing)
    (hsame : ∀ e, run .delete e w = run' .delete e w)
    (hkeeps : ∀ e, (run' .delete e w).2.txn.Repairing) (op : Operation) :
    op.perform run w = op.perform run' w := by
  cases op with
  | persist e => exact (persist_repairing h run e).trans (persist_repairing h run' e).symm
  | modified e field value =>
    exact (modified_repairing h run e field value).trans
      (modified_repairing h run' e field value).symm
  | delete id => exact (delete_repairing h run id).trans (delete_repairing h run' id).symm
  | deleteEntity e =>
    have hafter := hkeeps e
    simp only [Operation.perform, deleteEntity, hsame]
    split
    · rfl
    · rename_i heq
      rw [heq] at hafter
      exact (delete_repairing hafter run e.id).trans (delete_repairing hafter run' e.id).symm
  | commit => exact (commit_repairing h run).trans (commit_repairing h run').symm
  | _ => rfl

/-! ## Accrual -/

/-- Two units of work, the second of which comes from the first during the passes of a commit. -/
structure Accrues (w w' : Work) : Prop where
  repairing : w'.txn.Repairing
  deleted : ∀ {id}, w.txn.deleted.contains id = true → w'.txn.deleted.contains id = true
  modified : ∀ {id}, w.txn.modified.contains id = true →
    w'.txn.modified.contains id = true ∨ w'.txn.deleted.contains id = true

/-- Something is taken away that was not before. -/
def DeletesAnew (w w' : Work) : Prop :=
  ∃ id, w.txn.deleted.contains id = false ∧ w'.txn.deleted.contains id = true

theorem Accrues.refl (h : w.txn.Repairing) : w.Accrues w := ⟨h, id, .inl⟩

theorem Accrues.trans (h : u.Accrues v) (h' : v.Accrues w) : u.Accrues w where
  repairing := h'.repairing
  deleted hd := h'.deleted (h.deleted hd)
  modified hm := (h.modified hm).elim h'.modified fun hd => .inr (h'.deleted hd)

theorem Accrues.alive (h : w.Accrues w') {id : EntityId}
    (hd : w'.txn.deleted.contains id = false) : w.txn.deleted.contains id = false := by
  cases hgone : w.txn.deleted.contains id with
  | false => rfl
  | true => exact absurd ((h.deleted hgone).symm.trans hd) (by simp)

theorem Accrues.put_of_alive (h : w.Accrues w') {id : EntityId}
    (hput : w.txn.modified.contains id = true) (hd : w'.txn.deleted.contains id = false) :
    w'.txn.modified.contains id = true :=
  (h.modified hput).resolve_right fun hgone => absurd (hgone.symm.trans hd) (by simp)

theorem DeletesAnew.later (h : u.DeletesAnew v) (h' : v.Accrues w) : u.DeletesAnew w := by
  obtain ⟨id, hbefore, hafter⟩ := h
  exact ⟨id, hbefore, h'.deleted hafter⟩

theorem DeletesAnew.earlier (h : u.Accrues v) (h' : v.DeletesAnew w) : u.DeletesAnew w := by
  obtain ⟨id, hbefore, hafter⟩ := h'
  exact ⟨id, h.alive hbefore, hafter⟩

theorem Accrues.put (h : w'.txn.Repairing) (e : Entity)
    (hmodified : w'.txn.modified = w.txn.modified.add e)
    (hdeleted : w'.txn.deleted = w.txn.deleted) : w.Accrues w' where
  repairing := h
  deleted hd := by rwa [hdeleted]
  modified hm := .inl (by rw [hmodified, Index.contains_add, hm, Bool.or_true])

theorem Accrues.recordDeletion (h : w.txn.Repairing) (id : EntityId) :
    w.Accrues
      ((w.onTxn (·.recordDeletion id)).onStore (·.onBackend Backend.noteModification)) where
  repairing := ⟨h.state, h.ensuring⟩
  deleted hd := (OrderedMap.contains_add _ _ _).trans (by rw [hd, Bool.or_true])
  modified {other} hm := by
    by_cases hne : id = other
    · exact .inr ((OrderedMap.contains_add _ _ _).trans (by simp [hne]))
    · exact .inl ((Index.contains_remove _ _ _).trans (by simp [hne, hm]))

/-- Hooks that only add to the working set during the passes of a commit. -/
def Accruing (run : HookRunner) : Prop :=
  ∀ hook e (w : Work), w.txn.Repairing → w.Accrues (run hook e w).2

/-- Hooks that give the signal during the passes of a commit only if they have taken something
away. -/
def Forthright (run : HookRunner) : Prop :=
  ∀ hook e (w : Work), w.txn.Repairing → (run hook e w).1.Signals → w.DeletesAnew (run hook e w).2

theorem Accrues.delete (h : w.txn.Repairing) (run : HookRunner) (id : EntityId) :
    w.Accrues (w.delete run id).2 := by
  rw [delete_repairing h]
  split
  · exact .refl h
  · exact .recordDeletion h id

theorem deletesAnew_delete (h : w.txn.Repairing) {id : EntityId}
    (hsignals : (w.delete run id).1 = .error .integrityRestart) :
    w.DeletesAnew (w.delete run id).2 := by
  rw [delete_repairing h] at hsignals ⊢
  split at hsignals
  · cases hsignals
  · rename_i hfresh
    rw [if_neg hfresh]
    exact ⟨id, by simpa using hfresh, (OrderedMap.contains_add _ _ _).trans (by simp)⟩

/-- Whatever a hook asks for is only added to the working set. -/
theorem Accruing.perform (hook : Accruing run) (h : w.txn.Repairing) (op : Operation) :
    w.Accrues (op.perform run w).2 := by
  cases op with
  | persist e =>
    rw [Operation.perform, persist_repairing h]
    split
    · exact .refl h
    · exact .put ⟨h.state, h.ensuring⟩ e rfl rfl
  | modified e field value =>
    rw [Operation.perform, modified_repairing h]
    split
    · exact .refl h
    · exact .put ⟨h.state, h.ensuring⟩ e rfl rfl
  | delete id => exact .delete h run id
  | deleteEntity e =>
    have hhook := hook .delete e w h
    rcases w.deleteEntity_cases run e with ⟨err, heq⟩ | heq <;> rw [Operation.perform, heq]
    · exact hhook
    · exact hhook.trans (.delete hhook.repairing run e.id)
  | commit =>
    rw [Operation.perform, commit_repairing h]
    exact .refl h
  | rollback =>
    rw [Operation.perform, rollback_repairing h]
    exact .refl h
  | afterCommit c =>
    rw [Operation.perform, afterCommit]
    split
    · exact ⟨h, id, .inl⟩
    · exact ⟨⟨h.state, h.ensuring⟩, id, .inl⟩
  | setAutoCommit _ | setIgnoreModifications _ | setEnsureIntegrity _ | findAll _ | findFirst _
  | remark _ => exact ⟨⟨h.state, h.ensuring⟩, id, .inl⟩
  | contains _ | get _ | inspect => exact .refl h

/-- During the passes of a commit the signal is the reply to a deletion that is new. -/
theorem Forthright.perform (hforth : Forthright run) (hook : Accruing run)
    (h : w.txn.Repairing) (op : Operation) (hsignals : op.Signals (op.perform run w).1) :
    w.DeletesAnew (op.perform run w).2 := by
  cases op with
  | persist e =>
    rw [Operation.perform, persist_repairing h] at hsignals
    split at hsignals <;> cases hsignals
  | modified e field value =>
    rw [Operation.perform, modified_repairing h] at hsignals
    split at hsignals <;> cases hsignals
  | delete id => exact deletesAnew_delete h hsignals
  | deleteEntity e =>
    have hhook := hook .delete e w h
    have hdeletes := hforth .delete e w h
    rw [Operation.perform, deleteEntity] at hsignals ⊢
    split at hsignals
    · rename_i body err after heq
      rw [heq] at hdeletes
      exact hdeletes hsignals
    · rename_i body after heq
      rw [heq] at hhook
      exact (deletesAnew_delete hhook.repairing hsignals).earlier hhook
  | commit =>
    rw [Operation.perform, commit_repairing h] at hsignals
    cases hsignals
  | rollback =>
    rw [Operation.perform, rollback_repairing h] at hsignals
    cases hsignals
  | get id => exact absurd hsignals (get_silent w id)
  | afterCommit _ | setAutoCommit _ | setIgnoreModifications _ | setEnsureIntegrity _
  | contains _ | findAll _ | findFirst _ | inspect | remark _ => exact hsignals.elim

/-! ## Checks and passes -/

theorem Accrues.checkIn (h : w.txn.Repairing) (tracked : Bool) (e : Entity) :
    w.Accrues (w.checkIn tracked e) := by
  unfold Work.checkIn onTxn
  dsimp only
  split
  · exact .put ⟨h.state, h.ensuring⟩ e rfl rfl
  · exact ⟨⟨h.state, h.ensuring⟩, fun hd => hd, .inl⟩

theorem joins_checkIn (w : Work) (e : Entity) :
    (w.checkIn true e).txn.modified.contains e.id = true ∨
      (w.checkIn true e).txn.deleted.contains e.id = true := by
  simp only [Work.checkIn, onTxn, Bool.true_or, Bool.and_true]
  split
  · exact .inl (by simp [Index.contains_add])
  · rename_i hdeleted
    exact .inr (by simpa using hdeleted)

theorem Accruing.checkEntity (hook : Accruing run) (h : w.txn.Repairing) (id : EntityId) :
    w.Accrues (w.checkEntity run id).2 := by
  rw [Work.checkEntity]
  split
  · exact .refl h
  · rename_i e _
    have hran := hook .check e (w.checkOut id) ⟨h.state, h.ensuring⟩
    cases hrun : run .check e (w.checkOut id) with
    | mk outcome after =>
      rw [hrun] at hran
      have hin : after.Accrues
          (after.checkIn (w.txn.modified.contains id) ⟨id, outcome.body⟩) :=
        .checkIn hran.repairing _ _
      refine ⟨hin.repairing, fun hd => hin.deleted (hran.deleted hd), fun {other} hm => ?_⟩
      by_cases hne : id = other
      · subst hne
        rw [hm]
        exact after.joins_checkIn ⟨id, outcome.body⟩
      · have hout : (w.checkOut id).txn.modified.contains other = true :=
          (Index.contains_remove _ _ _).trans (by simp [hne, hm])
        exact (hran.modified hout).elim hin.modified fun hd => .inr (hin.deleted hd)

theorem Forthright.checkEntity (hforth : Forthright run) (h : w.txn.Repairing) {id : EntityId}
    (heq : w.checkEntity run id = (.error .integrityRestart, w')) : w.DeletesAnew w' := by
  rw [Work.checkEntity] at heq
  split at heq
  · cases heq
  · rename_i e _
    obtain ⟨hresult, rfl⟩ := Prod.mk.inj heq
    obtain ⟨other, hbefore, hafter⟩ :=
      hforth .check e (w.checkOut id) ⟨h.state, h.ensuring⟩ hresult
    refine ⟨other, hbefore, ?_⟩
    unfold checkIn onTxn
    dsimp only
    split <;> exact hafter

theorem Accruing.passRelation (hook : Accruing run) :
    PassRelation run fun w w' => w.txn.Repairing → w.Accrues w' where
  refl _ h := .refl h
  trans h h' hw := (h hw).trans (h' (h hw).repairing)
  check id _ _ hw := hook.checkEntity hw id
  query _ hw := ⟨⟨hw.state, hw.ensuring⟩, id, .inl⟩

/-- A pass only adds to the working set. -/
theorem Accruing.integrityPass (hook : Accruing run) (h : w.txn.Repairing) :
    w.Accrues (Work.integrityPass run w).2 :=
  hook.passRelation.integrityPass w h

/-- A pass that is cut short has taken something more away. -/
theorem Forthright.integrityPass (hforth : Forthright run) (hook : Accruing run)
    (h : w.txn.Repairing) (heq : Work.integrityPass run w = (.error .integrityRestart, w')) :
    w.DeletesAnew w' := by
  obtain ⟨id, v, hv, -, hcheck⟩ := hook.passRelation.integrityPass_error heq
  exact (hforth.checkEntity (hv h).repairing hcheck).earlier (hv h)

end Work

/-! ## Hooks -/

namespace Program

variable {α : Type} {runner : HookRunner} {I Q : Work → Prop} {w : Work}

theorem Honest.run_signals {signals : α → Prop} {p : Program α} {heard : Prop}
    (hp : p.Honest signals heard)
    (hstep : ∀ w (op : Operation), I w → I (op.perform runner w).2 ∧
      (Q w → Q (op.perform runner w).2) ∧
        (op.Signals (op.perform runner w).1 → Q (op.perform runner w).2))
    (hw : I w) (hheard : heard → Q w) (hsignals : signals (p.run runner w).1) :
    Q (p.run runner w).2 := by
  induction p generalizing w heard with
  | done value => exact hheard (hp hsignals)
  | ask op next ih =>
    obtain ⟨hafter, hstays, htells⟩ := hstep w op hw
    exact ih _ (hp _) hafter (fun h => h.elim (fun h => hstays (hheard h)) htells) hsignals

end Program

namespace Hooks

variable {hooks : Hooks}

/-- The hooks at every level only add to the working set during the passes of a commit. -/
theorem accruing (hooks : Hooks) (level : Nat) : Work.Accruing (hooks.runner level) := by
  induction level with
  | zero => exact fun _ _ _ hw => .refl hw
  | succ level ih =>
    intro hook e w hw
    exact (hooks hook e).asks_true.run_preserves (I := fun v => w.Accrues v)
      (fun op _ v hv => hv.trans (ih.perform hv.repairing op)) (.refl hw)

/-- Honest hooks that ask for a restart have taken something away. -/
theorem Honest.forthright (hhonest : hooks.Honest) (level : Nat) :
    Work.Forthright (hooks.runner level) := by
  induction level with
  | zero => exact fun _ _ _ _ hsignals => by cases hsignals
  | succ level ih =>
    intro hook e w hw
    refine (hhonest hook e).run_signals (I := fun v => w.Accrues v)
      (Q := fun v => w.DeletesAnew v) (fun v op hv => ?_) (.refl hw) False.elim
    have hafter : v.Accrues (op.perform (hooks.runner level) v).2 :=
      (hooks.accruing level).perform hv.repairing op
    exact ⟨hv.trans hafter, fun h => h.later hafter,
      fun h => (ih.perform (hooks.accruing level) hv.repairing op h).earlier hv⟩

/-- The same hooks, but entities cannot be checked. -/
def unchecked (hooks : Hooks) : Hooks
  | .check, e => .done ⟨e.body, .error .nestedTooDeeply⟩
  | .delete, e => hooks .delete e

section

variable (hooks : Hooks)

theorem run_unchecked_of_delete {level : Nat}
    (hsame : ∀ e (w : Work), w.txn.Repairing →
      hooks.runner level .delete e w = hooks.unchecked.runner level .delete e w)
    {α : Type} (p : Program α) {w : Work} (hw : w.txn.Repairing) :
    p.run (hooks.runner level) w = p.run (hooks.unchecked.runner level) w := by
  have hkeeps : Work.Accruing (hooks.unchecked.runner level) := accruing _ level
  induction p generalizing w with
  | done value => rfl
  | ask op next ih =>
    have hop := Work.perform_repairing_congr hw (fun e => hsame e w hw)
      (fun e => (hkeeps .delete e w hw).repairing) op
    have hafter : w.Accrues (op.perform (hooks.unchecked.runner level) w).2 :=
      hkeeps.perform hw op
    simp only [Program.run, hop]
    exact ih _ hafter.repairing

theorem delete_unchecked (level : Nat) (e : Entity) {w : Work} (hw : w.txn.Repairing) :
    hooks.runner level .delete e w = hooks.unchecked.runner level .delete e w := by
  induction level generalizing e w with
  | zero => rfl
  | succ level ih => exact run_unchecked_of_delete hooks (fun e _ hw => ih e hw) _ hw

/-- Carries out hooks, within which no entity can be checked. -/
def loneRunner (level : Nat) : HookRunner :=
  fun hook e => (hooks hook e).run (hooks.unchecked.runner level)

/-- During the passes of a commit a check would go the same if no other entity could be checked. -/
theorem check_alone (level : Nat) (e : Entity) {w : Work} (hw : w.txn.Repairing) :
    hooks.runner (level + 1) .check e w = hooks.loneRunner level .check e w :=
  run_unchecked_of_delete hooks (fun e _ hw => delete_unchecked hooks level e hw) _ hw

end

end Hooks

end EntityStore
