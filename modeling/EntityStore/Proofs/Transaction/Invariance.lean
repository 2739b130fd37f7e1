import EntityStore.Proofs.Transaction.Upholding

/-!
# Invariants that are broken for a time

Operations nest. A commit holds a write, a write holds a repair, a repair holds passes, a pass holds
checks, and a check may set off any operation again. At some of these places an invariant is broken
on purpose: a pass sets a mark, a check takes its entity out of the working set, a commit puts the
transaction into a state of its own. Such an invariant comes as a family, with one member for every
place. Each part of an operation keeps the member of its place, or leads to another place and back
(`Invariant`). Then the member of the place where an operation begins holds again when it is over,
however deeply hooks set off hooks (`Invariant.perform`, `Invariant.runner`).
-/

namespace EntityStore

namespace Operation

/-- Operations that change a setting of the transaction. -/
inductive Sets : Operation → (Transaction → Transaction) → Prop
  | autoCommit (value : Bool) : Sets (.setAutoCommit value) ({ · with autoCommit := value })
  | ignoreModifications (value : Bool) :
      Sets (.setIgnoreModifications value) ({ · with ignoreModifications := value })
  | ensureIntegrity (value : Bool) :
      Sets (.setEnsureIntegrity value) ({ · with ensureIntegrity := value })

end Operation

namespace Work

variable {ι : Type} {I : ι → Work → Prop} {may : Work → Operation → Prop} {inner : ι → Prop}
  {run : HookRunner} {i j : ι} {w : Work}

/-- A write may be made at one place on behalf of an operation at another, given what follows when
it has succeeded or failed. -/
structure Window (I : ι → Work → Prop) (outer inner : ι) (succeed fail : Work → Work) : Prop where
  failed : ∀ {w}, I inner w → I outer (fail w)
  rejected : ∀ {w err b}, I inner w → w.store.backend.update w.txn.batch = (.error err, b) →
    I outer (fail (w.withBackend b))
  applied : ∀ {w b}, I inner w → w.store.backend.update w.txn.batch = (.ok (), b) →
    I outer (succeed (w.withBackend b).settle)

/-- The parts of operations, each of which keeps what holds at its place. Some places are inside of
writes; the others are not known to be. -/
structure Invariant (may : Work → Operation → Prop) (inner : ι → Prop) (I : ι → Work → Prop) :
    Prop where
  snapshot : ∀ {i w e}, I i w → w.txn.state.isFinished = false →
    w.txn.deleted.contains e.id = false → I i (w.onTxn (·.recordSnapshot e))
  field : ∀ {i w e field value}, I i w → w.txn.state.isFinished = false →
    w.contains e.id = true → I i (w.takeDown e field value)
  deletion : ∀ {i w id}, I i w → w.txn.state.isFinished = false →
    w.txn.deleted.contains id = false →
    I i ((w.onTxn (·.recordDeletion id)).onStore (·.onBackend Backend.noteModification))
  setting : ∀ {i w op change}, I i w → may w op → op.Sets change → I i (w.onTxn change)
  query : ∀ {i w}, I i w → I i (w.count Statistics.countQuery)
  remark : ∀ {i w r}, I i w → I i (w.onStore (·.note (.remark r)))
  afterCommit : ∀ {i w c}, I i w → may w (.afterCommit c) → I i (w.afterCommit c)
  /-- A commit that has nothing to write. -/
  idle : ∀ {i w}, I i w → w.txn.state = .active → w.txn.isEmpty = true →
    I i ((w.runCallbacks.finish .committed).count Statistics.countCommit)
  committing : ∀ {i w}, I i w → w.txn.state = .active → ∃ j, inner j ∧ I j (w.inState .committing) ∧
    Window I i j (fun u => (u.finish .committed).count Statistics.countCommit)
      (fun u => (u.inState .active).count Statistics.countCommitFailure)
  rollingBack : ∀ {i w}, I i w → w.txn.state = .active →
    I i ((finish .rolledBack (w.onTxn fun t => { t.clearPending with callbacks := [] })).count
      Statistics.countRollback)
  /-- A change that is written as soon as it is recorded. -/
  atOnce : ∀ {i w}, I i w → w.writesThrough = true → ∃ j, inner j ∧ I j w ∧ Window I i j id id
  pass : ∀ {i w}, inner i → I i w →
    ∃ j, inner j ∧ I j w.beginPass ∧ ∀ u, I j u → I i u.endPass
  restart : ∀ {i w}, inner i → I i w → I i (w.count Statistics.countRestart)
  check : ∀ {i w id}, inner i → I i w →
    w.txn.modified.contains id = true ∨ w.txn.deleted.contains id = false →
    ∃ j, I j (w.checkOut id) ∧
      ∀ body u, I j u → I i (u.checkIn (w.txn.modified.contains id) ⟨id, body⟩)

/-- Whatever holds at the place where a hook is set off holds again when it is over. -/
def Keeps (run : HookRunner) (I : ι → Work → Prop) : Prop :=
  ∀ i hook e w, I i w → I i (run hook e w).2

namespace Invariant

/-! ## Repairs -/

theorem checkEntity (h : Invariant may inner I) (hook : Keeps run I) (hi : inner i) {id : EntityId}
    (hdue : w.txn.modified.contains id = true ∨ w.txn.deleted.contains id = false) (hw : I i w) :
    I i (Work.checkEntity run id w).2 := by
  rw [Work.checkEntity]
  split
  · exact hw
  · rename_i e _
    obtain ⟨j, hout, hin⟩ := h.check hi hw hdue
    exact hin _ _ (hook j .check e _ hout)

theorem passRelation (h : Invariant may inner I) (hook : Keeps run I) (hi : inner i) :
    PassRelation run fun w w' => I i w → I i w' where
  refl _ hw := hw
  trans h h' hw := h' (h hw)
  check _ _ hdue hw := h.checkEntity hook hi hdue hw
  query _ hw := h.query hw

theorem ensureIntegrity (h : Invariant may inner I) (hook : Keeps run I) (hi : inner i)
    (hw : I i w) : I i (Work.ensureIntegrity run w).2 := by
  refine repeatPasses_preserves (fun w hw => ?_) (fun w hw => h.restart hi hw) hw
  obtain ⟨j, hj, hbegun, hended⟩ := h.pass hi hw
  exact hended _ ((h.passRelation hook hj).integrityPass _ hbegun)

/-! ## Writes -/

theorem applyPending {succeed fail : Work → Work} (hwindow : Window I i j succeed fail)
    (hw : I j w) :
    (∃ u, w.applyPending = (.ok (), u) ∧ I i (succeed u)) ∨
      ∃ err u, w.applyPending = (.error err, u) ∧ I i (fail u) := by
  unfold Work.applyPending
  split
  · rename_i err b hupdate
    exact .inr ⟨err, _, rfl, hwindow.rejected hw hupdate⟩
  · rename_i b hupdate
    exact .inl ⟨_, rfl, hwindow.applied hw hupdate⟩

theorem writePending (h : Invariant may inner I) (hook : Keeps run I) (hj : inner j)
    {succeed fail : Work → Work} (hwindow : Window I i j succeed fail) (hw : I j w) :
    (∃ u, w.writePending run = (.ok (), u) ∧ I i (succeed u)) ∨
      ∃ err u, w.writePending run = (.error err, u) ∧ I i (fail u) := by
  have hrepaired := h.ensureIntegrity hook hj hw
  rcases w.writePending_cases run with ⟨-, err, u, hrepair, heq⟩ | ⟨-, u, hrepair, heq⟩ |
    ⟨-, heq⟩
  · rw [hrepair] at hrepaired
    exact .inr ⟨err, u, heq, hwindow.failed hrepaired⟩
  · rw [hrepair] at hrepaired
    rw [heq]
    exact applyPending hwindow hrepaired
  · rw [heq]
    exact applyPending hwindow hw

theorem writeThrough (h : Invariant may inner I) (hook : Keeps run I) (hw : I i w) :
    I i (w.writeThrough run).2 := by
  rw [Work.writeThrough]
  split
  · rename_i hthrough
    obtain ⟨j, hj, hinner, hwindow⟩ := h.atOnce hw hthrough
    rcases h.writePending hook hj hwindow hinner with ⟨u, heq, hu⟩ | ⟨err, u, heq, hu⟩ <;> rw [heq]
    · exact hu
    · exact hu
  · exact hw

/-! ## Operations -/

theorem delete (h : Invariant may inner I) (hook : Keeps run I) {id : EntityId} (hw : I i w) :
    I i (w.delete run id).2 := by
  rcases w.delete_cases run id with
    ⟨result, heq⟩ | ⟨hopen, hfresh, ⟨-, heq⟩ | ⟨-, heq⟩⟩ <;> rw [heq]
  · exact hw
  · exact h.deletion hw hopen hfresh
  · exact h.writeThrough hook (h.deletion hw hopen hfresh)

theorem commit (h : Invariant may inner I) (hook : Keeps run I) (hw : I i w) :
    I i (w.commit run).2 := by
  rcases w.commit_cases run with ⟨-, err, heq⟩ | ⟨hactive, hempty, heq⟩ |
    ⟨hactive, -, u, hwrite, heq⟩ | ⟨hactive, -, err, u, hwrite, heq⟩ <;> rw [heq]
  · exact hw
  · exact h.idle hw hactive hempty
  all_goals
    obtain ⟨j, hj, hinner, hwindow⟩ := h.committing hw hactive
    rcases h.writePending hook hj hwindow hinner with ⟨u', heq', hu⟩ | ⟨err', u', heq', hu⟩ <;>
      rw [hwrite] at heq' <;> cases heq'
    exact hu

theorem rollback (h : Invariant may inner I) (hw : I i w) : I i w.rollback.2 := by
  rcases w.rollback_cases with ⟨-, err, heq⟩ | ⟨hactive, heq⟩ <;> rw [heq]
  · exact hw
  · exact h.rollingBack hw hactive

/-- What the parts of operations keep is kept by every permitted operation. -/
theorem perform (h : Invariant may inner I) (hook : Keeps run I) {op : Operation} (hop : may w op)
    (hw : I i w) : I i (op.perform run w).2 := by
  cases op with
  | persist e =>
    rcases w.persist_cases run e with ⟨result, heq⟩ | ⟨hopen, hfresh, heq⟩ <;>
      rw [Operation.perform, heq]
    · exact hw
    · exact h.writeThrough hook (h.snapshot hw hopen hfresh)
  | modified e field value =>
    rcases w.modified_cases run e field value with ⟨result, heq⟩ | ⟨hopen, -, hsees, heq⟩ <;>
      rw [Operation.perform, heq]
    · exact hw
    · exact h.writeThrough hook (h.field hw hopen hsees)
  | delete id => exact h.delete hook hw
  | deleteEntity e =>
    have hhook := hook i .delete e w hw
    rcases w.deleteEntity_cases run e with ⟨err, heq⟩ | heq <;> rw [Operation.perform, heq]
    · exact hhook
    · exact h.delete hook hhook
  | commit => exact h.commit hook hw
  | rollback => exact h.rollback hw
  | afterCommit c => exact h.afterCommit hw hop
  | setAutoCommit value => exact h.setting hw hop (.autoCommit value)
  | setIgnoreModifications value => exact h.setting hw hop (.ignoreModifications value)
  | setEnsureIntegrity value => exact h.setting hw hop (.ensureIntegrity value)
  | findAll _ | findFirst _ => exact h.query hw
  | remark r => exact h.remark hw
  | contains _ | get _ | inspect => exact hw

/-! ## Programs and hooks -/

theorem program (h : Invariant may inner I) (hook : Keeps run I) {α : Type} {p : Program α}
    (hp : p.Obeys run may w) (hw : I i w) : I i (p.run run w).2 := by
  induction p generalizing w with
  | done value => exact hw
  | ask op next ih => exact ih _ hp.2 (h.perform hook hp.1 hw)

/-- What the parts of operations keep is kept by the hooks at every level. -/
theorem runner (h : Invariant may inner I) {hooks : Hooks}
    (hhooks : ∀ level i hook e w, I i w → (hooks hook e).Obeys (hooks.runner level) may w)
    (level : Nat) : Keeps (hooks.runner level) I := by
  -- hooks at one level set off hooks one level down
  induction level with
  | zero => exact fun _ _ _ _ hw => hw
  | succ level ih => exact fun i hook e w hw => h.program ih (hhooks level i hook e w hw) hw

theorem keeps (h : Invariant (fun _ _ => True) inner I) (hooks : Hooks) (level : Nat) :
    Keeps (hooks.runner level) I :=
  h.runner (fun _ _ _ _ _ _ => (Program.asks_true _).obeys (fun _ _ _ => trivial) _) level

end Invariant

end Work

end EntityStore
