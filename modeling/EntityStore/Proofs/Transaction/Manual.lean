import EntityStore.Proofs.Transaction.Adjustments

/-!
# Transactions that write only when told to

Where changes are not written at once, nothing is written but by a commit that succeeds. A hook that
is set off during a commit cannot commit itself, because the transaction is no longer active; one
that is set off by a deletion can. Main statements: an operation during which no commit succeeds
moves nothing that others can see (`unmoved_of_not_commits`), a commit that fails neither
(`unmoved_of_commit_error`), and one that succeeds hands over at most one batch before it runs the
callbacks (`commit_ok`).
-/

namespace EntityStore

/-! ## What others can see -/

namespace Store

/-- Two stores with the same committed entities, the same feed, and the same batches applied and
callbacks run. -/
structure Unmoved (s s' : Store) : Prop where
  table : s'.backend.table = s.backend.table
  applied : s'.backend.memory.applied = s.backend.memory.applied
  feed : s'.feed = s.feed
  callbacks : s'.callbacksRun = s.callbacksRun

/-- Two stores of which the second has applied one more batch and published one more change set. -/
structure Delivers (s : Store) (b : Batch) (c : ChangeSet) (s' : Store) : Prop where
  table : s'.backend.table = (s.backend.table.removeAll b.deleted.keys).addAll b.modified
  applied : s'.backend.memory.applied = s.backend.memory.applied ++ [b]
  feed : s'.feed = (s.feed.emit c).2
  callbacks : s'.callbacksRun = s.callbacksRun

variable {s t u : Store}

theorem Unmoved.refl (s : Store) : s.Unmoved s := ⟨rfl, rfl, rfl, rfl⟩

theorem Unmoved.trans (h : s.Unmoved t) (h' : t.Unmoved u) : s.Unmoved u :=
  ⟨h'.table.trans h.table, h'.applied.trans h.applied, h'.feed.trans h.feed,
    h'.callbacks.trans h.callbacks⟩

theorem Quiet.unmoved (h : s.Quiet t) : s.Unmoved t :=
  ⟨h.table, congrArg (List.filterMap _) h.log, h.feed, h.callbacks⟩

theorem Delivers.of_unmoved {b : Batch} {c : ChangeSet} (h : s.Unmoved t) (h' : t.Delivers b c u) :
    s.Delivers b c u :=
  ⟨by rw [h'.table, h.table], by rw [h'.applied, h.applied], by rw [h'.feed, h.feed],
    h'.callbacks.trans h.callbacks⟩

end Store

/-! ## Manual operations -/

/-- A callback that does not make the store write changes at once. -/
def Callback.Manual (c : Callback) : Prop :=
  ∀ s : Store, s.config.autoCommit = false → (c.action s).config.autoCommit = false

/-- Operations after which changes are still not written at once. -/
def Operation.Manual : Operation → Prop
  | .setAutoCommit value => value = false
  | .afterCommit c => c.Manual
  | _ => True

theorem Callback.runAll_manual {callbacks : List Callback} (h : ∀ c ∈ callbacks, c.Manual)
    {s : Store} (hs : s.config.autoCommit = false) :
    (Callback.runAll callbacks s).config.autoCommit = false := by
  induction callbacks generalizing s with
  | nil => exact hs
  | cons c rest ih =>
    exact ih (fun c hc => h c (List.mem_cons_of_mem _ hc)) (h c List.mem_cons_self _ hs)

namespace Work

/-- No change is written at once, neither here nor in transactions to come. -/
structure Manual (w : Work) : Prop where
  autoCommit : w.txn.autoCommit = false
  config : w.store.config.autoCommit = false
  callbacks : ∀ c ∈ w.txn.callbacks, c.Manual

variable {run : HookRunner} {w w' : Work}

theorem Manual.adjusts (hw : w.Manual) (h : w.Adjusts w') : w'.Manual :=
  ⟨h.autoCommit.trans hw.autoCommit, by rw [h.store.config]; exact hw.config,
    by rw [h.callbacks]; exact hw.callbacks⟩

theorem Manual.not_writesThrough (hw : w.Manual) : w.writesThrough = false :=
  writesThrough_of_manual hw.autoCommit

theorem manual_tolerant : Tolerant fun w w' => w.Manual → w'.Manual where
  adjust h hw := hw.adjusts h
  trans h h' hw := h' (h hw)

/-- While a transaction is not active, a hook adds nothing to it but changes and callbacks. -/
structure Confined (w w' : Work) : Prop where
  id : w'.txn.id = w.txn.id
  state : w'.txn.state = w.txn.state
  callbacks : ∃ more, w'.txn.callbacks = w.txn.callbacks ++ more
  store : w.store.Quiet w'.store

theorem confined_tolerant : Tolerant fun w w' =>
    w.Manual ∧ w.txn.state ≠ .active → w'.Manual ∧ w.Confined w' where
  adjust h hw :=
    ⟨hw.1.adjusts h, h.id, h.state, ⟨[], by rw [h.callbacks, List.append_nil]⟩, h.store⟩
  trans h h' hw := by
    obtain ⟨hv, hid, hstate, ⟨more, hmore⟩, hstore⟩ := h hw
    obtain ⟨hw', hid', hstate', ⟨more', hmore'⟩, hstore'⟩ := h' ⟨hv, by rw [hstate]; exact hw.2⟩
    exact ⟨hw', hid'.trans hid, hstate'.trans hstate,
      ⟨more ++ more', by rw [hmore', hmore, List.append_assoc]⟩, hstore.trans hstore'⟩

theorem confined_parts
    (hook : ∀ hook e w, w.Manual ∧ w.txn.state ≠ .active →
      (run hook e w).2.Manual ∧ w.Confined (run hook e w).2) :
    Tolerant.Parts run Operation.Manual fun w w' =>
      w.Manual ∧ w.txn.state ≠ .active → w'.Manual ∧ w.Confined w' where
  hook := hook
  write w h hw := by
    rw [hw.1.not_writesThrough] at h
    cases h
  commit w h hw := absurd h hw.2
  rollback w h hw := absurd h hw.2
  afterCommit c w hc hw := by
    rw [afterCommit, if_neg (by rw [hw.1.autoCommit]; simp)]
    refine ⟨⟨hw.1.autoCommit, hw.1.config, fun c' hc' => ?_⟩, rfl, rfl, ⟨[c], rfl⟩, .refl _⟩
    rcases List.mem_append.1 hc' with hc' | hc'
    · exact hw.1.callbacks c' hc'
    · rw [List.mem_singleton.1 hc']
      exact hc
  setAutoCommit value w hvalue hw :=
    ⟨⟨hvalue, hw.1.config, hw.1.callbacks⟩, rfl, rfl, ⟨[], (List.append_nil _).symm⟩, .refl _⟩

/-- Hooks that confine themselves to changes and callbacks while a transaction is not active. -/
def Confines (run : HookRunner) : Prop :=
  ∀ hook e w, w.Manual ∧ w.txn.state ≠ .active →
    (run hook e w).2.Manual ∧ w.Confined (run hook e w).2

/-! ## Commits -/

theorem unmoved_rejected {b : Backend}
    (hb : b.memory = w.store.backend.memory.note (.rejected w.txn.batch)) :
    w.store.Unmoved (w.withBackend b).store :=
  ⟨by rw [Backend.table, withBackend, onStore, Store.onBackend, hb]; rfl,
    by rw [withBackend, onStore, Store.onBackend, hb]; exact Memory.applied_note_rejected _ _,
    rfl, rfl⟩

theorem delivers_applied {b : Backend}
    (hb : b.memory = w.store.backend.memory.apply w.txn.batch) :
    w.store.Delivers w.txn.batch w.txn.changeSet
      ((w.withBackend b).store.publish w.txn.changeSet) :=
  ⟨by rw [Backend.table, withBackend, onStore, Store.onBackend, Store.publish, hb]; rfl,
    by
      rw [withBackend, onStore, Store.onBackend, Store.publish, hb]
      exact Memory.applied_apply _ _,
    rfl, rfl⟩

theorem unmoved_finish (w : Work) (state : Transaction.State) :
    w.store.Unmoved (w.finish state).store :=
  ⟨rfl, applied_finish w state, rfl, rfl⟩

theorem unmoved_count (w : Work) (counter : Statistics → Statistics) :
    w.store.Unmoved (w.count counter).store :=
  ⟨rfl, rfl, rfl, rfl⟩

/-- What a commit that succeeds leaves: at most one batch is handed over, exactly one if there was
something to write, and then the callbacks run, those that waited before the others. -/
def CommitsTo (w : Work) (s' : Store) : Prop :=
  ∃ mid callbacks, w.txn.callbacks <+: callbacks ∧ (Callback.runAll callbacks mid).Unmoved s' ∧
    (w.txn.isEmpty = true ∧ w.store.Unmoved mid ∨
      w.txn.isEmpty = false ∧ ∃ b c, b.transaction = w.txn.id ∧ w.store.Delivers b c mid)

theorem confined_repair (hrun : Confines run) (hw : w.Manual) :
    (ensureIntegrity run (w.inState .committing)).2.Manual ∧
      (w.inState .committing).Confined (ensureIntegrity run (w.inState .committing)).2 :=
  confined_tolerant.ensureIntegrity hrun _
    ⟨⟨hw.autoCommit, hw.config, hw.callbacks⟩, fun h => by cases h⟩

theorem manual_settle (hw : w.Manual) (b : Backend) : (w.withBackend b).settle.Manual :=
  ⟨hw.autoCommit, Callback.runAll_manual hw.callbacks hw.config, fun c hc => by cases hc⟩

/-- The write of a commit hands over what the repair has collected, or moves nothing. -/
theorem writePending_manual (hrun : Confines run) (hw : w.Manual) :
    (∃ err u, writePending run (w.inState .committing) = (.error err, u) ∧ u.Manual ∧
      w.store.Unmoved u.store) ∨
    ∃ u b, writePending run (w.inState .committing) = (.ok (), (u.withBackend b).settle) ∧
      u.Manual ∧ (w.inState .committing).Confined u ∧
      b.memory = u.store.backend.memory.apply u.txn.batch := by
  have pending : ∀ u : Work, u.Manual → (w.inState .committing).Confined u →
      writePending run (w.inState .committing) = u.applyPending →
      (∃ err u, writePending run (w.inState .committing) = (.error err, u) ∧ u.Manual ∧
        w.store.Unmoved u.store) ∨
      ∃ u b, writePending run (w.inState .committing) = (.ok (), (u.withBackend b).settle) ∧
        u.Manual ∧ (w.inState .committing).Confined u ∧
        b.memory = u.store.backend.memory.apply u.txn.batch := by
    intro u hu hconfined heq
    rcases u.applyPending_cases with ⟨err, b, hb, hpending⟩ | ⟨b, hb, hpending⟩
    · refine .inl ⟨err, u.withBackend b, heq.trans hpending,
        ⟨hu.autoCommit, hu.config, hu.callbacks⟩,
        hconfined.store.unmoved.trans (unmoved_rejected hb)⟩
    · exact .inr ⟨u, b, heq.trans hpending, hu, hconfined, hb⟩
  obtain ⟨hmanual, hconfined⟩ := confined_repair hrun hw
  rcases writePending_cases run (w.inState .committing) with ⟨-, err, u, hrepair, heq⟩ |
    ⟨-, u, hrepair, heq⟩ | ⟨-, heq⟩
  · rw [hrepair] at hmanual hconfined
    exact .inl ⟨err, u, heq, hmanual, hconfined.store.unmoved⟩
  · rw [hrepair] at hmanual hconfined
    exact pending u hmanual hconfined heq
  · refine pending (w.inState .committing) ⟨hw.autoCommit, hw.config, hw.callbacks⟩ ?_ heq
    exact ⟨rfl, rfl, ⟨[], (List.append_nil _).symm⟩, .refl _⟩

theorem Manual.runCallbacks (hw : w.Manual) : w.runCallbacks.Manual :=
  ⟨hw.autoCommit, Callback.runAll_manual hw.callbacks hw.config, fun c hc => by cases hc⟩

theorem Manual.commit (hrun : Confines run) (hw : w.Manual) : (w.commit run).2.Manual := by
  rcases w.commit_cases run with ⟨-, err, heq⟩ | ⟨-, -, heq⟩ | ⟨-, -, u, hwrite, heq⟩ |
    ⟨-, -, err, u, hwrite, heq⟩
  · rw [heq]
    exact hw
  · rw [heq]
    obtain ⟨hauto, hconfig, hcallbacks⟩ := hw.runCallbacks
    exact ⟨hauto, hconfig, hcallbacks⟩
  all_goals
    rw [heq]
    rcases writePending_manual hrun hw with ⟨_, v, hv, hmanual, -⟩ | ⟨v, b, hv, hmanual, -, -⟩
    all_goals
      rw [hwrite] at hv
      cases hv
  · obtain ⟨hauto, hconfig, hcallbacks⟩ := manual_settle hmanual b
    exact ⟨hauto, hconfig, hcallbacks⟩
  · exact ⟨hmanual.autoCommit, hmanual.config, hmanual.callbacks⟩

/-- A commit that fails moves nothing. -/
theorem unmoved_of_commit_error (hrun : Confines run) (hw : w.Manual) {err : StoreError}
    (h : w.commit run = (.error err, w')) : w.store.Unmoved w'.store := by
  rcases w.commit_cases run with ⟨-, err, heq⟩ | ⟨-, -, heq⟩ | ⟨-, -, u, hwrite, heq⟩ |
    ⟨-, -, err, u, hwrite, heq⟩
  · rw [heq] at h
    cases h
    exact .refl _
  · rw [heq] at h
    cases h
  · rw [heq] at h
    cases h
  · rw [heq] at h
    cases h
    rcases writePending_manual hrun hw with ⟨_, v, hv, -, hunmoved⟩ | ⟨v, b, hv, -⟩
    · rw [hwrite] at hv
      cases hv
      exact hunmoved.trans (unmoved_count _ _)
    · rw [hwrite] at hv
      cases hv

/-- A commit that succeeds hands over one batch, or none if there was nothing to write. -/
theorem commit_ok (hrun : Confines run) (hw : w.Manual) (h : w.commit run = (.ok (), w')) :
    w.CommitsTo w'.store := by
  rcases w.commit_cases run with ⟨-, err, heq⟩ | ⟨-, hempty, heq⟩ | ⟨-, hempty, u, hwrite, heq⟩ |
    ⟨-, -, err, u, hwrite, heq⟩
  · rw [heq] at h
    cases h
  · rw [heq] at h
    cases h
    exact ⟨w.store, w.txn.callbacks, List.prefix_refl _,
      (unmoved_finish w.runCallbacks .committed).trans (unmoved_count _ _),
      .inl ⟨hempty, .refl _⟩⟩
  · rw [heq] at h
    cases h
    rcases writePending_manual hrun hw with ⟨_, v, hv, -⟩ | ⟨v, b, hv, -, hconfined, hb⟩
    · rw [hwrite] at hv
      cases hv
    · rw [hwrite] at hv
      cases hv
      obtain ⟨more, hmore⟩ := hconfined.callbacks
      refine ⟨(v.withBackend b).store.publish v.txn.changeSet, v.txn.callbacks, ⟨more, hmore.symm⟩,
        ?_, .inr ⟨hempty, v.txn.batch, v.txn.changeSet, hconfined.id, ?_⟩⟩
      · have hcount : (Callback.runAll v.txn.callbacks
            ((v.withBackend b).store.publish v.txn.changeSet)).Unmoved
            (v.withBackend b).settle.store :=
          ⟨rfl, rfl, rfl, rfl⟩
        exact hcount.trans
          ((unmoved_finish (v.withBackend b).settle .committed).trans (unmoved_count _ _))
      · exact .of_unmoved hconfined.store.unmoved (delivers_applied hb)
  · rw [heq] at h
    cases h

theorem manual_parts (hrun : Confines run)
    (hook : ∀ hook e w, w.Manual → (run hook e w).2.Manual) :
    Tolerant.Parts run Operation.Manual fun w w' => w.Manual → w'.Manual where
  hook := hook
  write w h hw := by
    rw [hw.not_writesThrough] at h
    cases h
  commit w _ hw := hw.commit hrun
  rollback w _ hw := by
    rcases w.rollback_cases with ⟨-, err, heq⟩ | ⟨-, heq⟩
    · rw [heq]
      exact hw
    · rw [heq]
      exact ⟨hw.autoCommit, hw.config, fun c hc => by cases hc⟩
  afterCommit c w hc hw := by
    rw [afterCommit, if_neg (by rw [hw.autoCommit]; simp)]
    refine ⟨hw.autoCommit, hw.config, fun c' hc' => ?_⟩
    rcases List.mem_append.1 hc' with hc' | hc'
    · exact hw.callbacks c' hc'
    · rw [List.mem_singleton.1 hc']
      exact hc
  setAutoCommit value w hvalue hw := ⟨hvalue, hw.config, hw.callbacks⟩

theorem Manual.writeThrough (hw : w.Manual) (run : HookRunner) :
    w.writeThrough run = (.ok (), w) :=
  writeThrough_withheld hw.not_writesThrough run

theorem Manual.unmoved_delete (hw : w.Manual) (run : HookRunner) (id : EntityId) :
    w.store.Unmoved (w.delete run id).2.store := by
  have hrecorded := Adjusts.recordDeletion w id
  rcases w.delete_cases run id with ⟨result, heq⟩ | ⟨-, -, ⟨-, heq⟩ | ⟨-, heq⟩⟩ <;> rw [heq]
  · exact .refl _
  · exact hrecorded.store.unmoved
  · rw [(hw.adjusts hrecorded).writeThrough run]
    exact hrecorded.store.unmoved

theorem unmoved_rollback (w : Work) : w.store.Unmoved w.rollback.2.store := by
  rcases w.rollback_cases with ⟨-, err, heq⟩ | ⟨-, heq⟩
  · rw [heq]
    exact .refl _
  · rw [heq]
    exact (unmoved_finish _ .rolledBack).trans (unmoved_count _ _)

theorem unmoved_drop (w : Work) : w.store.Unmoved w.drop := by
  rw [drop]
  split
  · exact .refl _
  · exact ⟨rfl, Memory.applied_note_finished _ _, rfl, rfl⟩

/-- Operations other than commits and deletions of entities move nothing. -/
theorem Manual.unmoved_perform (hw : w.Manual) (run : HookRunner) {op : Operation}
    (hop : op.Manual) (hcommit : op ≠ .commit) (hdelete : ∀ e, op ≠ .deleteEntity e) :
    w.store.Unmoved (op.perform run w).2.store := by
  cases op with
  | persist e =>
    have hrecorded := Adjusts.recordSnapshot w e
    rcases w.persist_cases run e with ⟨result, heq⟩ | ⟨-, -, heq⟩ <;> rw [Operation.perform, heq]
    · exact .refl _
    · rw [(hw.adjusts hrecorded).writeThrough run]
      exact hrecorded.store.unmoved
  | modified e field value =>
    have hrecorded := Adjusts.takeDown w e field value
    rcases w.modified_cases run e field value with ⟨result, heq⟩ | ⟨-, -, -, heq⟩ <;>
      rw [Operation.perform, heq]
    · exact .refl _
    · rw [(hw.adjusts hrecorded).writeThrough run]
      exact hrecorded.store.unmoved
  | delete id => exact hw.unmoved_delete run id
  | deleteEntity e => exact absurd rfl (hdelete e)
  | commit => exact absurd rfl hcommit
  | rollback => exact w.unmoved_rollback
  | afterCommit c =>
    rw [Operation.perform, afterCommit, if_neg (by rw [hw.autoCommit]; simp)]
    exact .refl _
  | setAutoCommit _ | setIgnoreModifications _ | setEnsureIntegrity _ => exact .refl _
  | findAll q => exact unmoved_count w _
  | findFirst q => exact unmoved_count w _
  | remark r => exact (Store.Quiet.remark _ r).unmoved
  | contains _ | get _ | inspect => exact .refl _

end Work

/-! ## Whether a commit succeeds -/

/-- Whether a program performs an operation of which something holds. -/
def Program.Performs {α : Type} (runner : HookRunner) (P : Operation → Work → Prop) :
    Program α → Work → Prop
  | done _, _ => False
  | ask op next, w =>
    P op w ∨ (next (op.perform runner w).1).Performs runner P (op.perform runner w).2

theorem Program.Asks.unmoved {α : Type} {p : Program α} {allowed : Operation → Prop}
    (hp : p.Asks allowed) {runner : HookRunner} {P : Operation → Work → Prop} {I : Work → Prop}
    (hI : ∀ op, allowed op → ∀ w, I w → I (op.perform runner w).2)
    (hop : ∀ op, allowed op → ∀ w, I w → ¬ P op w →
      w.store.Unmoved (op.perform runner w).2.store)
    {w : Work} (hw : I w) (h : ¬ p.Performs runner P w) :
    w.store.Unmoved (p.run runner w).2.store := by
  induction p generalizing w with
  | done value => exact .refl _
  | ask op next ih =>
    simp only [Performs, not_or] at h
    exact (hop op hp.1 w hw h.1).trans (ih _ (hp.2 _) (hI op hp.1 w hw) h.2)

namespace Hooks

/-- Whether a commit succeeds while an operation is performed: the operation itself, or one that is
performed by the hook of an entity before its deletion. -/
def CommitsIn (hooks : Hooks) : Nat → Operation → Work → Prop
  | level, .commit, w => (w.commit (hooks.runner level)).1 = .ok ()
  | level + 1, .deleteEntity e, w =>
    (hooks .delete e).Performs (hooks.runner level) (CommitsIn hooks level) w
  | _, _, _ => False

theorem commitsIn_commit (hooks : Hooks) (level : Nat) (w : Work) :
    hooks.CommitsIn level .commit w ↔ (w.commit (hooks.runner level)).1 = .ok () := by
  cases level <;> rfl

variable {hooks : Hooks} (h : hooks.Ask Operation.Manual)
include h

theorem confines (level : Nat) : Work.Confines (hooks.runner level) :=
  Hooks.runner_respects Work.confined_tolerant h
    (fun _ _ hlower op hop w =>
      Work.confined_tolerant.perform (Work.confined_parts hlower) op hop w)
    level (Nat.le_refl _)

theorem manual (level : Nat) : ∀ hook e w, w.Manual → (hooks.runner level hook e w).2.Manual :=
  Hooks.runner_respects Work.manual_tolerant h
    (fun lower _ hlower op hop w =>
      Work.manual_tolerant.perform (Work.manual_parts (confines h lower) hlower) op hop w)
    level (Nat.le_refl _)

theorem manual_perform (level : Nat) {op : Operation} (hop : op.Manual) {w : Work} (hw : w.Manual) :
    (op.perform (hooks.runner level) w).2.Manual :=
  Work.manual_tolerant.perform (Work.manual_parts (confines h level) (manual h level)) op hop w hw

theorem unmoved_of_not_deletes (level : Nat) {op : Operation} (hop : op.Manual) {w : Work}
    (hw : w.Manual) (hno : ¬ hooks.CommitsIn level op w) (hdelete : ∀ e, op ≠ .deleteEntity e) :
    w.store.Unmoved (op.perform (hooks.runner level) w).2.store := by
  by_cases hcommit : op = .commit
  · subst hcommit
    rw [commitsIn_commit] at hno
    cases hresult : w.commit (hooks.runner level) with
    | mk result w' =>
      cases result with
      | ok _ =>
        rw [hresult] at hno
        exact absurd rfl hno
      | error err =>
        rw [Operation.perform, hresult]
        exact Work.unmoved_of_commit_error (confines h level) hw hresult
  · exact hw.unmoved_perform _ hop hcommit hdelete

/-- An operation during which no commit succeeds moves nothing. -/
theorem unmoved_of_not_commits (level : Nat) {op : Operation} (hop : op.Manual) {w : Work}
    (hw : w.Manual) (hno : ¬ hooks.CommitsIn level op w) :
    w.store.Unmoved (op.perform (hooks.runner level) w).2.store := by
  -- by induction on the levels of hooks that a deletion sets off
  induction level generalizing op w with
  | zero =>
    by_cases hdelete : ∃ e, op = .deleteEntity e
    · obtain ⟨e, rfl⟩ := hdelete
      exact .refl _
    · exact unmoved_of_not_deletes h 0 hop hw hno fun e he => hdelete ⟨e, he⟩
  | succ level ih =>
    by_cases hdelete : ∃ e, op = .deleteEntity e
    · obtain ⟨e, rfl⟩ := hdelete
      have hhook : w.store.Unmoved (hooks.runner (level + 1) .delete e w).2.store :=
        (h .delete e).unmoved (fun op hop w hw => manual_perform h level hop hw)
          (fun op hop w hw hno => ih hop hw hno) hw hno
      have hmanual := manual h (level + 1) .delete e w hw
      rcases w.deleteEntity_cases (hooks.runner (level + 1)) e with ⟨err, heq⟩ | heq <;>
        rw [Operation.perform, heq]
      · exact hhook
      · exact hhook.trans (hmanual.unmoved_delete _ e.id)
    · exact unmoved_of_not_deletes h (level + 1) hop hw hno fun e he => hdelete ⟨e, he⟩

end Hooks

end EntityStore
