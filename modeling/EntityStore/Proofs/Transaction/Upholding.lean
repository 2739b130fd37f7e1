import EntityStore.Proofs.Repair.Pass
import EntityStore.Proofs.Transaction.Manual

/-!
# Invariants of operations

Operations are put together from a few parts: changes are recorded, the working set is written or
forgotten, callbacks are kept or run, and everything else is marks and counters. An invariant that
each part keeps where it occurs is kept by every operation (`Upholds.perform`), by programs
(`Program.Obeys.keeps`) and in transactions of their own (`Upholds.within`). What is permitted may
depend on the state of the transaction.
-/

namespace EntityStore

namespace Store

/-- Two stores between which nothing has moved that others can see, with the same settings. -/
structure Still (s s' : Store) : Prop extends Unmoved s s' where
  config : s'.config = s.config
  instrument : s'.backend.instrument = s.backend.instrument

variable {s t u : Store}

theorem Quiet.still (h : s.Quiet t) : s.Still t := ⟨h.unmoved, h.config, h.instrument⟩

theorem Still.refl (s : Store) : s.Still s := ⟨.refl s, rfl, rfl⟩

theorem Still.trans (h : s.Still t) (h' : t.Still u) : s.Still u :=
  ⟨h.toUnmoved.trans h'.toUnmoved, h'.config.trans h.config, h'.instrument.trans h.instrument⟩

theorem still_begin (s : Store) (name : String) : s.Still (s.begin name).store :=
  ⟨⟨rfl, Memory.applied_note_started _ _, rfl, rfl⟩, rfl, rfl⟩

end Store

namespace Operation

/-- Whether an operation may hand the working set of a transaction to the backend. -/
def Hands (t : Transaction) : Operation → Prop
  | .commit => True
  | .persist _ | .modified _ _ _ | .delete _ | .deleteEntity _ => t.autoCommit = true
  | _ => False

end Operation

namespace Work

/-- Two units of work with the same working set, the same entity under check and the same callbacks,
between which nothing has moved. -/
structure Alike (w w' : Work) : Prop where
  modified : w'.txn.modified = w.txn.modified
  deleted : w'.txn.deleted = w.txn.deleted
  deltas : w'.txn.deltas = w.txn.deltas
  checking : w'.txn.checking = w.txn.checking
  callbacks : w'.txn.callbacks = w.txn.callbacks
  store : w.store.Still w'.store

theorem alike_onStore (w : Work) (change : Store → Store) (h : w.store.Still (change w.store)) :
    w.Alike (w.onStore change) :=
  ⟨rfl, rfl, rfl, rfl, rfl, h⟩

theorem alike_count (w : Work) (counter : Statistics → Statistics) : w.Alike (w.count counter) :=
  w.alike_onStore _ (Store.Quiet.count _ _).still

theorem alike_inState (w : Work) (state : Transaction.State) : w.Alike (w.inState state) :=
  ⟨rfl, rfl, rfl, rfl, rfl, .refl _⟩

theorem alike_finish (w : Work) (state : Transaction.State) : w.Alike (w.finish state) :=
  ⟨rfl, rfl, rfl, rfl, rfl, unmoved_finish w state, rfl, rfl⟩

theorem still_drop (w : Work) : w.store.Still w.drop := by
  refine ⟨unmoved_drop w, ?_, ?_⟩
  all_goals
    rw [drop]
    split <;> rfl

/-- The parts of operations, each of which keeps an invariant where it occurs. -/
structure Upholds (run : HookRunner) (may : Work → Operation → Prop) (I : Work → Prop) : Prop where
  same : ∀ {w w'}, I w → w.Alike w' → I w'
  snapshot : ∀ {w e}, I w → may w (.persist e) → w.txn.deleted.contains e.id = false →
    I (w.onTxn (·.recordSnapshot e))
  field : ∀ {w e field value}, I w → may w (.modified e field value) →
    w.txn.ignoreModifications = false → w.contains e.id = true → I (w.takeDown e field value)
  deletion : ∀ {w} id, I w →
    I ((w.onTxn (·.recordDeletion id)).onStore (·.onBackend Backend.noteModification))
  hook : ∀ {w e}, I w → may w (.deleteEntity e) →
    I (run .delete e w).2 ∧ may (run .delete e w).2 (.delete e.id)
  /-- What is written has the settings that were there when the operation began. -/
  write : ∀ {w u op}, may w op → op.Hands w.txn → w.SameSettings u →
    u.txn.state.isFinished = false → I u → I (u.writePending run).2
  clear : ∀ {w}, I w → I (w.onTxn fun t => { t.clearPending with callbacks := [] })
  runCallbacks : ∀ {w}, I w → I w.runCallbacks
  afterCommit : ∀ {w c}, I w → may w (.afterCommit c) → I (w.afterCommit c)

namespace Upholds

variable {run : HookRunner} {may : Work → Operation → Prop} {I : Work → Prop} {w u : Work}
  {op : Operation}

theorem writeThrough (h : Upholds run may I) (hop : may w op)
    (hands : w.txn.autoCommit = true → op.Hands w.txn) (hsettings : w.SameSettings u)
    (hauto : u.txn.autoCommit = w.txn.autoCommit) (hopen : u.txn.state.isFinished = false)
    (hu : I u) : I (u.writeThrough run).2 := by
  rw [Work.writeThrough]
  split
  · rename_i hthrough
    simp only [writesThrough, Bool.and_eq_true, hauto] at hthrough
    exact h.write hop (hands hthrough.1.1) hsettings hopen hu
  · exact hu

theorem delete (h : Upholds run may I) {id : EntityId} (hop : may w (.delete id)) (hw : I w) :
    I (w.delete run id).2 := by
  have hrecorded := h.deletion id hw
  rcases w.delete_cases run id with ⟨result, heq⟩ | ⟨hopen, -, ⟨-, heq⟩ | ⟨-, heq⟩⟩ <;> rw [heq]
  · exact hw
  · exact hrecorded
  · exact h.writeThrough hop (fun hauto => hauto) ⟨rfl, rfl⟩ rfl hopen hrecorded

theorem commit (h : Upholds run may I) (hop : may w .commit) (hw : I w) :
    I (w.commit run).2 := by
  rcases w.commit_cases run with ⟨-, err, heq⟩ | ⟨-, -, heq⟩ | ⟨-, -, u, hwrite, heq⟩ |
    ⟨-, -, err, u, hwrite, heq⟩ <;> rw [heq]
  · exact hw
  · exact h.same (h.same (h.runCallbacks hw) (alike_finish _ _)) (alike_count _ _)
  all_goals
    have hu := h.write (u := w.inState .committing) hop trivial ⟨rfl, rfl⟩ rfl
      (h.same hw (alike_inState _ _))
    rw [hwrite] at hu
  · exact h.same (h.same hu (alike_finish _ _)) (alike_count _ _)
  · exact h.same (h.same hu (alike_inState _ _)) (alike_count _ _)

theorem rollback (h : Upholds run may I) (hw : I w) : I w.rollback.2 := by
  rcases w.rollback_cases with ⟨-, err, heq⟩ | ⟨-, heq⟩ <;> rw [heq]
  · exact hw
  · exact h.same (h.same (h.clear hw) (alike_finish _ _)) (alike_count _ _)

/-- What the parts of operations keep is kept by every permitted operation. -/
theorem perform (h : Upholds run may I) (hop : may w op) (hw : I w) :
    I (op.perform run w).2 := by
  cases op with
  | persist e =>
    rcases w.persist_cases run e with ⟨result, heq⟩ | ⟨hopen, hd, heq⟩ <;>
      rw [Operation.perform, heq]
    · exact hw
    · exact h.writeThrough hop (fun hauto => hauto) ⟨rfl, rfl⟩ rfl hopen (h.snapshot hw hop hd)
  | modified e field value =>
    rcases w.modified_cases run e field value with ⟨result, heq⟩ | ⟨hopen, hheeds, hsees, heq⟩ <;>
      rw [Operation.perform, heq]
    · exact hw
    · exact h.writeThrough hop (fun hauto => hauto) ⟨rfl, rfl⟩ rfl hopen
        (h.field hw hop hheeds hsees)
  | delete id => exact h.delete hop hw
  | deleteEntity e =>
    obtain ⟨hhook, hdelete⟩ := h.hook hw hop
    rcases w.deleteEntity_cases run e with ⟨err, heq⟩ | heq <;> rw [Operation.perform, heq]
    · exact hhook
    · exact h.delete hdelete hhook
  | commit => exact h.commit hop hw
  | rollback => exact h.rollback hw
  | afterCommit c => exact h.afterCommit hw hop
  | setAutoCommit _ | setIgnoreModifications _ | setEnsureIntegrity _ =>
    exact h.same hw ⟨rfl, rfl, rfl, rfl, rfl, .refl _⟩
  | findAll _ | findFirst _ => exact h.same hw (alike_count _ _)
  | remark r =>
    exact h.same hw (alike_onStore w (·.note (.remark r)) (Store.Quiet.remark _ r).still)
  | contains _ | get _ | inspect => exact hw

end Upholds

end Work

namespace Program

variable {α : Type} {runner : HookRunner} {may : Work → Operation → Prop}

/-- Every operation that the program performs is permitted when its turn comes. -/
def Obeys (runner : HookRunner) (may : Work → Operation → Prop) : Program α → Work → Prop
  | done _, _ => True
  | ask op next, w =>
    may w op ∧ (next (op.perform runner w).1).Obeys runner may (op.perform runner w).2

theorem Asks.obeys {p : Program α} {allowed : Operation → Prop} (hp : p.Asks allowed)
    (h : ∀ w op, allowed op → may w op) (w : Work) : p.Obeys runner may w := by
  induction p generalizing w with
  | done value => trivial
  | ask op next ih => exact ⟨h w op hp.1, ih _ (hp.2 _) _⟩

theorem Obeys.mono {p : Program α} {w : Work} (hp : p.Obeys runner may w)
    {may' : Work → Operation → Prop} (h : ∀ w op, may w op → may' w op) :
    p.Obeys runner may' w := by
  induction p generalizing w with
  | done value => trivial
  | ask op next ih => exact ⟨h w op hp.1, ih _ hp.2⟩

/-- What the parts of operations keep is kept by programs. -/
theorem Obeys.keeps {p : Program α} {w : Work} (hp : p.Obeys runner may w) {I : Work → Prop}
    (h : Work.Upholds runner may I) (hw : I w) : I (p.run runner w).2 := by
  induction p generalizing w with
  | done value => exact hw
  | ask op next ih => exact ih _ hp.2 (h.perform hp.1 hw)

/-- The program obeys, and so does the commit that follows if it succeeds. -/
def Concludes (runner : HookRunner) (may : Work → Operation → Prop) (p : Program (Result Unit))
    (w : Work) : Prop :=
  p.Obeys runner may w ∧ ((p.run runner w).1 = .ok () → may (p.run runner w).2 .commit)

end Program

/-- What the parts of operations keep is kept in a transaction of its own. -/
theorem Work.Upholds.within {run : HookRunner} {may : Work → Operation → Prop} {I : Work → Prop}
    (h : Work.Upholds run may I) {s : Store} {name : String} {p : Program (Result Unit)}
    (hp : p.Concludes run may (s.begin name)) (hw : I (s.begin name)) :
    ∃ w, I w ∧ w.store.Still (s.within run name (p.run run)).2 := by
  have hafter := hp.1.keeps h hw
  rcases s.within_cases run name (p.run run) with ⟨err, -, heq⟩ |
    ⟨_, hok, err, w, hcommit, heq⟩ | ⟨_, hok, w, hcommit, heq⟩
  · rw [heq]
    exact ⟨_, h.rollback hafter, Work.still_drop _⟩
  all_goals
    have hw := h.commit (hp.2 hok) hafter
    rw [hcommit] at hw
    rw [heq]
    exact ⟨w, hw, Work.still_drop w⟩

theorem Hooks.runner_keeps {ι : Type} {hooks : Hooks} {I : ι → Work → Prop}
    (h : ∀ level, (∀ i hook e w, I i w → I i (hooks.runner level hook e w).2) →
      ∀ i op w, I i w → I i (Operation.perform (hooks.runner level) op w).2) (level : Nat) :
    ∀ i hook e w, I i w → I i (hooks.runner level hook e w).2 := by
  induction level with
  | zero => exact fun _ _ _ _ hw => hw
  | succ level ih =>
    intro i hook e w hw
    exact (Program.asks_true (hooks hook e)).run_preserves (fun op _ u hu => h level ih i op u hu)
      hw

end EntityStore
