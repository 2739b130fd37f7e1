import EntityStore.Proofs.Transaction.Recounting

/-!
# Between operations nothing is under way

A deletion during a pass asks for a restart by an error, which the repair absorbs. While a repair
runs, the transaction carries marks: a pass is under way, an entity is being checked, a commit is
writing. All marks are gone when the operation is over, even where repairs that hooks have set off
took away those of the repairs around them: a mark is only ever claimed to be absent where no pass,
check or commit is around (`Transaction.quiet_maintained`). Hence a deletion outside of passes never
asks for a restart, and no other operation passes the signal on, provided that a hook fails with the
signal only if it received it and that the backend never gives it (`Quiescent.perform_silent`).
-/

namespace EntityStore

namespace Transaction

/-- What may be under way around a place of an operation. -/
structure Surroundings where
  passing : Bool
  checking : Bool
  committing : Bool

/-- Nothing is under way. -/
def Surroundings.none : Surroundings := ⟨false, false, false⟩

/-- A transaction carries no mark of what is not under way. -/
structure Quiet (around : Surroundings) (t : Transaction) : Prop where
  ensuring : around.passing = false → t.ensuring = false
  checking : around.checking = false → t.checking = .none
  state : around.committing = false → t.state ≠ .committing

/-- No pass is under way, no entity is being checked, and the transaction is active, committed or
rolled back. -/
abbrev Quiescent (t : Transaction) : Prop := t.Quiet .none

variable {around : Surroundings} {t t' : Transaction}

theorem Quiet.of_eq (h : t.Quiet around) (hensuring : t'.ensuring = t.ensuring)
    (hchecking : t'.checking = t.checking) (hstate : t'.state = t.state) : t'.Quiet around where
  ensuring hnot := hensuring.trans (h.ensuring hnot)
  checking hnot := hchecking.trans (h.checking hnot)
  state hnot := hstate ▸ h.state hnot

theorem Quiet.leave (h : t.Quiet { around with committing := true })
    (hensuring : t'.ensuring = t.ensuring) (hchecking : t'.checking = t.checking)
    (hstate : t'.state ≠ .committing) : t'.Quiet around where
  ensuring hnot := hensuring.trans (h.ensuring hnot)
  checking hnot := hchecking.trans (h.checking hnot)
  state _ := hstate

theorem Quiet.checkIn {w : Work} (h : w.txn.Quiet { around with checking := true })
    (tracked : Bool) (e : Entity) : (w.checkIn tracked e).txn.Quiet around := by
  unfold Work.checkIn Work.onTxn
  dsimp only
  split <;> exact ⟨h.ensuring, fun _ => rfl, h.state⟩

theorem quiet_maintained (may : Transaction → Operation → Prop) :
    Maintained may (fun _ => True) fun around (_ : Unit) t => t.Quiet around where
  snapshot h _ := h.of_eq rfl rfl rfl
  field h _ := h.of_eq rfl rfl rfl
  deletion h _ := h.of_eq rfl rfl rfl
  setting h _ hsets := by cases hsets <;> exact h.of_eq rfl rfl rfl
  callbacks _ h := h.of_eq rfl rfl rfl
  idle h _ _ := ⟨h.ensuring, h.checking, fun _ => by simp⟩
  committing {around _ t} h _ := by
    refine ⟨{ around with committing := true }, trivial, ⟨h.ensuring, h.checking, nofun⟩, ?_⟩
    exact fun _ u hu => ⟨hu.leave rfl rfl (by simp), hu.leave rfl rfl (by simp)⟩
  rollingBack h _ := ⟨h.ensuring, h.checking, fun _ => by simp⟩
  atOnce {around _ _} h _ _ _ := ⟨around, trivial, h, fun _ _ hu => ⟨hu, hu.of_eq rfl rfl rfl⟩⟩
  pass {around _ _} _ h := by
    refine ⟨{ around with passing := true }, trivial, ⟨nofun, h.checking, h.state⟩, ?_⟩
    exact fun _ u hu => ⟨fun _ => rfl, hu.checking, hu.state⟩
  check {around _ _ _} _ h _ := by
    refine ⟨{ around with checking := true }, ⟨h.ensuring, nofun, h.state⟩, ?_⟩
    exact fun body _ u hu => hu.checkIn _ _

end Transaction

theorem Store.quiescent_begin (s : Store) (name : String) : (s.begin name).txn.Quiescent :=
  ⟨fun _ => rfl, fun _ => rfl, fun _ => by simp [begin, Transaction.new]⟩

/-! ## Who gives the signal -/

/-- The reply to an operation is the signal. -/
def Operation.Signals : (op : Operation) → op.Reply → Prop
  | .persist _, reply | .modified _ _ _, reply | .delete _, reply | .deleteEntity _, reply
  | .commit, reply | .rollback, reply => reply = (.error .integrityRestart : Result Unit)
  | .get _, reply => reply = (.error .integrityRestart : Result Entity)
  | _, _ => False

def HookOutcome.Signals (outcome : HookOutcome) : Prop := outcome.result = .error .integrityRestart

/-- The program passes the signal on only if it has heard it: an operation has replied with it. -/
def Program.Honest {α : Type} (signals : α → Prop) : Prop → Program α → Prop
  | heard, done value => signals value → heard
  | heard, ask op next => ∀ reply, (next reply).Honest signals (heard ∨ op.Signals reply)

/-- Hooks fail with errors that they have received, or with others than the signal. -/
def Hooks.Honest (hooks : Hooks) : Prop :=
  ∀ hook e, (hooks hook e).Honest HookOutcome.Signals False

/-- The backend never rejects a batch with the signal. -/
def Store.Proper (s : Store) : Prop :=
  ∀ verdict offered rejected, s.backend.instrument = .gate verdict offered rejected →
    ∀ n b, verdict n b ≠ some .integrityRestart

namespace Work

variable {run : HookRunner} {w : Work} {around : Transaction.Surroundings}

theorem ensureActive_silent (operation : String) (state : Transaction.State) :
    state.ensureActive operation ≠ .error .integrityRestart := by
  cases state <;> simp [Transaction.State.ensureActive]

theorem ensureRecording_silent (state : Transaction.State) :
    state.ensureRecording ≠ .error .integrityRestart := by
  cases state <;> simp [Transaction.State.ensureRecording, Transaction.State.ensureActive]

/-- A repair absorbs the signal. -/
theorem repeatPasses_silent (run : HookRunner) (maxPasses maxRestarts passes restarts bound : Nat)
    (w : Work) :
    (repeatPasses run maxPasses maxRestarts passes restarts w bound).1 ≠
      .error .integrityRestart := by
  induction bound generalizing passes restarts w with
  | zero => simp [repeatPasses]
  | succ bound ih =>
    rw [repeatPasses]
    split
    · simp
    · split
      · exact ih _ _ _
      · rename_i err _ hother _
        intro heq
        exact hother (Except.error.inj heq)
      · split
        · simp
        · exact ih _ _ _

theorem applyPending_silent (hw : w.store.Proper) :
    w.applyPending.1 ≠ .error .integrityRestart := by
  unfold applyPending
  split
  · rename_i err b hupdate
    intro heq
    cases heq
    unfold Backend.update at hupdate
    split at hupdate
    · cases hupdate
    · cases hupdate
    · rename_i verdict offered rejected hgate
      split at hupdate
      · rename_i err hverdict
        cases hupdate
        exact hw verdict offered rejected hgate _ _ hverdict
      · cases hupdate
  · simp

theorem get_silent (w : Work) (id : EntityId) : w.get id ≠ .error .integrityRestart := by
  unfold get Backend.get Index.get
  repeat' split
  all_goals simp

/-- A unit of work on a proper store, with no mark of what is not under way. -/
def Calm (around : Transaction.Surroundings) (w : Work) : Prop :=
  ∃ g, () ≤ g ∧ w.Tells (fun _ => Store.Proper) (fun around _ t => t.Quiet around) g around

theorem Calm.proper (h : w.Calm around) : w.store.Proper := by
  obtain ⟨_, -, hw⟩ := h
  exact hw.store

theorem Calm.quiet (h : w.Calm around) : w.txn.Quiet around := by
  obtain ⟨_, -, hw⟩ := h
  exact hw.txn

section Silence

variable {may : Work → Operation → Prop} (h : Invariant may (fun _ => True) Calm)
  (hook : Keeps run Calm)
include h hook

theorem writePending_silent (hw : w.Calm around) :
    (w.writePending run).1 ≠ .error .integrityRestart := by
  have hrepaired := h.ensureIntegrity hook trivial hw
  rcases w.writePending_cases run with ⟨-, err, u, hrepair, heq⟩ | ⟨-, u, hrepair, heq⟩ | ⟨-, heq⟩
  · have hsilent := repeatPasses_silent run w.maxPasses w.maxRestarts 0 0
      (w.maxPasses + w.maxRestarts + 1) w
    rw [ensureIntegrity] at hrepair
    rw [hrepair] at hsilent
    rwa [heq]
  · rw [hrepair] at hrepaired
    rw [heq]
    exact applyPending_silent hrepaired.proper
  · rw [heq]
    exact applyPending_silent hw.proper

theorem writeThrough_silent (hw : w.Calm around) :
    (w.writeThrough run).1 ≠ .error .integrityRestart := by
  rw [writeThrough]
  split
  · exact writePending_silent h hook hw
  · simp

theorem persist_silent (hw : w.Calm around) (e : Entity) :
    (w.persist run e).1 ≠ .error .integrityRestart := by
  have hrecording := ensureRecording_silent w.txn.state
  rw [persist]
  split
  · rename_i err heq
    rwa [heq] at hrecording
  · rename_i hopen
    split
    · simp
    · rename_i hfresh
      exact writeThrough_silent h hook
        (h.snapshot hw (ensureRecording_ok_iff.1 hopen) (by simpa using hfresh))

theorem modified_silent (hw : w.Calm around) (e : Entity) (field : String)
    (value : PropertyValue) : (w.modified run e field value).1 ≠ .error .integrityRestart := by
  have hrecording := ensureRecording_silent w.txn.state
  rw [modified]
  split
  · rename_i err heq
    rwa [heq] at hrecording
  · rename_i hopen
    split
    · simp
    · rename_i hsees
      simp only [Bool.or_eq_true, Bool.not_eq_true', not_or, Bool.not_eq_false] at hsees
      exact writeThrough_silent h hook (h.field hw (ensureRecording_ok_iff.1 hopen) hsees.2)

/-- A deletion asks for a restart during a pass only. -/
theorem delete_silent (hw : w.Calm around) (hpassing : around.passing = false) (id : EntityId) :
    (w.delete run id).1 ≠ .error .integrityRestart := by
  have hrecording := ensureRecording_silent w.txn.state
  have hensuring := hw.quiet.ensuring hpassing
  rw [delete]
  split
  · rename_i err heq
    rwa [heq] at hrecording
  · rename_i hopen
    split
    · simp
    · rename_i hfresh
      dsimp only
      split
      · rename_i hmarked
        exact absurd (hensuring.symm.trans hmarked) (by simp)
      · exact writeThrough_silent h hook
          (h.deletion hw (ensureRecording_ok_iff.1 hopen) (by simpa using hfresh))

theorem commit_silent (hw : w.Calm around) : (w.commit run).1 ≠ .error .integrityRestart := by
  have hactive := ensureActive_silent "commit" w.txn.state
  rw [commit]
  split
  · rename_i err heq
    rwa [heq] at hactive
  · rename_i hok
    split
    · simp
    · have hstate : w.txn.state = .active := by
        cases hstate : w.txn.state <;> simp [hstate, Transaction.State.ensureActive] at hok
        rfl
      obtain ⟨j, -, hinner, -⟩ := h.committing hw hstate
      have hsilent := writePending_silent h hook hinner
      split
      · simp
      · rename_i err u heq
        unfold inState at hsilent
        rw [heq] at hsilent
        exact hsilent

omit h hook in
theorem rollback_silent (w : Work) : w.rollback.1 ≠ .error .integrityRestart := by
  have hactive := ensureActive_silent "roll back" w.txn.state
  rw [rollback]
  split
  · rename_i err heq
    rwa [heq] at hactive
  · simp

/-- Outside of passes, no operation replies with the signal, if no deletion hook fails with it. -/
theorem perform_silent (hw : w.Calm around) (hpassing : around.passing = false)
    (hsilent : ∀ e w, w.Calm around → (run .delete e w).1.result ≠ .error .integrityRestart)
    (op : Operation) : ¬ op.Signals (op.perform run w).1 := by
  cases op with
  | persist e => exact persist_silent h hook hw e
  | modified e field value => exact modified_silent h hook hw e field value
  | delete id => exact delete_silent h hook hw hpassing id
  | deleteEntity e =>
    have hafter := hook around .delete e w hw
    have hresult := hsilent e w hw
    unfold Operation.Signals Operation.perform
    dsimp only
    rw [deleteEntity]
    split
    · rename_i body err u heq
      rwa [heq] at hresult
    · rename_i body u heq
      rw [heq] at hafter
      exact delete_silent h hook hafter hpassing e.id
  | commit => exact commit_silent h hook hw
  | rollback => exact rollback_silent w
  | get id => exact get_silent w id
  | afterCommit _ | setAutoCommit _ | setIgnoreModifications _ | setEnsureIntegrity _
  | contains _ | findAll _ | findFirst _ | inspect | remark _ => exact fun hsignal => hsignal

end Silence

end Work

/-! ## Hooks -/

theorem Program.Honest.run_silent {α : Type} {signals : α → Prop} {p : Program α}
    (hp : p.Honest signals False) {runner : HookRunner} {may : Work → Operation → Prop}
    {P : Work → Prop} (hstep : ∀ w op, P w → may w op →
      P (op.perform runner w).2 ∧ ¬ op.Signals (op.perform runner w).1) {w : Work}
    (hobeys : p.Obeys runner may w) (hw : P w) : ¬ signals (p.run runner w).1 := by
  induction p generalizing w with
  | done value => exact hp
  | ask op next ih =>
    obtain ⟨hafter, hsilent⟩ := hstep w op hw hobeys.1
    refine ih _ ?_ hobeys.2 hafter
    have hheard := hp (op.perform runner w).1
    rwa [eq_false hsilent, or_false] at hheard

/-- Outside of passes, honest hooks do not fail with the signal at any level. -/
theorem Hooks.Honest.runner_silent {hooks : Hooks} (hhonest : hooks.Honest)
    {may : Work → Operation → Prop} (h : Work.Invariant may (fun _ => True) Work.Calm)
    (hhooks : ∀ level around hook e w, w.Calm around →
      (hooks hook e).Obeys (hooks.runner level) may w)
    {around : Transaction.Surroundings} (hpassing : around.passing = false) (level : Nat)
    (hook : Hook) (e : Entity) {w : Work} (hw : w.Calm around) :
    (hooks.runner level hook e w).1.result ≠ .error .integrityRestart := by
  induction level generalizing hook e w with
  | zero => simp [Hooks.runner]
  | succ level ih =>
    have hkeeps := h.runner hhooks level
    refine (hhonest hook e).run_silent (fun w op hw hop => ⟨?_, ?_⟩)
      (hhooks level around hook e w hw) hw
    · exact h.perform hkeeps hop hw
    · exact Work.perform_silent h hkeeps hw hpassing (fun e w hw => ih .delete e hw) op

end EntityStore
