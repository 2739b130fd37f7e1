import EntityStore.Proofs.Transaction.Abreast
import EntityStore.Proofs.Transaction.Invariance

/-!
# Hooks that leave auto-commit off

A transaction does not remember whether auto-commit was ever on. So runs are compared: in place of
the hooks that there are, the same hooks are carried out, except that they leave auto-commit off in
the transaction with a certain number (`Hooks.refusing`). As long as none of the hooks would have
turned it on there, nothing comes otherwise (`Work.Invariant.agree_refusing`). What hooks do in
other transactions does not matter (`Operation.perform_refusing`).
-/

namespace EntityStore

/-! ## Runners that agree -/

namespace Work

variable {ι : Type} {I : ι → Work → Prop} {may : Work → Operation → Prop} {inner : ι → Prop}
  {run run' : HookRunner} {i : ι} {w : Work}

/-- Two runners carry out hooks alike wherever something holds. -/
def Agree (I : ι → Work → Prop) (run run' : HookRunner) : Prop :=
  ∀ i hook e w, I i w → run hook e w = run' hook e w

namespace Invariant

section Agreement

variable (h : Invariant may inner I) (hook : Keeps run I) (hagree : Agree I run run')
include h hagree

theorem checkEntity_congr (hi : inner i) {id : EntityId}
    (hdue : w.txn.modified.contains id = true ∨ w.txn.deleted.contains id = false) (hw : I i w) :
    Work.checkEntity run id w = Work.checkEntity run' id w := by
  unfold Work.checkEntity
  split
  · rfl
  · rename_i e _
    obtain ⟨j, hout, -⟩ := h.check hi hw hdue
    rw [hagree j .check e _ hout]

include hook

theorem abreast (hi : inner i) : Abreast run run' fun w w' => w' = w ∧ I i w where
  modified h := by rw [h.1]
  deleted h := by rw [h.1]
  affected h := by rw [h.1]
  check := by
    rintro _ _ _ ⟨rfl, hw⟩ hdue
    have hsame := h.checkEntity_congr hagree hi hdue hw
    exact ⟨by rw [hsame], by rw [hsame], h.checkEntity hook hi hdue hw⟩
  query := by
    rintro _ _ ⟨rfl, hw⟩
    exact ⟨rfl, h.query hw⟩

theorem abreastBetween (hi : inner i) :
    AbreastBetween run run' fun w w' => w' = w ∧ I i w where
  signature h := by rw [h.1]
  pass := by
    rintro _ _ ⟨rfl, hw⟩
    obtain ⟨j, hj, hbegun, hended⟩ := h.pass hi hw
    refine ⟨_, h.abreast hook hagree hj, ⟨rfl, hbegun⟩, ?_⟩
    rintro _ _ ⟨rfl, hv⟩
    exact ⟨rfl, hended _ hv⟩
  restart := by
    rintro _ _ ⟨rfl, hw⟩
    exact ⟨rfl, h.restart hi hw⟩

theorem writePending_congr (hi : inner i) (hw : I i w) :
    Work.writePending run w = Work.writePending run' w := by
  obtain ⟨hresult, hleft, -⟩ :=
    (h.abreastBetween hook hagree hi).ensureIntegrity rfl rfl ⟨rfl, hw⟩
  rw [Work.writePending, Work.writePending, Prod.ext hresult hleft]

theorem writeThrough_congr (hw : I i w) : Work.writeThrough run w = Work.writeThrough run' w := by
  unfold Work.writeThrough
  split
  · rename_i hthrough
    obtain ⟨j, hj, hinner, -⟩ := h.atOnce hw hthrough
    exact h.writePending_congr hook hagree hj hinner
  · rfl

theorem delete_congr (id : EntityId) (hw : I i w) :
    Work.delete run id w = Work.delete run' id w := by
  unfold Work.delete
  split
  · rfl
  · rename_i hopen
    split
    · rfl
    · rename_i hfresh
      dsimp only
      split
      · rfl
      · exact h.writeThrough_congr hook hagree
          (h.deletion hw (ensureRecording_ok_iff.1 hopen) (by simpa using hfresh))

theorem commit_congr (hw : I i w) : Work.commit run w = Work.commit run' w := by
  by_cases hactive : w.txn.state = .active
  · obtain ⟨j, hj, hinner, -⟩ := h.committing hw hactive
    have hwritten := h.writePending_congr hook hagree hj hinner
    rw [inState] at hwritten
    unfold Work.commit
    rw [hwritten]
  · obtain ⟨err, herr⟩ := ensureActive_error hactive "commit"
    unfold Work.commit
    rw [herr]

/-- An operation comes to the same with hooks that are carried out alike. -/
theorem perform_congr (op : Operation) (hw : I i w) : op.perform run w = op.perform run' w := by
  cases op with
  | persist e =>
    show Work.persist run e w = Work.persist run' e w
    unfold Work.persist
    split
    · rfl
    · rename_i hopen
      split
      · rfl
      · rename_i hfresh
        exact h.writeThrough_congr hook hagree
          (h.snapshot hw (ensureRecording_ok_iff.1 hopen) (by simpa using hfresh))
  | modified e field value =>
    show Work.modified run e field value w = Work.modified run' e field value w
    unfold Work.modified
    split
    · rfl
    · rename_i hopen
      split
      · rfl
      · rename_i hsees
        exact h.writeThrough_congr hook hagree
          (h.field hw (ensureRecording_ok_iff.1 hopen) (by simp_all))
  | delete id => exact h.delete_congr hook hagree id hw
  | deleteEntity e =>
    have hafter := hook i .delete e w hw
    show Work.deleteEntity run e w = Work.deleteEntity run' e w
    unfold Work.deleteEntity
    rw [← hagree i .delete e w hw]
    split
    · rfl
    · rename_i heq
      rw [heq] at hafter
      exact h.delete_congr hook hagree e.id hafter
  | commit => exact h.commit_congr hook hagree hw
  | _ => rfl

/-- A program comes to the same, and is permitted the same, with hooks that are carried out
alike. -/
theorem program_congr {α : Type} {p : Program α} {Q : Work → Operation → Prop}
    (hp : p.Obeys run (fun w op => may w op ∧ Q w op) w) (hw : I i w) :
    p.run run w = p.run run' w ∧ p.Obeys run' Q w := by
  induction p generalizing w with
  | done value => exact ⟨rfl, trivial⟩
  | ask op next ih =>
    obtain ⟨⟨hmay, hQ⟩, hrest⟩ := hp
    obtain ⟨hrun, hobeys⟩ := ih _ hrest (h.perform hook hmay hw)
    have heq := h.perform_congr hook hagree op hw
    rw [heq] at hrun hobeys
    refine ⟨?_, hQ, hobeys⟩
    rw [Program.run, Program.run, heq]
    exact hrun

end Agreement

end Invariant

end Work

/-! ## Refusing to turn auto-commit on -/

/-- The operation itself, except that auto-commit is left off in the transaction with a number. -/
def Operation.refusing (number : TransactionId) : (op : Operation) → Program op.Reply
  | .setAutoCommit true => .ask .inspect fun t => .ask (.setAutoCommit (t.id ≠ number)) .done
  | op => .ask op .done

theorem Operation.refusing_of_ne (number : TransactionId) {op : Operation}
    (hop : op ≠ .setAutoCommit true) : op.refusing number = .ask op .done := by
  unfold refusing
  split
  · exact absurd rfl hop
  · rfl

namespace Program

/-- The same program, except that it leaves auto-commit off in the transaction with a number. -/
def refusing {α : Type} (number : TransactionId) : Program α → Program α
  | done value => done value
  | ask op next => (op.refusing number).andThen fun reply => (next reply).refusing number

variable {α : Type} {number : TransactionId} {run : HookRunner} {w : Work} {p : Program α}

theorem refusing_ask {op : Operation} (hop : op ≠ .setAutoCommit true)
    (next : op.Reply → Program α) :
    (ask op next).refusing number = ask op fun reply => (next reply).refusing number := by
  rw [refusing, Operation.refusing_of_ne number hop, andThen]
  rfl

theorem Asks.refusing {allowed : Operation → Prop} (hp : p.Asks allowed)
    (hinspect : allowed .inspect) (hset : ∀ value, allowed (.setAutoCommit value)) :
    (p.refusing number).Asks allowed := by
  induction p with
  | done value => trivial
  | ask op next ih =>
    by_cases hop : op = .setAutoCommit true
    · subst hop
      exact ⟨hinspect, fun _ => ⟨hset _, fun _ => ih _ (hp.2 _)⟩⟩
    · rw [refusing_ask hop]
      exact ⟨hp.1, fun reply => ih reply (hp.2 reply)⟩

/-- Whatever it finds, such a program does not turn auto-commit on. -/
theorem refusing_obeys (p : Program α) (run : HookRunner) (w : Work) :
    (p.refusing number).Obeys run (fun w op => w.txn.id = number → op ≠ .setAutoCommit true) w := by
  induction p generalizing w with
  | done value => trivial
  | ask op next ih =>
    by_cases hop : op = .setAutoCommit true
    · subst hop
      refine ⟨by simp, fun hid heq => ?_, ih _ _⟩
      exact of_decide_eq_true (Operation.setAutoCommit.inj heq) hid
    · rw [refusing_ask hop]
      exact ⟨fun _ => hop, ih _ _⟩

/-- A program that does not turn auto-commit on comes to the same if it leaves it off. -/
theorem run_refusing
    (hp : p.Obeys run (fun w op => w.txn.id = number → op ≠ .setAutoCommit true) w) :
    (p.refusing number).run run w = p.run run w := by
  induction p generalizing w with
  | done value => rfl
  | ask op next ih =>
    obtain ⟨hoff, hrest⟩ := hp
    by_cases hop : op = .setAutoCommit true
    · subst hop
      have hother : decide (w.txn.id ≠ number) = true := decide_eq_true fun hid => hoff hid rfl
      refine Eq.trans ?_ (ih _ hrest)
      show ((next ()).refusing number).run run (w.onTxn fun t =>
        { t with autoCommit := decide (w.txn.id ≠ number) }) = _
      rw [hother]
    · rw [refusing_ask hop, Program.run, Program.run]
      exact ih _ hrest

end Program

/-- The same hooks, except that they leave auto-commit off in the transaction with a number. -/
def Hooks.refusing (number : TransactionId) (hooks : Hooks) : Hooks :=
  fun hook e => (hooks hook e).refusing number

namespace Hooks

variable {hooks : Hooks} {number : TransactionId}

end Hooks

namespace Work.Invariant

variable {ι : Type} {I : ι → Work → Prop} {may : Work → Operation → Prop} {inner : ι → Prop}
  {hooks : Hooks} {number : TransactionId}

/-- Hooks that do not turn auto-commit on wherever something holds are carried out there alike if
they leave it off. -/
theorem agree_refusing (h : Invariant may inner I)
    (hhooks : ∀ level i hook e w, I i w → (hooks hook e).Obeys (hooks.runner level)
      (fun w op => may w op ∧ (w.txn.id = number → op ≠ .setAutoCommit true)) w) (level : Nat) :
    Agree I (hooks.runner level) ((hooks.refusing number).runner level) := by
  have hkeeps := h.runner fun level i hook e w hw =>
    (hhooks level i hook e w hw).mono fun _ _ => And.left
  induction level with
  | zero => exact fun _ _ _ _ _ => rfl
  | succ level ih =>
    intro i hook e w hw
    obtain ⟨hrun, hoff⟩ := h.program_congr (hkeeps level) ih (hhooks level i hook e w hw) hw
    exact hrun.trans (Program.run_refusing hoff).symm

theorem along (h : Invariant (fun _ _ => True) inner I) {run : HookRunner} (hook : Keeps run I)
    {i : ι} {w : Work} {α : Type} (p : Program α) (hw : I i w) :
    p.Obeys run (fun w _ => I i w) w := by
  induction p generalizing w with
  | done value => trivial
  | ask op next ih => exact ⟨hw, ih _ (h.perform hook trivial hw)⟩

end Work.Invariant

/-! ## Other transactions -/

namespace Work

/-- A transaction keeps its number. -/
theorem elsewhere_invariant (number : TransactionId) :
    Invariant (fun _ _ => True) (fun _ => True) fun (_ : Unit) w => w.txn.id ≠ number where
  snapshot hw _ _ := hw
  field hw _ _ := hw
  deletion hw _ _ := hw
  setting hw _ hsets := by cases hsets <;> exact hw
  query hw := hw
  remark hw := hw
  afterCommit hw _ := by
    unfold Work.afterCommit
    split <;> exact hw
  idle hw _ _ := hw
  committing hw _ := ⟨(), trivial, hw, ⟨fun hu => hu, fun hu _ => hu, fun hu _ => hu⟩⟩
  rollingBack hw _ := hw
  atOnce hw _ := ⟨(), trivial, hw, ⟨fun hu => hu, fun hu _ => hu, fun hu _ => hu⟩⟩
  pass _ hw := ⟨(), trivial, hw, fun _ hu => hu⟩
  restart _ hw := hw
  check _ hw _ := by
    refine ⟨(), hw, fun body u hu => ?_⟩
    unfold Work.checkIn Work.onTxn
    dsimp only
    split <;> exact hu

end Work

variable {hooks : Hooks} {number : TransactionId} {w : Work}

/-- In other transactions operations come to the same. -/
theorem Operation.perform_refusing (hw : w.txn.id ≠ number) (op : Operation) (level : Nat) :
    op.perform (hooks.runner level) w = op.perform ((hooks.refusing number).runner level) w := by
  have h := Work.elsewhere_invariant number
  refine h.perform_congr (i := ()) (h.keeps hooks level) ?_ op hw
  refine h.agree_refusing (fun level i hook e w hw => ?_) level
  exact (h.along (h.keeps hooks level) (hooks hook e) (i := ()) hw).mono
    fun _ _ hw => ⟨trivial, fun hid => absurd hid hw⟩

/-- Operations that record one change. -/
def Operation.RecordsChange : Operation → Prop
  | persist _ | modified _ _ _ | delete _ => True
  | _ => False

/-- Where auto-commit is off, recording a change sets off no hooks. -/
theorem Operation.perform_recording {op : Operation} (hop : op.RecordsChange)
    (hauto : w.txn.autoCommit = false) (run run' : HookRunner) :
    op.perform run w = op.perform run' w := by
  have through {u : Work} (hu : u.txn.autoCommit = false) :
      u.writeThrough run = u.writeThrough run' :=
    have hnot := Work.writesThrough_of_manual hu
    (Work.writeThrough_withheld hnot run).trans (Work.writeThrough_withheld hnot run').symm
  cases op with
  | persist e =>
    have hrecorded := through (u := w.onTxn (·.recordSnapshot e)) hauto
    show w.persist run e = w.persist run' e
    unfold Work.persist
    rw [hrecorded]
  | modified e field value =>
    have hrecorded := through (u := w.takeDown e field value) hauto
    show w.modified run e field value = w.modified run' e field value
    unfold Work.modified
    rw [hrecorded]
  | delete id =>
    have hrecorded := through
      (u := (w.onTxn (·.recordDeletion id)).onStore (·.onBackend Backend.noteModification)) hauto
    show w.delete run id = w.delete run' id
    unfold Work.delete
    dsimp only
    rw [hrecorded]
  | _ => exact hop.elim

end EntityStore
