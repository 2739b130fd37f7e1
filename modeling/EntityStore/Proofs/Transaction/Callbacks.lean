import EntityStore.Proofs.Transaction.Finality
import EntityStore.Proofs.Transaction.Invariance

/-!
# Callbacks that wait

Callbacks wait with their transaction until a batch of it is applied, or until it commits with
nothing to write; a rollback forgets them. What happens to them in an operation is a row of events,
each of which is one step of the transaction, and between which nothing happens to them and nothing
moves that others can see (`Undergoes`). A commit does not close the queue but by its own success,
since nobody can commit or roll back in the midst of it.

Main statements: every operation is such a row of events (`undergoes_perform`), each callback that
was registered to wait is taken up once, in the order of registration, or waits still
(`Undergoes.balance`), and what takes up callbacks takes up all that wait (`Undergoes.split`,
`Occurs.taken`).
-/

namespace EntityStore

/-- Callbacks run one after the other, each on the store that the one before it has left. -/
inductive Callback.RunInTurn : List Callback → Store → Store → Prop
  | done (s : Store) : RunInTurn [] s s
  | next {c : Callback} {rest : List Callback} {s s' : Store} :
      RunInTurn rest (c.run s) s' → RunInTurn (c :: rest) s s'

theorem Callback.runInTurn_runAll (callbacks : List Callback) (s : Store) :
    RunInTurn callbacks s (runAll callbacks s) := by
  induction callbacks generalizing s with
  | nil => exact .done s
  | cons c rest ih => exact .next (ih _)

/-! ## Events -/

/-- What happens to the callbacks of a transaction. -/
inductive Transaction.Event where
  /-- One is registered and waits. -/
  | queued (c : Callback)
  /-- One is registered while changes are written at once, and runs. -/
  | ran (c : Callback)
  /-- A batch is applied and published, then those that wait run. -/
  | wrote (batch : Batch) (change : ChangeSet) (calls : List Callback)
  /-- A commit finds nothing to write, and those that wait run. -/
  | emptied (calls : List Callback)
  /-- A rollback forgets those that wait. -/
  | discarded (calls : List Callback)

namespace Transaction.Event

/-- The callback that is registered to wait. -/
def queued? : Event → Option Callback
  | queued c => some c
  | _ => none

/-- The callbacks that have waited until now. -/
def taken : Event → List Callback
  | queued _ | ran _ => []
  | wrote _ _ calls | emptied calls | discarded calls => calls

/-- Whether those that have waited run. -/
def calls : Event → Bool
  | wrote _ _ _ | emptied _ => true
  | queued _ | ran _ | discarded _ => false

/-- Whether no callback waits afterwards. -/
def closes : Event → Bool
  | queued _ | ran _ => false
  | wrote _ _ _ | emptied _ | discarded _ => true

/-- The callbacks that wait afterwards, given those that waited before. -/
def after (waiting : List Callback) : Event → List Callback
  | queued c => waiting ++ [c]
  | ran _ => waiting
  | wrote _ _ _ | emptied _ | discarded _ => []

/-- The callbacks that wait after a history, in the order of registration. -/
def waiting (history : List Event) : List Callback := history.foldl after []

/-- What others see of an event. Callbacks that have waited for a batch run when it is in the
backend and its change set in the feed. -/
def Shows (id : TransactionId) (s s' : Store) : Event → Prop
  | queued _ | discarded _ => s.Unmoved s'
  | ran c => (c.run s).Unmoved s'
  | wrote batch change calls => batch.transaction = id ∧ change.transaction = id ∧
      ∃ found left, s.Delivers batch change found ∧ Callback.RunInTurn calls found left ∧
        left.Unmoved s'
  | emptied calls => ∃ left, Callback.RunInTurn calls s left ∧ left.Unmoved s'

/-- Without an event that closes the queue it only grows. -/
theorem foldl_after_of_not_closes {es : List Event} (h : ∀ e ∈ es, e.closes = false)
    (waiting : List Callback) : es.foldl after waiting = waiting ++ es.filterMap queued? := by
  induction es generalizing waiting with
  | nil => exact (List.append_nil _).symm
  | cons e rest ih =>
    rw [List.foldl_cons, ih fun e he => h e (List.mem_cons_of_mem _ he)]
    cases e with
    | queued c => exact List.append_assoc waiting [c] _
    | ran c => rfl
    | wrote batch change calls | emptied calls | discarded calls => cases h _ List.mem_cons_self

end Transaction.Event

/-- Changes of state other than the end of a transaction without a write. -/
inductive Transaction.State.Shifts : Transaction.State → Transaction.State → Prop
  | stays (state : Transaction.State) : Shifts state state
  | begins : Shifts .active .committing
  | fails : Shifts .committing .active
  | succeeds : Shifts .committing .committed

namespace Work

open Transaction (Event)

/-- Two units of work between which nothing happens to the callbacks, and nothing moves that others
can see. -/
structure Drifts (w w' : Work) : Prop where
  id : w'.txn.id = w.txn.id
  callbacks : w'.txn.callbacks = w.txn.callbacks
  state : w.txn.state.Shifts w'.txn.state
  store : w.store.Unmoved w'.store

/-- The steps in which something happens to the callbacks of a transaction. -/
inductive Occurs (w : Work) : Event → Work → Prop
  | queued {c : Callback} : w.txn.autoCommit = false → w.Occurs (.queued c) (w.afterCommit c)
  | ran {c : Callback} : w.txn.autoCommit = true → w.Occurs (.ran c) (w.afterCommit c)
  | wrote {b : Backend} : w.store.backend.update w.txn.batch = (.ok (), b) →
      w.Occurs (.wrote w.txn.batch w.txn.changeSet w.txn.callbacks) (w.withBackend b).settle
  | emptied : w.txn.state = .active → w.txn.isEmpty = true →
      w.Occurs (.emptied w.txn.callbacks) (w.runCallbacks.finish .committed)
  | discarded : w.txn.state = .active → w.Occurs (.discarded w.txn.callbacks)
      (finish .rolledBack (w.onTxn fun t => { t.clearPending with callbacks := [] }))

/-- A row of events leads from one unit of work to another. -/
inductive Undergoes (w : Work) : List Event → Work → Prop
  | refl : w.Undergoes [] w
  | drift {es : List Event} {u v : Work} : w.Undergoes es u → u.Drifts v → w.Undergoes es v
  | occur {es : List Event} {e : Event} {u v : Work} : w.Undergoes es u → u.Occurs e v →
      w.Undergoes (es ++ [e]) v

variable {run : HookRunner} {u v w w' : Work} {e : Event} {es pre post : List Event}

/-! ## One event -/

theorem Drifts.of_adjusts (h : w.Adjusts w') : w.Drifts w' :=
  ⟨h.id, h.callbacks, by rw [h.state]; exact .stays _, h.store.unmoved⟩

theorem Drifts.count (w : Work) (counter : Statistics → Statistics) : w.Drifts (w.count counter) :=
  .of_adjusts (.count w counter)

theorem Drifts.begins (h : w.txn.state = .active) : w.Drifts (w.inState .committing) := by
  have hshift : w.txn.state.Shifts .committing := h ▸ .begins
  exact ⟨rfl, rfl, hshift, .refl _⟩

theorem Drifts.fails (h : w.txn.state = .committing) :
    w.Drifts ((w.inState .active).count Statistics.countCommitFailure) := by
  have hshift : w.txn.state.Shifts .active := h ▸ .fails
  exact ⟨rfl, rfl, hshift, unmoved_count _ _⟩

theorem Drifts.succeeds (h : w.txn.state = .committing) :
    w.Drifts ((w.finish .committed).count Statistics.countCommit) := by
  have hshift : w.txn.state.Shifts .committed := h ▸ .succeeds
  exact ⟨rfl, rfl, hshift, (unmoved_finish w .committed).trans (unmoved_count _ _)⟩

theorem Drifts.rejected {err : StoreError} {b : Backend}
    (h : w.store.backend.update w.txn.batch = (.error err, b)) : w.Drifts (w.withBackend b) :=
  ⟨rfl, rfl, .stays _, unmoved_rejected (Backend.update_error h)⟩

namespace Occurs

theorem id (h : w.Occurs e w') : w'.txn.id = w.txn.id := by
  cases h with
  | queued | ran => rw [afterCommit]; split <;> rfl
  | wrote | emptied | discarded => rfl

/-- What an event leaves waiting. -/
theorem callbacks (h : w.Occurs e w') : w'.txn.callbacks = e.after w.txn.callbacks := by
  cases h with
  | queued hauto =>
    rw [afterCommit, if_neg (by rw [hauto]; simp)]
    rfl
  | ran hauto =>
    rw [afterCommit, if_pos hauto]
    rfl
  | wrote | emptied | discarded => rfl

/-- An event that closes the queue takes up all that wait. -/
theorem taken (h : w.Occurs e w') (hcloses : e.closes = true) : e.taken = w.txn.callbacks := by
  cases h with
  | queued | ran => cases hcloses
  | wrote | emptied | discarded => rfl

theorem shows (h : w.Occurs e w') : e.Shows w.txn.id w.store w'.store := by
  cases h with
  | queued hauto =>
    rw [afterCommit, if_neg (by rw [hauto]; simp)]
    exact .refl _
  | ran hauto =>
    rw [afterCommit, if_pos hauto]
    exact .refl _
  | wrote hupdate =>
    exact ⟨rfl, rfl, _, _, delivers_applied (Backend.update_ok hupdate),
      Callback.runInTurn_runAll _ _, rfl, rfl, rfl, rfl⟩
  | emptied =>
    exact ⟨_, Callback.runInTurn_runAll _ _, unmoved_finish w.runCallbacks .committed⟩
  | discarded => exact unmoved_finish _ .rolledBack

/-- One more callback has waited, or waits. -/
theorem balance (h : w.Occurs e w') :
    w.txn.callbacks ++ e.queued?.toList = e.taken ++ w'.txn.callbacks := by
  rw [h.callbacks]
  cases h with
  | ran => exact List.append_nil _
  | queued | wrote | emptied | discarded => rfl

end Occurs

/-! ## Rows of events -/

namespace Undergoes

theorem trans (h : u.Undergoes pre v) (h' : v.Undergoes post w) : u.Undergoes (pre ++ post) w := by
  induction h' with
  | refl => rwa [List.append_nil]
  | drift _ hdrift ih => exact ih.drift hdrift
  | occur _ hoccur ih =>
    rw [← List.append_assoc]
    exact ih.occur hoccur

theorem of_drifts (h : w.Drifts w') : w.Undergoes [] w' := Undergoes.refl.drift h

theorem of_occurs (h : w.Occurs e w') : w.Undergoes [e] w' := Undergoes.refl.occur h

theorem id (h : w.Undergoes es w') : w'.txn.id = w.txn.id := by
  induction h with
  | refl => rfl
  | drift _ hdrift ih => exact hdrift.id.trans ih
  | occur _ hoccur ih => exact hoccur.id.trans ih

theorem callbacks (h : w.Undergoes es w') :
    w'.txn.callbacks = es.foldl Event.after w.txn.callbacks := by
  induction h with
  | refl => rfl
  | drift _ hdrift ih => exact hdrift.callbacks.trans ih
  | occur _ hoccur ih => rw [hoccur.callbacks, ih, List.foldl_append, List.foldl_cons,
      List.foldl_nil]

theorem callbacks_of_not_closes (h : w.Undergoes es w') (hopen : ∀ e ∈ es, e.closes = false) :
    w'.txn.callbacks = w.txn.callbacks ++ es.filterMap Event.queued? := by
  rw [h.callbacks, Event.foldl_after_of_not_closes hopen]

/-- Each callback that waits or is registered to wait is taken up once, in the order of
registration, or waits in the end. -/
theorem balance (h : w.Undergoes es w') :
    w.txn.callbacks ++ es.filterMap Event.queued? =
      es.flatMap Event.taken ++ w'.txn.callbacks := by
  induction h with
  | refl => exact List.append_nil _
  | drift _ hdrift ih => rw [hdrift.callbacks, ih]
  | @occur es e u v _ hoccur ih =>
    calc w.txn.callbacks ++ (es ++ [e]).filterMap Event.queued?
        = w.txn.callbacks ++ es.filterMap Event.queued? ++ e.queued?.toList := by
          rw [List.filterMap_append, ← List.append_assoc]
          cases e <;> rfl
      _ = es.flatMap Event.taken ++ (e.taken ++ v.txn.callbacks) := by
          rw [ih, List.append_assoc, hoccur.balance]
      _ = (es ++ [e]).flatMap Event.taken ++ v.txn.callbacks := by
          rw [List.flatMap_append, List.flatMap_singleton, List.append_assoc]

/-- Every event of a row occurs at some point of it. -/
theorem split (h : w.Undergoes (pre ++ e :: post) w') :
    ∃ u v, w.Undergoes pre u ∧ u.Occurs e v ∧ v.Undergoes post w' := by
  generalize hes : pre ++ e :: post = es at h
  -- by induction on the row, from its last event
  induction h generalizing post with
  | refl => cases List.append_eq_nil_iff.1 hes |>.2
  | drift _ hdrift ih =>
    obtain ⟨u, v, hpre, hoccur, hpost⟩ := ih hes
    exact ⟨u, v, hpre, hoccur, hpost.drift hdrift⟩
  | occur hbefore hlast ih =>
    rcases List.eq_nil_or_concat post with rfl | ⟨post, last, rfl⟩
    · obtain ⟨rfl, heq⟩ := List.append_inj' hes rfl
      cases heq
      exact ⟨_, _, hbefore, hlast, .refl⟩
    · rw [List.concat_eq_append, ← List.cons_append, ← List.append_assoc] at hes
      obtain ⟨hbegin, heq⟩ := List.append_inj' hes rfl
      cases heq
      obtain ⟨u, v, hpre, hoccur, hpost⟩ := ih hbegin
      rw [List.concat_eq_append]
      exact ⟨u, v, hpre, hoccur, hpost.occur hlast⟩

end Undergoes

/-! ## Operations -/

/-- What drifts and registrations keep is an invariant of operations, given what becomes of it where
a transaction writes or ends. -/
theorem Invariant.of_drifts {ι : Type} {I : ι → Work → Prop} {inner : ι → Prop}
    (drift : ∀ {i w w'}, I i w → w.Drifts w' → w'.txn.state = w.txn.state → I i w')
    (occur : ∀ {i w w' e}, I i w → w.Occurs e w' → e.closes = false →
      w'.txn.state = w.txn.state → I i w')
    (idle : ∀ {i w}, I i w → w.txn.state = .active → w.txn.isEmpty = true →
      I i ((w.runCallbacks.finish .committed).count Statistics.countCommit))
    (committing : ∀ {i w}, I i w → w.txn.state = .active →
      ∃ j, inner j ∧ I j (w.inState .committing) ∧
        Window I i j (fun u => (u.finish .committed).count Statistics.countCommit)
          (fun u => (u.inState .active).count Statistics.countCommitFailure))
    (rollingBack : ∀ {i w}, I i w → w.txn.state = .active →
      I i ((finish .rolledBack (w.onTxn fun t => { t.clearPending with callbacks := [] })).count
        Statistics.countRollback))
    (atOnce : ∀ {i w}, I i w → w.writesThrough = true →
      ∃ j, inner j ∧ I j w ∧ Window I i j id id) :
    Invariant (fun _ _ => True) inner I := by
  have adjust {i : ι} {w w' : Work} (hw : I i w) (h : w.Adjusts w') : I i w' :=
    drift hw (.of_adjusts h) h.state
  refine
    { snapshot := fun hw _ _ => adjust hw (.recordSnapshot _ _)
      field := fun hw _ _ => adjust hw (.takeDown _ _ _ _)
      deletion := fun hw _ _ => adjust hw (.recordDeletion _ _)
      setting := fun hw _ hsets => ?_
      query := fun hw => adjust hw (.count _ _)
      remark := fun hw => adjust hw (.ofStore _ (.remark _ _))
      afterCommit := fun {i w c} hw _ => ?_
      idle := idle
      committing := committing
      rollingBack := rollingBack
      atOnce := atOnce
      pass := fun hi hw => ⟨_, hi, adjust hw (.beginPass _), fun u hu => adjust hu (.endPass u)⟩
      restart := fun _ hw => adjust hw (.count _ _)
      check := fun _ hw _ =>
        ⟨_, adjust hw (.checkOut _ _), fun body u hu => adjust hu (.checkIn u _ _)⟩ }
  · cases hsets <;> exact drift hw ⟨rfl, rfl, .stays _, .refl _⟩ rfl
  · have hstate : (w.afterCommit c).txn.state = w.txn.state := by
      rw [Work.afterCommit]
      split <;> rfl
    cases hauto : w.txn.autoCommit with
    | false => exact occur hw (.queued hauto) rfl hstate
    | true => exact occur hw (.ran hauto) rfl hstate

/-- A row of events has led here. A commit that is under way is known by its state. -/
structure Reached (w₀ : Work) (committing : Bool) (w : Work) : Prop where
  row : ∃ es, w₀.Undergoes es w
  state : committing = true → w.txn.state = .committing

/-- In the midst of a commit callbacks are registered, and nothing has closed the queue. -/
structure Gathers (w₀ w : Work) : Prop where
  row : ∃ es, (∀ e ∈ es, e.closes = false) ∧ w₀.Undergoes es w
  state : w.txn.state = .committing

namespace Reached

variable {w₀ : Work} {committing : Bool}

theorem start (w : Work) : w.Reached false w := ⟨⟨[], .refl⟩, nofun⟩

theorem outside (hw : w₀.Reached committing w) (hactive : w.txn.state = .active) :
    committing = false := by
  cases committing with
  | false => rfl
  | true => cases (hw.state rfl).symm.trans hactive

theorem drift (hw : w₀.Reached committing w) (h : w.Drifts w')
    (hstate : w'.txn.state = w.txn.state) : w₀.Reached committing w' :=
  ⟨hw.row.imp fun _ hes => hes.drift h, fun hc => hstate.trans (hw.state hc)⟩

theorem occur (hw : w₀.Reached committing w) (h : w.Occurs e w')
    (hstate : w'.txn.state = w.txn.state) : w₀.Reached committing w' :=
  ⟨hw.row.elim fun _ hes => ⟨_, hes.occur h⟩, fun hc => hstate.trans (hw.state hc)⟩

theorem leave (hw : w₀.Reached committing w) (h : w.Drifts w') : w₀.Reached false w' :=
  ⟨hw.row.imp fun _ hes => hes.drift h, nofun⟩

theorem close (hw : w₀.Reached committing w) (h : w.Occurs e w') : w₀.Reached false w' :=
  ⟨hw.row.elim fun _ hes => ⟨_, hes.occur h⟩, nofun⟩

end Reached

namespace Gathers

variable {w₀ : Work}

theorem begin (h : w.txn.state = .active) : w.Gathers (w.inState .committing) :=
  ⟨⟨[], nofun, .of_drifts (.begins h)⟩, rfl⟩

theorem not_active (hw : w₀.Gathers w) : w.txn.state ≠ .active := by
  rw [hw.state]
  nofun

theorem drift (hw : w₀.Gathers w) (h : w.Drifts w') (hstate : w'.txn.state = w.txn.state) :
    w₀.Gathers w' := by
  obtain ⟨⟨es, hopen, hes⟩, hcommitting⟩ := hw
  exact ⟨⟨es, hopen, hes.drift h⟩, hstate.trans hcommitting⟩

theorem occur (hw : w₀.Gathers w) (h : w.Occurs e w') (hcloses : e.closes = false)
    (hstate : w'.txn.state = w.txn.state) : w₀.Gathers w' := by
  obtain ⟨⟨es, hopen, hes⟩, hcommitting⟩ := hw
  refine ⟨⟨_, fun e' he' => ?_, hes.occur h⟩, hstate.trans hcommitting⟩
  rcases List.mem_append.1 he' with he' | he'
  · exact hopen e' he'
  · exact List.mem_singleton.1 he' ▸ hcloses

end Gathers

/-- Every part of an operation is a row of events. -/
theorem reached_invariant (w₀ : Work) :
    Invariant (fun _ _ => True) (fun _ => True) w₀.Reached := by
  refine .of_drifts Reached.drift (fun hw h _ => hw.occur h) ?idle ?committing ?rollingBack ?atOnce
  case idle =>
    intro i w hw hactive hempty
    obtain rfl := hw.outside hactive
    exact (hw.close (.emptied hactive hempty)).leave (.count _ _)
  case rollingBack =>
    intro i w hw hactive
    obtain rfl := hw.outside hactive
    exact (hw.close (.discarded hactive)).leave (.count _ _)
  case atOnce =>
    intro i w hw _
    exact ⟨i, trivial, hw, fun hu => hu, fun hu hupdate => hu.drift (.rejected hupdate) rfl,
      fun hu hupdate => hu.occur (.wrote hupdate) rfl⟩
  case committing =>
    intro i w hw hactive
    obtain rfl := hw.outside hactive
    refine ⟨true, trivial, ⟨(hw.leave (.begins hactive)).row, fun _ => rfl⟩, ?_, ?_, ?_⟩
    · exact fun hu => hu.leave (.fails (hu.state rfl))
    · exact fun hu hupdate => (hu.leave (.rejected hupdate)).leave (.fails (hu.state rfl))
    · exact fun hu hupdate => (hu.close (.wrote hupdate)).leave (.succeeds (hu.state rfl))

theorem gathers_invariant (w₀ : Work) :
    Invariant (fun _ _ => True) (fun _ => True) fun (_ : Unit) w => w₀.Gathers w :=
  .of_drifts Gathers.drift Gathers.occur (fun hw h _ => absurd h hw.not_active)
    (fun hw h => absurd h hw.not_active) (fun hw h => absurd h hw.not_active)
    fun hw h => absurd (active_of_writesThrough h) hw.not_active

section Hooks

variable (hooks : Hooks) (level : Nat)

/-- Every operation is a row of events. -/
theorem undergoes_perform (op : Operation) (w : Work) :
    ∃ es, w.Undergoes es (op.perform (hooks.runner level) w).2 :=
  have h := reached_invariant w
  (h.perform (h.keeps hooks level) trivial (.start w)).row

theorem undergoes_program {α : Type} (p : Program α) (w : Work) :
    ∃ es, w.Undergoes es (p.run (hooks.runner level) w).2 :=
  have h := reached_invariant w
  (h.program (h.keeps hooks level) ((Program.asks_true p).obeys (fun _ _ hop => hop) w)
    (.start w)).row

theorem undergoes_hook (hook : Hook) (e : Entity) (w : Work) :
    ∃ es, w.Undergoes es (hooks.runner level hook e w).2 :=
  ((reached_invariant w).keeps hooks level false hook e w (.start w)).row

theorem reached_repair (w : Work) :
    w.Reached false (ensureIntegrity (hooks.runner level) w).2 :=
  have h := reached_invariant w
  h.ensureIntegrity (h.keeps hooks level) trivial (.start w)

theorem gathers_repair (hactive : w.txn.state = .active) :
    w.Gathers (ensureIntegrity (hooks.runner level) (w.inState .committing)).2 :=
  have h := gathers_invariant w
  h.ensureIntegrity (h.keeps hooks level) (i := ()) trivial (.begin hactive)

end Hooks

end Work

end EntityStore
