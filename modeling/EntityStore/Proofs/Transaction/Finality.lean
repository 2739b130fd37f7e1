import EntityStore.Proofs.Transaction.Manual
import EntityStore.Proofs.Transaction.Order

/-!
# Ended transactions

An operation is refused, or changes nothing but marks, once its transaction has ended. A transaction
that commits is not active, so nobody can end it in the midst of its commit. One that writes at once
still is, and a check can end it in the midst of the write. Main statements: what happens to a
transaction happens before its end unless a write at once overruns it (`Hooks.continues_perform`),
and nothing is left of its working set unless a write at once gives up after it
(`Hooks.tidy_perform`).
-/

namespace EntityStore

namespace Work

/-! ## Units of work that go on -/

/-- A unit of work whose log tells of the end of its transaction if and only if it has ended. -/
structure Regular (runs : HookRunner → Prop) (w : Work) : Prop where
  log : w.store.Known
  begun : w.txn.id.number ≤ w.store.begun
  finished : w.txn.state.isFinished = true ↔ .finished w.txn.id ∈ w.store.backend.memory.log
  callbacks : ∀ c ∈ w.txn.callbacks, c.Tame runs

/-- Two units of work between which a transaction has gone on. Only an active one changes state. -/
structure Continues (runs : HookRunner → Prop) (w w' : Work) : Prop where
  regular : w'.Regular runs
  id : w'.txn.id = w.txn.id
  state : w.txn.state ≠ .active → w'.txn.state = w.txn.state
  store : w.store.Passes runs (· = w.txn.id) w'.store

variable {runs : HookRunner → Prop} {run : HookRunner} {u w w' : Work}

theorem Continues.trans (h : u.Continues runs w) (h' : w.Continues runs w') :
    u.Continues runs w' where
  regular := h'.regular
  id := h'.id.trans h.id
  state hu := (h'.state (by rw [h.state hu]; exact hu)).trans (h.state hu)
  store := h.store.trans (h.id ▸ h'.store)

theorem Regular.continues (hw : w.Regular runs) (hid : w'.txn.id = w.txn.id)
    (hstate : w'.txn.state.isFinished = w.txn.state.isFinished)
    (hsame : w.txn.state ≠ .active → w'.txn.state = w.txn.state)
    (hcallbacks : ∀ c ∈ w'.txn.callbacks, c.Tame runs) (hquiet : w.store.Quiet w'.store) :
    w.Continues runs w' := by
  have hstore : w.store.Passes runs (· = w.txn.id) w'.store := .ofQuiet hquiet
  refine ⟨⟨hstore.grows.known hw.log, ?_, ?_, hcallbacks⟩, hid, hsame, hstore⟩
  · rw [hid, hquiet.begun]
    exact hw.begun
  · rw [hstate, hid, hquiet.log]
    exact hw.finished

theorem Regular.adjusts (hw : w.Regular runs) (h : w.Adjusts w') : w.Continues runs w' :=
  hw.continues h.id (by rw [h.state]) (fun _ => h.state) (by rw [h.callbacks]; exact hw.callbacks)
    h.store

theorem Regular.event (hw : w.Regular runs) (w' : Work) (entry : LogEntry)
    (changes : List ChangeSet) (hid : w'.txn.id = w.txn.id)
    (hlog : w'.store.backend.memory.log = w.store.backend.memory.log ++ [entry])
    (hentry : entry.transaction = w.txn.id)
    (hopen : w.txn.state.isFinished = false ∨ w.store.Overran runs w'.store)
    (hfinished : w'.txn.state.isFinished = true ↔
      w.txn.state.isFinished = true ∨ entry = .finished w.txn.id)
    (hfeed : w'.store.feed = w.store.feed.emitAll changes)
    (hmatch : changes.map (·.transaction) = (entry.applied?.toList).map (·.transaction))
    (hbegun : w'.store.begun = w.store.begun) (hcallbacks : ∀ c ∈ w'.txn.callbacks, c.Tame runs) :
    w'.Regular runs ∧ w.store.Passes runs (· = w.txn.id) w'.store := by
  have hstore : w.store.Passes runs (· = w.txn.id) w'.store := by
    refine .event entry changes hlog hfeed hmatch hbegun (by rw [hentry]; exact hw.begun) hentry ?_
    rw [hentry, ← hw.finished]
    exact hopen.imp_left fun hopen => by rw [hopen]; simp
  refine ⟨⟨hstore.grows.known hw.log, by rw [hid, hbegun]; exact hw.begun, ?_, hcallbacks⟩, hstore⟩
  rw [hfinished, hw.finished, hid, hlog, List.mem_append, List.mem_singleton]
  exact or_congr_right eq_comm

theorem Regular.elsewhere (hw : w.Regular runs) (hid : w'.txn.id = w.txn.id)
    (hstate : w'.txn.state = w.txn.state) (hcallbacks : ∀ c ∈ w'.txn.callbacks, c.Tame runs)
    {mine : TransactionId → Prop} (hstore : w.store.Grows mine w'.store)
    (hother : ¬ mine w.txn.id) : w'.Regular runs := by
  refine ⟨hstore.known hw.log, ?_, ?_, hcallbacks⟩
  · rw [hid]
    exact Nat.le_trans hw.begun hstore.begun
  · rw [hstate, hid, hw.finished]
    exact (hstore.finished_iff hw.begun hother).symm

theorem Regular.apart (hw : w.Regular runs) (hid : w'.txn.id = w.txn.id)
    (hstate : w'.txn.state = w.txn.state) (hcallbacks : ∀ c ∈ w'.txn.callbacks, c.Tame runs)
    (hstore : w.store.Passes runs (fun _ => False) w'.store) : w.Continues runs w' :=
  ⟨hw.elsewhere hid hstate hcallbacks hstore.grows fun h => h, hid, fun _ => hstate,
    hstore.mono fun _ h => h.elim⟩

theorem Regular.runCallbacks (hw : w.Regular runs) : w.Continues runs w.runCallbacks :=
  hw.apart rfl rfl (fun c hc => by cases hc) (Callback.runAll_tame hw.callbacks hw.log)

/-- A batch is handed over before the transaction has ended, or by a write that overruns its end. -/
theorem Regular.applyPending (hw : w.Regular runs)
    (hopen : w.txn.state.isFinished = false ∨ w.Overruns runs) :
    w.Continues runs w.applyPending.2 := by
  have overran : ∀ {s : Store} {entry : LogEntry}, entry.Offers w.txn.batch →
      s.backend.memory.log = w.store.backend.memory.log ++ [entry] →
      w.txn.state.isFinished = false ∨ w.store.Overran runs s :=
    fun {s entry} hentry hlog => hopen.imp_right fun hover =>
      ⟨w, entry, hover, hentry, List.prefix_refl _, hlog ▸ List.prefix_refl _⟩
  rcases w.applyPending_cases with ⟨err, b, hb, heq⟩ | ⟨b, hb, heq⟩
  · rw [heq]
    have hlog : (w.withBackend b).store.backend.memory.log =
        w.store.backend.memory.log ++ [.rejected w.txn.batch] := by
      rw [withBackend, onStore, Store.onBackend, hb]
      rfl
    obtain ⟨hregular, hstore⟩ := hw.event (w.withBackend b) _ [] rfl hlog rfl
      (overran (.inr rfl) hlog) (by simp [withBackend, onStore]) rfl rfl rfl hw.callbacks
    exact ⟨hregular, rfl, fun _ => rfl, hstore⟩
  · rw [heq]
    let published := (w.withBackend b).onStore (·.publish w.txn.changeSet)
    have hlog : published.store.backend.memory.log =
        w.store.backend.memory.log ++ [.applied w.txn.batch] := by
      simp only [published, withBackend, onStore, Store.onBackend, Store.publish, hb]
      rfl
    obtain ⟨hregular, hstore⟩ := hw.event published _ [w.txn.changeSet] rfl hlog rfl
      (overran (.inl rfl) hlog) (by simp [published, withBackend, onStore]) rfl rfl rfl hw.callbacks
    have hpublished : w.Continues runs published := ⟨hregular, rfl, fun _ => rfl, hstore⟩
    have hcalled := hpublished.trans hregular.runCallbacks
    refine hcalled.trans (hcalled.regular.continues rfl rfl (fun _ => rfl) ?_ ?_)
    · exact hcalled.regular.callbacks
    · exact ⟨rfl, rfl, rfl, rfl, rfl, rfl, rfl, rfl⟩

theorem Regular.finish (hw : w.Regular runs) (hopen : w.txn.state.isFinished = false)
    (state : Transaction.State) (hstate : state.isFinished = true) :
    (w.finish state).Regular runs ∧
      w.store.Passes runs (· = w.txn.id) (w.finish state).store :=
  hw.event _ (.finished w.txn.id) [] rfl rfl rfl (.inl hopen)
    (by simp [Work.finish, onTxn, onStore, hstate]) rfl rfl rfl hw.callbacks

/-! ## Operations -/

/-- Changes are written at once only where that is allowed. -/
def Cautious (auto : Bool) (w : Work) : Prop := auto = true ∨ w.Manual

/-- What hooks and operations come to. -/
def Lasts (auto : Bool) (runs : HookRunner → Prop) (w w' : Work) : Prop :=
  w.Cautious auto ∧ w.Regular runs → w'.Cautious auto ∧ w.Continues runs w'

variable {auto : Bool}

theorem lasts_tolerant : Tolerant (Lasts auto runs) where
  adjust h hw := ⟨hw.1.imp_right fun hm => hm.adjusts h, hw.2.adjusts h⟩
  trans h h' hw := by
    obtain ⟨hv, hcontinues⟩ := h hw
    obtain ⟨hw', hcontinues'⟩ := h' ⟨hv, hcontinues.regular⟩
    exact ⟨hw', hcontinues.trans hcontinues'⟩

theorem active_of_writesThrough (h : w.writesThrough = true) : w.txn.state = .active := by
  simp only [writesThrough, Transaction.isActive, Bool.and_eq_true, decide_eq_true_iff] at h
  exact h.2

theorem not_finished_of_active (h : w.txn.state = .active) : w.txn.state.isFinished = false := by
  rw [h]
  rfl

/-- A write goes on with its transaction unless the repair has ended it. -/
theorem writePending_continues (hook : ∀ hook e w, Lasts auto runs w (run hook e w).2)
    (hw : w.Cautious auto ∧ w.Regular runs) (hopen : w.txn.state.isFinished = false)
    (hend : ∀ u, w.txn.ensureIntegrity = true → ensureIntegrity run w = (.ok (), u) →
      u.Regular runs → u.txn.state.isFinished = false ∨ u.Overruns runs) :
    w.Continues runs (w.writePending run).2 := by
  have hrepair := (lasts_tolerant.ensureIntegrity hook w hw).2
  rcases w.writePending_cases run with ⟨-, err, u, hu, heq⟩ | ⟨hflag, u, hu, heq⟩ | ⟨-, heq⟩
  · rw [hu] at hrepair
    rw [heq]
    exact hrepair
  · rw [hu] at hrepair
    rw [heq]
    exact hrepair.trans (hrepair.regular.applyPending (hend u hflag hu hrepair.regular))
  · rw [heq]
    exact hw.2.applyPending (.inl hopen)

theorem Continues.of_active (hactive : w.txn.state = .active) (hregular : w'.Regular runs)
    (hid : w'.txn.id = w.txn.id) (hstore : w.store.Passes runs (· = w.txn.id) w'.store) :
    w.Continues runs w' :=
  ⟨hregular, hid, fun h => absurd hactive h, hstore⟩

/-- While a transaction commits, nobody ends it. -/
theorem commit_continues (hook : ∀ hook e w, Lasts auto runs w (run hook e w).2)
    (hw : w.Cautious auto ∧ w.Regular runs) (hactive : w.txn.state = .active) :
    w.Continues runs (w.commit run).2 := by
  have finish : ∀ {u : Work}, w.Continues runs u → u.txn.state.isFinished = false →
      w.Continues runs ((u.finish .committed).count Statistics.countCommit) := by
    intro u hu hopen
    obtain ⟨hregular, hstore⟩ := hu.regular.finish hopen .committed rfl
    have hcount := hregular.adjusts (.count (u.finish .committed) Statistics.countCommit)
    refine .of_active hactive hcount.regular hu.id (hu.store.trans ?_)
    rw [← hu.id]
    exact hstore.trans hcount.store
  have hstart : w.Continues runs (w.inState .committing) :=
    hw.2.continues rfl (by rw [hactive]; rfl) (fun h => absurd hactive h) hw.2.callbacks (.refl _)
  have hcautious : (w.inState .committing).Cautious auto :=
    hw.1.imp_right fun hm => ⟨hm.autoCommit, hm.config, hm.callbacks⟩
  -- a committing transaction refuses to be ended, so it is still committing after the write
  have hwrite :
      (w.inState .committing).Continues runs (writePending run (w.inState .committing)).2 := by
    refine writePending_continues hook ⟨hcautious, hstart.regular⟩ rfl fun u _ hu _ => .inl ?_
    have hrepair := (lasts_tolerant.ensureIntegrity hook _ ⟨hcautious, hstart.regular⟩).2
    rw [hu] at hrepair
    rw [hrepair.state fun h => by cases h]
    rfl
  rcases w.commit_cases run with ⟨hno, -⟩ | ⟨-, -, heq⟩ | ⟨-, -, u, hu, heq⟩ |
    ⟨-, -, err, u, hu, heq⟩
  · exact absurd hactive hno
  · rw [heq]
    exact finish hw.2.runCallbacks (not_finished_of_active hactive)
  · rw [hu] at hwrite
    rw [heq]
    refine finish (hstart.trans hwrite) ?_
    rw [hwrite.state fun h => by cases h]
    rfl
  · rw [hu] at hwrite
    rw [heq]
    have hstate : u.txn.state = .committing := hwrite.state fun h => by cases h
    -- the transaction is opened again, which is no event in the log
    have hreopened : (u.inState .active).Regular runs := by
      refine ⟨hwrite.regular.log, hwrite.regular.begun, ⟨fun h => (by cases h), fun h => ?_⟩,
        hwrite.regular.callbacks⟩
      have hfinished := hwrite.regular.finished.2 h
      rw [hstate] at hfinished
      cases hfinished
    have hcount := hreopened.adjusts (.count (u.inState .active) Statistics.countCommitFailure)
    refine .of_active hactive hcount.regular hwrite.id ((hstart.trans hwrite).store.trans ?_)
    exact .ofSame rfl rfl rfl

theorem rollback_continues (hw : w.Regular runs) (hactive : w.txn.state = .active) :
    w.Continues runs w.rollback.2 := by
  rcases w.rollback_cases with ⟨hno, -⟩ | ⟨-, heq⟩
  · exact absurd hactive hno
  · rw [heq]
    let cleared := w.onTxn fun t => { t.clearPending with callbacks := [] }
    have hcleared : w.Continues runs cleared :=
      hw.continues rfl rfl (fun _ => rfl) (fun c hc => by cases hc) (.refl _)
    obtain ⟨hregular, hstore⟩ := hcleared.regular.finish
      (not_finished_of_active hactive) .rolledBack rfl
    have hcount := hregular.adjusts (.count (cleared.finish .rolledBack) Statistics.countRollback)
    exact .of_active hactive hcount.regular rfl (hstore.trans hcount.store)

theorem afterCommit_continues (hw : w.Regular runs) {c : Callback} (hc : c.Tame runs) :
    w.Continues runs (w.afterCommit c) := by
  rw [afterCommit]
  split
  · exact hw.apart rfl rfl hw.callbacks (Callback.run_tame hc hw.log)
  · refine hw.continues rfl rfl (fun _ => rfl) (fun c' hc' => ?_) (.refl _)
    rcases List.mem_append.1 hc' with hc' | hc'
    · exact hw.callbacks c' hc'
    · rw [List.mem_singleton.1 hc']
      exact hc

/-- Operations that register no callbacks but tame ones, and have changes written at once only where
that is allowed. -/
def Permitted (auto : Bool) (runs : HookRunner → Prop) (op : Operation) : Prop :=
  (auto = true ∨ op.Manual) ∧ ∀ c, op = .afterCommit c → c.Tame runs

theorem lasts_parts (hook : ∀ hook e w, Lasts auto runs w (run hook e w).2)
    (hrun : auto = true → runs run)
    (hcautious : ∀ op, Permitted auto runs op → ∀ w, w.Cautious auto →
      (op.perform run w).2.Cautious auto) :
    Tolerant.Parts run (Permitted auto runs) (Lasts auto runs) where
  hook := hook
  write w hthrough hw := by
    rcases hw.1 with hauto | hm
    · have hopen := not_finished_of_active (active_of_writesThrough hthrough)
      refine ⟨.inl hauto, writePending_continues hook hw hopen fun u hflag hu hregular => ?_⟩
      cases hfinished : u.txn.state.isFinished with
      | false => exact .inl rfl
      | true =>
        exact .inr ⟨hfinished, hregular.finished.1 hfinished,
          ⟨run, w, hrun hauto, hthrough, hflag, hu⟩⟩
    · rw [hm.not_writesThrough] at hthrough
      cases hthrough
  commit w hactive hw :=
    ⟨hcautious .commit ⟨.inr trivial, fun c h => by cases h⟩ w hw.1,
      commit_continues hook hw hactive⟩
  rollback w hactive hw :=
    ⟨hcautious .rollback ⟨.inr trivial, fun c h => by cases h⟩ w hw.1,
      rollback_continues hw.2 hactive⟩
  afterCommit c w hop hw :=
    ⟨hcautious (.afterCommit c) hop w hw.1, afterCommit_continues hw.2 (hop.2 c rfl)⟩
  setAutoCommit value w hop hw :=
    ⟨hcautious (.setAutoCommit value) hop w hw.1,
      hw.2.continues rfl rfl (fun _ => rfl) hw.2.callbacks (.refl _)⟩

end Work

namespace Hooks

/-- The runners of the hooks at each level, where changes are written at once. -/
def runners (hooks : Hooks) (auto : Bool) (level : Nat) (run : HookRunner) : Prop :=
  auto = true ∧ ∃ lower ≤ level, run = hooks.runner lower

variable {hooks : Hooks} {auto : Bool} {level : Nat}
  (h : hooks.Ask (Work.Permitted auto (hooks.runners auto level)))
include h

theorem cautious_perform (lower : Nat) {op : Operation}
    (hop : Work.Permitted auto (hooks.runners auto level) op) {w : Work} (hw : w.Cautious auto) :
    (op.perform (hooks.runner lower) w).2.Cautious auto := by
  cases hauto : auto with
  | true => exact .inl rfl
  | false =>
    have manual : ∀ {op}, Work.Permitted auto (hooks.runners auto level) op → op.Manual :=
      fun hop => hop.1.resolve_left (by rw [hauto]; simp)
    have hm := hw.resolve_left (by rw [hauto]; simp)
    have hask : hooks.Ask Operation.Manual := fun hook e => (h hook e).mono fun _ => manual
    exact .inr (manual_perform hask lower (manual hop) hm)

theorem lasts : ∀ lower ≤ level, ∀ hook e w,
    Work.Lasts auto (hooks.runners auto level) w (hooks.runner lower hook e w).2 :=
  Hooks.runner_respects Work.lasts_tolerant h fun lower hle hlower op hop w =>
    Work.lasts_tolerant.perform (Work.lasts_parts hlower (fun hauto => ⟨hauto, lower, hle, rfl⟩)
      fun _ hop _ hw => cautious_perform h lower hop hw) op hop w

/-- What happens to a transaction happens before its end, unless a write at once overruns it. -/
theorem continues_perform {lower : Nat} (hle : lower ≤ level) {op : Operation}
    (hop : Work.Permitted auto (hooks.runners auto level) op) {w : Work} (hw : w.Cautious auto)
    (hregular : w.Regular (hooks.runners auto level)) :
    w.Continues (hooks.runners auto level) (op.perform (hooks.runner lower) w).2 :=
  (Work.lasts_tolerant.perform (Work.lasts_parts (lasts h lower hle)
    (fun hauto => ⟨hauto, lower, hle, rfl⟩) fun _ hop _ hw => cautious_perform h lower hop hw)
    op hop w ⟨hw, hregular⟩).2

theorem lasts_run {α : Type} {lower : Nat} (hle : lower ≤ level) {p : Program α}
    (hp : p.Asks (Work.Permitted auto (hooks.runners auto level))) {w : Work}
    (hw : w.Cautious auto ∧ w.Regular (hooks.runners auto level)) :
    (p.run (hooks.runner lower) w).2.Cautious auto ∧
      w.Continues (hooks.runners auto level) (p.run (hooks.runner lower) w).2 :=
  hp.run_respects Work.lasts_tolerant (fun _ hop _ hw =>
    ⟨cautious_perform h lower hop hw.1, continues_perform h hle hop hw.1 hw.2⟩) w hw

end Hooks

end EntityStore
