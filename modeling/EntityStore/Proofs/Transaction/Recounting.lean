import EntityStore.Proofs.Transaction.Invariance
import Mathlib.Order.CompleteBooleanAlgebra
import Mathlib.Order.CompletePartialOrder

/-!
# What is told of a store, and what is known of a transaction

Most invariants fall into two parts. One tells of the store what has come of it so far, and the tale
grows: `Recounts` says how it goes on when a batch is handed over. The other knows something of a
transaction alone, and is broken for a time inside of writes, passes and checks: `Maintained` lists
what may happen to a transaction, with nothing of the store in it. Together they are an invariant of
every operation (`Recounts.invariant`). Callbacks act on a store as a whole, so a callback that
waits must be known to carry the tale on (`Callback.Keeps`).
-/

namespace EntityStore

/-! ## Stores -/

namespace LogEntry

/-- Whether an entry tells of a batch that was handed to the backend. -/
def isOffer : LogEntry → Bool
  | applied _ | rejected _ => true
  | started _ | finished _ => false

end LogEntry

/-- What has come of the batches that were handed to the backend, oldest first. -/
def Memory.offers (m : Memory) : List LogEntry := m.log.filter LogEntry.isOffer

theorem Memory.offers_note (m : Memory) (entry : LogEntry) :
    (m.note entry).offers = if entry.isOffer then m.offers ++ [entry] else m.offers := by
  rw [offers, note, List.filter_append]
  cases h : entry.isOffer <;> simp [offers, h]

theorem Memory.applied_eq_offers (m : Memory) :
    m.applied = m.offers.filterMap LogEntry.applied? := by
  rw [applied, offers, List.filterMap_filter]
  congr 1
  funext entry
  cases entry <;> rfl

/-- Two feeds of which one comes from the other as clients come, listen and go. -/
inductive Feed.Listens (f : Feed) : Feed → Prop
  | subscribe : Listens f f.subscribe.2
  | close (number : Nat) : Listens f (f.close number)
  | drain (number : Nat) : Listens f (f.drain number).2

namespace Store

/-- Two stores that differ at most in the committed entities, in notes, in counters of what is not
written, and in what the backend was told besides batches. -/
structure Stirs (s s' : Store) : Prop where
  config : s'.config = s.config
  begun : s'.begun = s.begun
  feed : s'.feed = s.feed
  instrument : s'.backend.instrument = s.backend.instrument
  offers : s'.backend.memory.offers = s.backend.memory.offers
  written : s'.statistics.entitiesWritten = s.statistics.entitiesWritten
  deleted : s'.statistics.entitiesDeleted = s.statistics.entitiesDeleted

namespace Stirs

variable {s t u : Store}

theorem refl (s : Store) : s.Stirs s := ⟨rfl, rfl, rfl, rfl, rfl, rfl, rfl⟩

theorem trans (h : s.Stirs t) (h' : t.Stirs u) : s.Stirs u where
  config := h'.config.trans h.config
  begun := h'.begun.trans h.begun
  feed := h'.feed.trans h.feed
  instrument := h'.instrument.trans h.instrument
  offers := h'.offers.trans h.offers
  written := h'.written.trans h.written
  deleted := h'.deleted.trans h.deleted

theorem count (s : Store) {counter : Statistics → Statistics}
    (h : ∀ c, (counter c).entitiesWritten = c.entitiesWritten ∧
      (counter c).entitiesDeleted = c.entitiesDeleted) : s.Stirs (s.count counter) :=
  ⟨rfl, rfl, rfl, rfl, rfl, (h _).1, (h _).2⟩

theorem note (s : Store) (entry : Note) : s.Stirs (s.note entry) :=
  ⟨rfl, rfl, rfl, rfl, rfl, rfl, rfl⟩

theorem noteModification (s : Store) : s.Stirs (s.onBackend Backend.noteModification) :=
  ⟨rfl, rfl, rfl, rfl, rfl, rfl, rfl⟩

theorem noteFinished (s : Store) (id : TransactionId) :
    s.Stirs (s.onBackend (·.noteFinished id)) :=
  ⟨rfl, rfl, rfl, rfl, Memory.offers_note _ _, rfl, rfl⟩

theorem elsewhere (s : Store) {m : Memory} (h : m.log = s.backend.memory.log) :
    s.Stirs (s.onBackend (·.onMemory fun _ => m)) :=
  ⟨rfl, rfl, rfl, rfl, congrArg (List.filter _) h, rfl, rfl⟩

theorem drop (w : Work) : w.store.Stirs w.drop := by
  rw [Work.drop]
  split
  · exact .refl _
  · have hcounted : w.store.Stirs (w.store.count Statistics.countRollback) :=
      .count _ fun _ => ⟨rfl, rfl⟩
    exact hcounted.trans (noteFinished _ _)

end Stirs

end Store

/-! ## Transactions -/

variable {ι γ : Type}

/-- What may happen to a transaction keeps what is known of it at its place, or leads to another
place and back. What is known may depend on what has been told of the store. -/
structure Transaction.Maintained (may : Transaction → Operation → Prop) (inner : ι → Prop)
    (W : ι → γ → Transaction → Prop) : Prop where
  snapshot : ∀ {i g t e}, W i g t → t.deleted.contains e.id = false → W i g (t.recordSnapshot e)
  field : ∀ {i g t e field value}, W i g t → t.deleted.contains e.id = false →
    W i g (t.recordField e field value)
  deletion : ∀ {i g t id}, W i g t → t.deleted.contains id = false → W i g (t.recordDeletion id)
  setting : ∀ {i g t op change}, W i g t → may t op → op.Sets change → W i g (change t)
  callbacks : ∀ {i g t} callbacks, W i g t → W i g { t with callbacks := callbacks }
  idle : ∀ {i g t}, W i g t → t.state = .active → t.isEmpty = true →
    W i g { t with state := .committed }
  committing : ∀ {i g t}, W i g t → t.state = .active →
    ∃ j, inner j ∧ W j g { t with state := .committing } ∧ ∀ g u, W j g u →
      W i g { u with state := .active } ∧ W i g { u.clearPending with state := .committed }
  rollingBack : ∀ {i g t}, W i g t → t.state = .active →
    W i g { t.clearPending with state := .rolledBack }
  /-- A change that is written as soon as it is recorded. -/
  atOnce : ∀ {i g t}, W i g t → t.autoCommit = true → t.ensuring = false → t.state = .active →
    ∃ j, inner j ∧ W j g t ∧ ∀ g u, W j g u → W i g u ∧ W i g u.clearPending
  pass : ∀ {i g t}, inner i → W i g t → ∃ j, inner j ∧ W j g { t with ensuring := true } ∧
    ∀ g u, W j g u → W i g { u with ensuring := false }
  check : ∀ {i g id} {w : Work}, inner i → W i g w.txn →
    w.txn.modified.contains id = true ∨ w.txn.deleted.contains id = false →
    ∃ j, W j g (w.checkOut id).txn ∧ ∀ body g (u : Work), W j g u.txn →
      W i g (u.checkIn (w.txn.modified.contains id) ⟨id, body⟩).txn

/-! ## Tales -/

variable [Preorder γ]

/-- A callback carries a tale on. -/
def Callback.Keeps (J : γ → Store → Prop) (c : Callback) : Prop :=
  ∀ g s, J g s → ∃ g', g ≤ g' ∧ J g' (c.run s)

/-- A tale of a store goes on when batches are handed over, given what is known of the transaction
that hands them over. -/
structure Recounts (may : Transaction → Operation → Prop) (inner : ι → Prop)
    (J : γ → Store → Prop) (W : ι → γ → Transaction → Prop) : Prop where
  txn : Transaction.Maintained may inner W
  grows : ∀ {i g g' t}, W i g t → g ≤ g' → W i g' t
  registers : ∀ {t c}, may t (.afterCommit c) → c.Keeps J
  stirs : ∀ {g s s'}, J g s → s.Stirs s' → J g s'
  rejected : ∀ {i g s t err b}, inner i → J g s → W i g t →
    s.backend.update t.batch = (.error err, b) → J g (s.onBackend fun _ => b)
  /-- Callbacks run between the publication of a batch and its count. -/
  applied : ∀ {i g s t b}, inner i → J g s → W i g t → s.backend.update t.batch = (.ok (), b) →
    ∃ g₁, J g₁ ((s.onBackend fun _ => b).publish t.changeSet) ∧ ∀ g₂ s₂, g₁ ≤ g₂ → J g₂ s₂ →
      ∃ g₃, g ≤ g₃ ∧ J g₃ (s₂.count (·.countBatch t.batch.modified.length t.batch.deleted.size))

/-- The tale of the store has gone on from a point, and what is known of the transaction holds at a
place. -/
structure Work.Tells (J : γ → Store → Prop) (W : ι → γ → Transaction → Prop) (g : γ) (i : ι)
    (w : Work) : Prop where
  store : J g w.store
  txn : W i g w.txn
  callbacks : ∀ c ∈ w.txn.callbacks, c.Keeps J

namespace Recounts

variable {may : Transaction → Operation → Prop} {inner : ι → Prop} {J : γ → Store → Prop}
  {W : ι → γ → Transaction → Prop} {g : γ} {i j : ι} {w : Work}

theorem runAll {callbacks : List Callback} (hcallbacks : ∀ c ∈ callbacks, c.Keeps J) {s : Store}
    (hs : J g s) : ∃ g', g ≤ g' ∧ J g' (Callback.runAll callbacks s) := by
  induction callbacks generalizing g s with
  | nil => exact ⟨g, le_refl g, hs⟩
  | cons c rest ih =>
    obtain ⟨g₁, hle, hrun⟩ := hcallbacks c List.mem_cons_self g s hs
    obtain ⟨g₂, hle', hrest⟩ := ih (fun c hc => hcallbacks c (List.mem_cons_of_mem _ hc)) hrun
    exact ⟨g₂, le_trans hle hle', hrest⟩

theorem settle (h : Recounts may inner J W) (hj : inner j) (hw : w.Tells J W g j) {b : Backend}
    (hupdate : w.store.backend.update w.txn.batch = (.ok (), b)) :
    ∃ g', g ≤ g' ∧ J g' (w.withBackend b).settle.store := by
  obtain ⟨g₁, hpublished, hcounted⟩ := h.applied hj hw.store hw.txn hupdate
  obtain ⟨g₂, hle, hcalled⟩ := runAll hw.callbacks hpublished
  exact hcounted g₂ _ hle hcalled

theorem onTxn (h : Recounts may inner J W) (hw : w.Tells J W g i) {w' : Work}
    (hstore : w.store.Stirs w'.store) (htxn : W j g w'.txn)
    (hcallbacks : ∀ c ∈ w'.txn.callbacks, c ∈ w.txn.callbacks) : w'.Tells J W g j :=
  ⟨h.stirs hw.store hstore, htxn, fun c hc => hw.callbacks c (hcallbacks c hc)⟩

/-- A tale and what is known of transactions make an invariant. -/
theorem invariant (h : Recounts may inner J W) (g₀ : γ) :
    Work.Invariant (fun w op => may w.txn op) inner fun i w => ∃ g, g₀ ≤ g ∧ w.Tells J W g i where
  snapshot := by
    rintro i w e ⟨g, hle, hw⟩ - hfresh
    exact ⟨g, hle, h.onTxn hw (.refl _) (h.txn.snapshot hw.txn hfresh) fun _ hc => hc⟩
  field := by
    rintro i w e field value ⟨g, hle, hw⟩ - hsees
    have hfresh : w.txn.deleted.contains e.id = false := by
      simp only [Work.contains, Bool.and_eq_true, Bool.not_eq_true'] at hsees
      exact hsees.1
    exact ⟨g, hle, h.onTxn hw ((Store.Stirs.noteModification _).trans
      (.count _ fun _ => ⟨rfl, rfl⟩)) (h.txn.field hw.txn hfresh) fun _ hc => hc⟩
  deletion := by
    rintro i w id ⟨g, hle, hw⟩ - hfresh
    exact ⟨g, hle, h.onTxn hw (.noteModification _) (h.txn.deletion hw.txn hfresh)
      fun _ hc => hc⟩
  setting := by
    rintro i w op change ⟨g, hle, hw⟩ hmay hsets
    refine ⟨g, hle, h.onTxn hw (.refl _) (h.txn.setting hw.txn hmay hsets) ?_⟩
    cases hsets <;> exact fun _ hc => hc
  query := by
    rintro i w ⟨g, hle, hw⟩
    exact ⟨g, hle, h.onTxn hw (.count _ fun _ => ⟨rfl, rfl⟩) hw.txn fun _ hc => hc⟩
  remark := by
    rintro i w r ⟨g, hle, hw⟩
    exact ⟨g, hle, h.onTxn hw (.note _ _) hw.txn fun _ hc => hc⟩
  afterCommit := by
    rintro i w c ⟨g, hle, hw⟩ hmay
    have hc := h.registers hmay
    rw [Work.afterCommit]
    split
    · obtain ⟨g', hle', hrun⟩ := hc g w.store hw.store
      exact ⟨g', le_trans hle hle', hrun, h.grows hw.txn hle', hw.callbacks⟩
    · refine ⟨g, hle, hw.store, h.txn.callbacks _ hw.txn, fun c' hc' => ?_⟩
      rcases List.mem_append.1 hc' with hold | hnew
      · exact hw.callbacks c' hold
      · rw [List.mem_singleton.1 hnew]
        exact hc
  idle := by
    rintro i w ⟨g, hle, hw⟩ hactive hempty
    obtain ⟨g', hle', hcalled⟩ := runAll hw.callbacks hw.store
    refine ⟨g', le_trans hle hle', ?_, ?_, fun c hc => absurd hc List.not_mem_nil⟩
    · exact h.stirs hcalled ((Store.Stirs.noteFinished _ _).trans (.count _ fun _ => ⟨rfl, rfl⟩))
    · exact h.grows (h.txn.idle (h.txn.callbacks [] hw.txn) hactive hempty) hle'
  committing := by
    rintro i w ⟨g, hle, hw⟩ hactive
    obtain ⟨j, hj, hinner, hback⟩ := h.txn.committing hw.txn hactive
    refine ⟨j, hj, ⟨g, hle, h.onTxn hw (.refl _) hinner fun _ hc => hc⟩, ?_, ?_, ?_⟩
    · rintro u ⟨g', hle', hu⟩
      exact ⟨g', hle', h.onTxn hu (.count _ fun _ => ⟨rfl, rfl⟩) (hback g' _ hu.txn).1
        fun _ hc => hc⟩
    · rintro u err b ⟨g', hle', hu⟩ hupdate
      refine ⟨g', hle', h.stirs (h.rejected hj hu.store hu.txn hupdate) ?_, (hback g' _ hu.txn).1,
        hu.callbacks⟩
      exact .count _ fun _ => ⟨rfl, rfl⟩
    · rintro u b ⟨g', hle', hu⟩ hupdate
      obtain ⟨g'', hle'', hsettled⟩ := h.settle hj hu hupdate
      refine ⟨g'', le_trans hle' hle'', h.stirs hsettled ?_, ?_,
        fun c hc => absurd hc List.not_mem_nil⟩
      · exact (Store.Stirs.noteFinished _ _).trans (.count _ fun _ => ⟨rfl, rfl⟩)
      · exact h.grows (hback g' _ (h.txn.callbacks [] hu.txn)).2 hle''
  rollingBack := by
    rintro i w ⟨g, hle, hw⟩ hactive
    refine ⟨g, hle, h.stirs hw.store ((Store.Stirs.noteFinished _ _).trans
      (.count _ fun _ => ⟨rfl, rfl⟩)), ?_, fun c hc => absurd hc List.not_mem_nil⟩
    exact h.txn.callbacks [] (h.txn.rollingBack hw.txn hactive)
  atOnce := by
    rintro i w ⟨g, hle, hw⟩ hthrough
    obtain ⟨⟨hauto, hensuring⟩, hactive⟩ : (w.txn.autoCommit = true ∧ w.txn.ensuring = false) ∧
        w.txn.state = .active := by
      simpa [Work.writesThrough, Transaction.isActive] using hthrough
    obtain ⟨j, hj, hinner, hback⟩ := h.txn.atOnce hw.txn hauto hensuring hactive
    refine ⟨j, hj, ⟨g, hle, hw.store, hinner, hw.callbacks⟩, ?_, ?_, ?_⟩
    · rintro u ⟨g', hle', hu⟩
      exact ⟨g', hle', hu.store, (hback g' _ hu.txn).1, hu.callbacks⟩
    · rintro u err b ⟨g', hle', hu⟩ hupdate
      exact ⟨g', hle', h.rejected hj hu.store hu.txn hupdate, (hback g' _ hu.txn).1, hu.callbacks⟩
    · rintro u b ⟨g', hle', hu⟩ hupdate
      obtain ⟨g'', hle'', hsettled⟩ := h.settle hj hu hupdate
      exact ⟨g'', le_trans hle' hle'', hsettled,
        h.grows (hback g' _ (h.txn.callbacks [] hu.txn)).2 hle'',
        fun c hc => absurd hc List.not_mem_nil⟩
  pass := by
    rintro i w hi ⟨g, hle, hw⟩
    obtain ⟨j, hj, hbegun, hback⟩ := h.txn.pass hi hw.txn
    refine ⟨j, hj, ⟨g, hle, h.onTxn hw (.refl _) hbegun fun _ hc => hc⟩, ?_⟩
    rintro u ⟨g', hle', hu⟩
    exact ⟨g', hle', h.onTxn hu (.count _ fun _ => ⟨rfl, rfl⟩) (hback g' _ hu.txn) fun _ hc => hc⟩
  restart := by
    rintro i w - ⟨g, hle, hw⟩
    exact ⟨g, hle, h.onTxn hw (.count _ fun _ => ⟨rfl, rfl⟩) hw.txn fun _ hc => hc⟩
  check := by
    rintro i w id hi ⟨g, hle, hw⟩ hdue
    obtain ⟨j, hout, hback⟩ := h.txn.check hi hw.txn hdue
    refine ⟨j, ⟨g, hle, h.onTxn hw (.refl _) hout fun _ hc => hc⟩, ?_⟩
    rintro body u ⟨g', hle', hu⟩
    refine ⟨g', hle', h.onTxn hu (.refl _) (hback body g' u hu.txn) fun c hc => ?_⟩
    rwa [(Work.Adjusts.checkIn u _ _).callbacks] at hc

end Recounts

end EntityStore
