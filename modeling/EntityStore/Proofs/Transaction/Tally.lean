import EntityStore.Proofs.Transaction.Invariance
import Mathlib.Data.List.Nodup
import Mathlib.Data.List.Range

/-!
# The tally of transactions

A store counts the transactions that begin and those that end, and its backend keeps a list of those
in between and is told of every end. The tally is right if all this agrees: each transaction that
has begun either has ended, and then was reported once, or is still live. An operation keeps the
tally right, with its own transaction among the live ones until it has ended. A commit that is under
way is the only time at which a transaction neither is active nor has ended, and nobody can end it
then, so the end that the commit reports is the first.

Main statement: `Work.tallied_invariant`.
-/

namespace EntityStore

theorem Memory.finished_note (m : Memory) (entry : LogEntry) :
    (m.note entry).finished = m.finished ++ entry.finished?.toList := by
  cases entry <;> simp [finished, note, LogEntry.finished?]

namespace Store

/-- The transactions that have begun, in order. -/
def begunIds (s : Store) : List TransactionId := (List.range s.begun).map fun n => ⟨n + 1⟩

variable {s t u : Store} {least : Nat} {live live' : TransactionId → Prop} {id : TransactionId}

theorem mem_begunIds : id ∈ s.begunIds ↔ 0 < id.number ∧ id.number ≤ s.begun := by
  rw [begunIds, List.mem_map]
  constructor
  · rintro ⟨n, hn, rfl⟩
    exact ⟨Nat.succ_pos n, List.mem_range.1 hn⟩
  · rintro ⟨hpos, hle⟩
    refine ⟨id.number - 1, List.mem_range.2 (by omega), ?_⟩
    rw [Nat.sub_add_cancel hpos]

theorem nodup_begunIds (s : Store) : s.begunIds.Nodup := by
  refine List.Nodup.map (fun a b hab => ?_) List.nodup_range
  simpa using hab

/-! ## The tally of a store -/

/-- The tally of a store is right, given which transactions are live: at least a number of them have
begun, and each is live or was reported to have ended. -/
structure Tallied (least : Nat) (live : TransactionId → Prop) (s : Store) : Prop where
  least : least ≤ s.begun
  started : s.statistics.transactionsStarted = s.begun
  ended : s.statistics.transactionsCommitted + s.statistics.transactionsRolledBack =
    s.backend.memory.finished.length
  told : (s.backend.memory.finished ++ s.backend.memory.active).Perm s.begunIds
  live : ∀ id, id ∈ s.backend.memory.active ↔ live id

/-- Two stores that have the same tally. -/
structure SameTally (s s' : Store) : Prop where
  begun : s'.begun = s.begun
  started : s'.statistics.transactionsStarted = s.statistics.transactionsStarted
  committed : s'.statistics.transactionsCommitted = s.statistics.transactionsCommitted
  rolledBack : s'.statistics.transactionsRolledBack = s.statistics.transactionsRolledBack
  active : s'.backend.memory.active = s.backend.memory.active
  finished : s'.backend.memory.finished = s.backend.memory.finished

namespace SameTally

theorem refl (s : Store) : s.SameTally s := ⟨rfl, rfl, rfl, rfl, rfl, rfl⟩

theorem trans (h : s.SameTally t) (h' : t.SameTally u) : s.SameTally u where
  begun := h'.begun.trans h.begun
  started := h'.started.trans h.started
  committed := h'.committed.trans h.committed
  rolledBack := h'.rolledBack.trans h.rolledBack
  active := h'.active.trans h.active
  finished := h'.finished.trans h.finished

theorem count (s : Store) {counter : Statistics → Statistics}
    (h : ∀ c, (counter c).transactionsStarted = c.transactionsStarted ∧
      (counter c).transactionsCommitted = c.transactionsCommitted ∧
      (counter c).transactionsRolledBack = c.transactionsRolledBack) :
    s.SameTally (s.count counter) :=
  ⟨rfl, (h _).1, (h _).2.1, (h _).2.2, rfl, rfl⟩

theorem note (s : Store) (entry : Note) : s.SameTally (s.note entry) :=
  ⟨rfl, rfl, rfl, rfl, rfl, rfl⟩

theorem noteModification (s : Store) : s.SameTally (s.onBackend Backend.noteModification) :=
  ⟨rfl, rfl, rfl, rfl, rfl, rfl⟩

theorem publish (s : Store) (change : ChangeSet) : s.SameTally (s.publish change) :=
  ⟨rfl, rfl, rfl, rfl, rfl, rfl⟩

/-- Whatever becomes of a batch, no transaction begins or ends with it. -/
theorem update {batch : Batch} {result : Result Unit} {b : Backend}
    (h : s.backend.update batch = (result, b)) : s.SameTally (s.onBackend fun _ => b) := by
  cases result with
  | error err =>
    have hmemory := Backend.update_error h
    refine ⟨rfl, rfl, rfl, rfl, ?_, ?_⟩
    · exact (congrArg Memory.active hmemory).trans rfl
    · refine (congrArg Memory.finished hmemory).trans ?_
      rw [Memory.finished_note]
      exact List.append_nil _
  | ok _ =>
    have hmemory := Backend.update_ok h
    refine ⟨rfl, rfl, rfl, rfl, ?_, ?_⟩
    · exact (congrArg Memory.active hmemory).trans rfl
    · refine (congrArg Memory.finished hmemory).trans ?_
      rw [Memory.apply, Memory.finished_note]
      exact List.append_nil _

end SameTally

namespace Tallied

theorem same (h : s.Tallied least live) (hsame : s.SameTally t) : t.Tallied least live where
  least := hsame.begun ▸ h.least
  started := by rw [hsame.started, hsame.begun, h.started]
  ended := by rw [hsame.committed, hsame.rolledBack, hsame.finished, h.ended]
  told := by
    rw [hsame.active, hsame.finished, begunIds, hsame.begun]
    exact h.told
  live id := by rw [hsame.active, h.live]

theorem congr (h : s.Tallied least live) (hlive : ∀ id, live id ↔ live' id) :
    s.Tallied least live' :=
  { h with live := fun id => (h.live id).trans (hlive id) }

theorem mono (h : s.Tallied least live) {fewer : Nat} (hle : fewer ≤ least) :
    s.Tallied fewer live :=
  { h with least := Nat.le_trans hle h.least }

theorem nodup (h : s.Tallied least live) :
    s.backend.memory.finished.Nodup ∧ s.backend.memory.active.Nodup ∧
      ∀ id, id ∈ s.backend.memory.finished ↔
        (0 < id.number ∧ id.number ≤ s.begun) ∧ ¬ live id := by
  obtain ⟨hfinished, hactive, hdisjoint⟩ :=
    List.nodup_append.1 (h.told.nodup_iff.2 s.nodup_begunIds)
  refine ⟨hfinished, hactive, fun id => ?_⟩
  rw [← mem_begunIds, ← h.told.mem_iff, List.mem_append, ← h.live]
  exact ⟨fun hid => ⟨.inl hid, fun hlive => hdisjoint id hid id hlive rfl⟩,
    fun ⟨hid, hnot⟩ => hid.resolve_right hnot⟩

theorem begun (h : s.Tallied least live) (hid : live id) : id.number ≤ s.begun :=
  (mem_begunIds.1 (h.told.subset (List.mem_append_right _ ((h.live id).2 hid)))).2

theorem finished_begin (s : Store) (name : String) :
    (s.begin name).store.backend.memory.finished = s.backend.memory.finished := by
  refine (Memory.finished_note _ _).trans ?_
  exact List.append_nil _

/-- One more transaction begins and is live. -/
theorem begins (h : s.Tallied least live) (name : String) :
    (s.begin name).store.Tallied least fun id => live id ∨ id = (s.begin name).txn.id where
  least := Nat.le_succ_of_le h.least
  started := congrArg (· + 1) h.started
  ended := by
    rw [finished_begin]
    exact h.ended
  told := by
    rw [finished_begin]
    have hbegun : (s.begin name).store.begunIds = s.begunIds ++ [⟨s.begun + 1⟩] := by
      show (List.range (s.begun + 1)).map _ = _
      rw [List.range_succ, List.map_append]
      rfl
    rw [hbegun]
    show (s.backend.memory.finished ++ (s.backend.memory.active ++ [_])).Perm _
    rw [← List.append_assoc]
    exact h.told.append_right _
  live id := by
    show id ∈ s.backend.memory.active ++ [(s.begin name).txn.id] ↔ _
    rw [List.mem_append, List.mem_singleton, h.live]

/-- A live transaction ends, and that is counted. -/
theorem ends (h : s.Tallied least live) (hid : live id) (counter : Statistics → Statistics)
    (hstarted : ∀ c, (counter c).transactionsStarted = c.transactionsStarted)
    (hended : ∀ c, (counter c).transactionsCommitted + (counter c).transactionsRolledBack =
      c.transactionsCommitted + c.transactionsRolledBack + 1) :
    ((s.onBackend (·.noteFinished id)).count counter).Tallied least
      fun other => live other ∧ other ≠ id := by
  have hfinished : ((s.onBackend (·.noteFinished id)).count counter).backend.memory.finished =
      s.backend.memory.finished ++ [id] :=
    Memory.finished_note _ _
  have hactive : ((s.onBackend (·.noteFinished id)).count counter).backend.memory.active =
      s.backend.memory.active.filter (· ≠ id) := rfl
  have hrest : s.backend.memory.active.filter (· ≠ id) = s.backend.memory.active.erase id := by
    rw [h.nodup.2.1.erase_eq_filter]
    exact List.filter_congr fun other _ => by rw [bne, beq_eq_decide, decide_not]
  refine ⟨h.least, (hstarted _).trans h.started, ?_, ?_, fun other => ?_⟩
  · rw [hfinished, List.length_append, ← h.ended]
    exact hended _
  · rw [hfinished, hactive, hrest, List.append_assoc]
    refine List.Perm.trans (.append_left _ ?_) h.told
    exact (List.perm_cons_erase ((h.live id).2 hid)).symm
  · rw [hactive, List.mem_filter, h.live]
    simp

end Tallied

theorem tallied_new (config : Config) {backend : Backend} (hlog : backend.memory.log = [])
    (hactive : backend.memory.active = []) :
    (Store.new config backend).Tallied 0 fun _ => False := by
  have hfinished : backend.memory.finished = [] := by rw [Memory.finished, hlog]; rfl
  refine ⟨Nat.le_refl 0, rfl, ?_, ?_, fun id => ?_⟩
  · show 0 = backend.memory.finished.length
    rw [hfinished]
    rfl
  · show (backend.memory.finished ++ backend.memory.active).Perm []
    rw [hfinished, hactive]
    exact .refl _
  · show id ∈ backend.memory.active ↔ False
    rw [hactive]
    simp

end Store

/-! ## Callbacks -/

/-- A callback leaves the tally right, and live what was live. -/
def Callback.Balanced (c : Callback) : Prop :=
  ∀ least live s, s.Tallied least live → (c.run s).Tallied least live

theorem Callback.runAll_balanced {callbacks : List Callback} (h : ∀ c ∈ callbacks, c.Balanced)
    {least : Nat} {live : TransactionId → Prop} {s : Store} (hs : s.Tallied least live) :
    (Callback.runAll callbacks s).Tallied least live := by
  induction callbacks generalizing s with
  | nil => exact hs
  | cons c rest ih =>
    exact ih (fun c hc => h c (List.mem_cons_of_mem _ hc)) (h c List.mem_cons_self _ _ s hs)

/-! ## The tally of a unit of work -/

namespace Work

/-- The tally is right, with the transaction among the live ones until it has ended. The place tells
whether a commit of it is under way. -/
structure Tallied (least : Nat) (others : TransactionId → Prop) (mine : TransactionId)
    (committing : Bool) (w : Work) : Prop where
  id : w.txn.id = mine
  apart : ¬ others mine
  state : w.txn.state = .committing ↔ committing = true
  store : w.store.Tallied least fun id => others id ∨ id = mine ∧ w.txn.state.isFinished = false
  callbacks : ∀ c ∈ w.txn.callbacks, c.Balanced

variable {least : Nat} {others : TransactionId → Prop} {mine : TransactionId}
  {committing after : Bool} {w w' : Work}

namespace Tallied

theorem outside (hw : w.Tallied least others mine committing) (hactive : w.txn.state = .active) :
    committing = false := by
  rw [← Bool.not_eq_true, ← hw.state, hactive]
  simp

theorem next (hw : w.Tallied least others mine committing) (hid : w'.txn.id = w.txn.id)
    (hstate : w'.txn.state = .committing ↔ after = true)
    (hopen : w'.txn.state.isFinished = w.txn.state.isFinished)
    (hcallbacks : ∀ c ∈ w'.txn.callbacks, c.Balanced) (hstore : w.store.SameTally w'.store) :
    w'.Tallied least others mine after where
  id := hid.trans hw.id
  apart := hw.apart
  state := hstate
  store := by
    rw [hopen]
    exact hw.store.same hstore
  callbacks := hcallbacks

theorem adjusts (hw : w.Tallied least others mine committing) (h : w.Adjusts w')
    (hstore : w.store.SameTally w'.store) : w'.Tallied least others mine committing :=
  hw.next h.id (by rw [h.state]; exact hw.state) (by rw [h.state])
    (by rw [h.callbacks]; exact hw.callbacks) hstore

theorem called (hw : w.Tallied least others mine committing) :
    w.runCallbacks.Tallied least others mine committing where
  id := hw.id
  apart := hw.apart
  state := hw.state
  store := Callback.runAll_balanced hw.callbacks hw.store
  callbacks _ hc := absurd hc List.not_mem_nil

theorem settled (hw : w.Tallied least others mine committing) {b : Backend}
    (h : w.store.backend.update w.txn.batch = (.ok (), b)) :
    (w.withBackend b).settle.Tallied least others mine committing := by
  let published := (w.withBackend b).onStore (·.publish w.txn.changeSet)
  have hpublished : published.Tallied least others mine committing :=
    hw.next rfl hw.state rfl hw.callbacks ((Store.SameTally.update h).trans (.publish _ _))
  have hcalled := hpublished.called
  have hcount : published.runCallbacks.store.SameTally (w.withBackend b).settle.store :=
    ⟨rfl, rfl, rfl, rfl, rfl, rfl⟩
  exact hcalled.next rfl hcalled.state rfl hcalled.callbacks hcount

/-- The transaction ends. -/
theorem ended (hw : w.Tallied least others mine committing)
    (hopen : w.txn.state.isFinished = false) {state : Transaction.State}
    (hstate : state.isFinished = true) {counter : Statistics → Statistics}
    (hstarted : ∀ c, (counter c).transactionsStarted = c.transactionsStarted)
    (hended : ∀ c, (counter c).transactionsCommitted + (counter c).transactionsRolledBack =
      c.transactionsCommitted + c.transactionsRolledBack + 1) :
    ((w.finish state).count counter).Tallied least others mine false where
  id := hw.id
  apart := hw.apart
  state := by
    show state = .committing ↔ false = true
    constructor
    · rintro rfl
      cases hstate
    · simp
  store := by
    have hends := hw.store.ends (.inr ⟨rfl, hopen⟩) counter hstarted hended
    rw [← hw.id] at hends ⊢
    refine hends.congr fun id => ?_
    show _ ↔ others id ∨ id = w.txn.id ∧ state.isFinished = false
    rw [hstate]
    constructor
    · rintro ⟨hother | ⟨rfl, -⟩, hne⟩
      · exact .inl hother
      · exact absurd rfl hne
    · rintro (hother | ⟨-, hfalse⟩)
      · exact ⟨.inl hother, fun heq => hw.apart (hw.id ▸ heq ▸ hother)⟩
      · cases hfalse
  callbacks := hw.callbacks

/-- A transaction that is let go of has ended, if only now. -/
theorem drop (hw : w.Tallied least others mine committing) : w.drop.Tallied least others := by
  rw [Work.drop]
  cases hopen : w.txn.state.isFinished with
  | true =>
    refine hw.store.congr fun id => ?_
    rw [hopen]
    simp
  | false =>
    have hends := hw.store.ends (.inr ⟨rfl, hopen⟩) Statistics.countRollback (fun _ => rfl)
      fun _ => rfl
    rw [← hw.id] at hends
    refine hends.congr fun id => ?_
    constructor
    · rintro ⟨hother | ⟨heq, -⟩, hne⟩
      · exact hother
      · exact absurd heq hne
    · exact fun hother => ⟨.inl hother, fun heq => hw.apart (hw.id ▸ heq ▸ hother)⟩

end Tallied

/-- Every part of an operation keeps the tally right. -/
theorem tallied_invariant (least : Nat) (others : TransactionId → Prop) (mine : TransactionId) :
    Invariant (fun _ op => ∀ c, op = .afterCommit c → c.Balanced) (fun _ => True)
      fun committing w => w.Tallied least others mine committing where
  snapshot hw _ _ := hw.adjusts (.recordSnapshot _ _) (.refl _)
  field hw _ _ := hw.adjusts (.takeDown _ _ _ _)
    ((Store.SameTally.noteModification _).trans (.count _ fun _ => ⟨rfl, rfl, rfl⟩))
  deletion hw _ _ := hw.adjusts (.recordDeletion _ _) (.noteModification _)
  setting hw _ hsets := by
    cases hsets <;> exact hw.next rfl hw.state rfl hw.callbacks (.refl _)
  query hw := hw.adjusts (.count _ _) (.count _ fun _ => ⟨rfl, rfl, rfl⟩)
  remark hw := hw.next rfl hw.state rfl hw.callbacks (.note _ _)
  afterCommit {_ w c} hw hmay := by
    rw [Work.afterCommit]
    split
    · exact ⟨hw.id, hw.apart, hw.state, hmay c rfl _ _ _ hw.store, hw.callbacks⟩
    · refine hw.next rfl hw.state rfl (fun c' hc' => ?_) (.refl _)
      rcases List.mem_append.1 hc' with hold | hnew
      · exact hw.callbacks c' hold
      · rw [List.mem_singleton.1 hnew]
        exact hmay c rfl
  idle {i w} hw hactive _ := by
    obtain rfl := hw.outside hactive
    have hopen : w.txn.state.isFinished = false := by rw [hactive]; rfl
    exact hw.called.ended hopen rfl (fun _ => rfl) fun _ => Nat.add_right_comm _ _ _
  committing {i w} hw hactive := by
    obtain rfl := hw.outside hactive
    have hbegun : (w.inState .committing).Tallied least others mine true :=
      hw.next rfl (by simp [inState, onTxn]) (by rw [hactive]; rfl) hw.callbacks (.refl _)
    -- inside, the state tells that a commit is under way, so that nobody has ended the transaction
    have hback {u : Work} (hu : u.Tallied least others mine true) :
        ((u.inState .active).count Statistics.countCommitFailure).Tallied least others mine
          false := by
      refine hu.next rfl (by simp [inState, onTxn, count, onStore]) ?_ hu.callbacks
        (.count _ fun _ => ⟨rfl, rfl, rfl⟩)
      rw [hu.state.2 rfl]
      rfl
    refine ⟨true, trivial, hbegun, fun hu => hback hu, fun {u err b} hu hupdate => ?_,
      fun {u b} hu hupdate => ?_⟩
    · have hrejected : (u.withBackend b).Tallied least others mine true :=
        hu.next rfl hu.state rfl hu.callbacks (.update hupdate)
      exact hback hrejected
    · have hopen : u.txn.state.isFinished = false := by rw [hu.state.2 rfl]; rfl
      exact (hu.settled hupdate).ended hopen rfl (fun _ => rfl) fun _ => Nat.add_right_comm _ _ _
  rollingBack {i w} hw hactive := by
    obtain rfl := hw.outside hactive
    have hcleared : (w.onTxn fun t => { t.clearPending with callbacks := [] }).Tallied least others
        mine false :=
      hw.next rfl hw.state rfl (fun c hc => absurd hc List.not_mem_nil) (.refl _)
    have hopen : w.txn.state.isFinished = false := by rw [hactive]; rfl
    exact hcleared.ended hopen rfl (fun _ => rfl) fun _ => rfl
  atOnce {i w} hw _ := by
    refine ⟨i, trivial, hw, fun hu => hu, fun {u err b} hu hupdate => ?_, fun hu hupdate => ?_⟩
    · exact hu.next rfl hu.state rfl hu.callbacks (.update hupdate)
    · exact hu.settled hupdate
  pass {i w} _ hw := by
    refine ⟨i, trivial, hw.adjusts (.beginPass w) (.refl _), fun u hu => ?_⟩
    exact hu.adjusts (.endPass u) (.count _ fun _ => ⟨rfl, rfl, rfl⟩)
  restart _ hw := hw.adjusts (.count _ _) (.count _ fun _ => ⟨rfl, rfl, rfl⟩)
  check {i w id} _ hw _ := by
    refine ⟨i, hw.adjusts (.checkOut w id) (.refl _), fun body u hu => ?_⟩
    have hstore : (u.checkIn (w.txn.modified.contains id) ⟨id, body⟩).store = u.store := rfl
    exact hu.adjusts (.checkIn u _ _) (by rw [hstore]; exact .refl _)

end Work

end EntityStore
