import EntityStore.Proofs.Session.Chronicle
import EntityStore.Proofs.Session.Finality
import EntityStore.Proofs.Transaction.Tally

/-!
# Every transaction is accounted for

A session keeps the tally of its store right: the transactions that are live are those that it holds
and that have not ended. It does so with every move, and so does a callback that transacts, for it
acts as a session of its own and lets go of all that it has begun.

Main statement: `Session.transactions_are_accounted_for`.
-/

namespace EntityStore

/-! ## Transactions that are held -/

/-- Whether an id is that of a transaction that is held and has not ended. -/
def Open (held : OrderedMap Transaction) (id : TransactionId) : Prop :=
  ∃ key t, held.find? key = some t ∧ t.id = id ∧ t.state.isFinished = false

section

variable {held : OrderedMap Transaction} {key : String} {t : Transaction} {id : TransactionId}

theorem open_insert :
    Open (held.insert key t) id ↔
      Open (held.erase key) id ∨ id = t.id ∧ t.state.isFinished = false := by
  constructor
  · rintro ⟨other, u, hu, rfl, hopen⟩
    rw [OrderedMap.find?_insert] at hu
    split at hu
    · cases hu
      exact .inr ⟨rfl, hopen⟩
    · rename_i hne
      exact .inl ⟨other, u, OrderedMap.find?_erase_eq_some.2 ⟨hne, hu⟩, rfl, hopen⟩
  · rintro (⟨other, u, hu, rfl, hopen⟩ | ⟨rfl, hopen⟩)
    · obtain ⟨hne, hu⟩ := OrderedMap.find?_erase_eq_some.1 hu
      exact ⟨other, u, by rw [OrderedMap.find?_insert, if_neg hne, hu], rfl, hopen⟩
    · exact ⟨key, t, by rw [OrderedMap.find?_insert, if_pos rfl], rfl, hopen⟩

theorem open_iff (h : held.find? key = some t) :
    Open held id ↔ Open (held.erase key) id ∨ id = t.id ∧ t.state.isFinished = false := by
  rw [← open_insert, OrderedMap.insert_self h]

theorem open_erase (h : held.find? key = none) : Open (held.erase key) id ↔ Open held id := by
  refine exists₂_congr fun other u => and_congr_left fun _ => ?_
  rw [OrderedMap.find?_erase_eq_some]
  refine and_iff_right_of_imp fun hu heq => ?_
  rw [heq, hu] at h
  cases h

theorem open_iff_values :
    Open held id ↔ ∃ t ∈ held.values, id = t.id ∧ t.state.isFinished = false := by
  constructor
  · rintro ⟨key, t, ht, rfl, hopen⟩
    exact ⟨t, List.mem_map.2 ⟨(key, t), OrderedMap.mem_entries_iff.2 ht, rfl⟩, rfl, hopen⟩
  · rintro ⟨t, ht, rfl, hopen⟩
    obtain ⟨⟨key, t⟩, hentry, rfl⟩ := List.mem_map.1 ht
    exact ⟨key, t, OrderedMap.mem_entries_iff.1 hentry, rfl, hopen⟩

end

/-- What is known of a transaction between operations: it has begun, it is none of certain others,
and it does not commit. -/
structure Transaction.AtRest (others : TransactionId → Prop) (begun : Nat) (t : Transaction) :
    Prop where
  begun : 0 < t.id.number ∧ t.id.number ≤ begun
  apart : ¬ others t.id
  state : t.state ≠ .committing
  callbacks : ∀ c ∈ t.callbacks, c.Balanced

theorem Transaction.AtRest.mono {others : TransactionId → Prop} {begun begun' : Nat}
    {t : Transaction} (h : t.AtRest others begun) (hle : begun ≤ begun') :
    t.AtRest others begun' :=
  { h with begun := h.begun.imp_right (Nat.le_trans · hle) }

/-! ## The tally of a session -/

namespace Session

/-- The tally of the store is right: besides those that others hold, the live transactions are those
that the session holds and that have not ended. -/
structure Tallied (others : TransactionId → Prop) (least : Nat) (s : Session) : Prop where
  store : s.store.Tallied least fun id => others id ∨ Open s.transactions id
  held : ∀ {key t}, s.transactions.find? key = some t → t.AtRest others s.store.begun
  distinct : ∀ {key other t t'}, s.transactions.find? key = some t →
    s.transactions.find? other = some t' → t'.id = t.id → other = key

variable {others : TransactionId → Prop} {least : Nat} {s : Session} {key name : String}
  {t : Transaction}

namespace Tallied

theorem start {store : Store} (h : store.Tallied least others) :
    (Session.start store).Tallied others least where
  store := h.congr fun id => by
    rw [or_iff_left]
    rintro ⟨key, t, ht, -⟩
    cases ht
  held ht := by cases ht
  distinct ht := by cases ht

/-- The unit of work of a transaction that is held, apart from the others that are open. -/
theorem work (h : s.Tallied others least) (ht : s.transactions.find? key = some t) :
    Work.Tallied s.store.begun (fun id => others id ∨ Open (s.transactions.erase key) id) t.id
      false ⟨s.store, t⟩ where
  id := rfl
  apart := by
    rintro (hother | ⟨other, u, hu, hid, -⟩)
    · exact (h.held ht).apart hother
    · obtain ⟨hne, hu⟩ := OrderedMap.find?_erase_eq_some.1 hu
      exact hne (h.distinct ht hu hid).symm
  state := ⟨fun heq => absurd heq (h.held ht).state, nofun⟩
  store := { h.store with
    least := Nat.le_refl _
    live := fun id => by rw [h.store.live, open_iff ht, or_assoc] }
  callbacks := (h.held ht).callbacks

theorem beginning (h : s.store.Tallied least others) (name : String) :
    Work.Tallied s.store.begun others (s.store.begin name).txn.id false (s.store.begin name) where
  id := rfl
  apart hother := Nat.not_succ_le_self _ (h.begun hother)
  state := by simp [Store.begin, Transaction.new]
  store := { h.begins name with
    least := Nat.le_succ _
    live := fun id => by
      rw [(h.begins name).live]
      exact or_congr_right (and_iff_left rfl).symm }
  callbacks _ hc := absurd hc List.not_mem_nil

theorem without (h : s.Tallied others least) {store : Store}
    (hstore : store.Tallied s.store.begun
      fun id => others id ∨ Open (s.transactions.erase key) id) :
    ({ s with store := store, transactions := s.transactions.erase key } :
      Session).Tallied others least where
  store := hstore.mono h.store.least
  held ht := (h.held (OrderedMap.find?_erase_eq_some.1 ht).2).mono hstore.least
  distinct ht ht' := h.distinct (OrderedMap.find?_erase_eq_some.1 ht).2
    (OrderedMap.find?_erase_eq_some.1 ht').2

/-- Another store with the same transactions, but for one that is put under a key. -/
theorem put (h : s.Tallied others least) {store : Store}
    (hstore : store.Tallied s.store.begun fun id =>
      (others id ∨ Open (s.transactions.erase key) id) ∨ id = t.id ∧ t.state.isFinished = false)
    (ht : t.AtRest others store.begun)
    (hkey : ∀ {other u}, s.transactions.find? other = some u → u.id = t.id → other = key) :
    ({ s with store := store, transactions := s.transactions.insert key t } :
      Session).Tallied others least where
  store := (hstore.mono h.store.least).congr fun id => by rw [open_insert, or_assoc]
  held := by
    intro other u hu
    simp only [OrderedMap.find?_insert] at hu
    split at hu
    · cases hu
      exact ht
    · exact (h.held hu).mono hstore.least
  distinct := by
    intro a b u u' ha hb hid
    simp only [OrderedMap.find?_insert] at ha hb
    split at ha <;> split at hb
    · rename_i heq heq'
      exact heq'.symm.trans heq
    · rename_i heq _
      cases ha
      exact (hkey hb hid).trans heq
    · rename_i _ heq
      cases hb
      exact heq.symm.trans (hkey ha hid.symm).symm
    · exact h.distinct ha hb hid

theorem holds (h : s.Tallied others least) (ht : s.transactions.find? key = some t) {w : Work}
    (hw : w.Tallied s.store.begun (fun id => others id ∨ Open (s.transactions.erase key) id) t.id
      false) :
    ({ s with store := w.store, transactions := s.transactions.insert key w.txn } :
      Session).Tallied others least := by
  have hrest := (h.held ht).mono hw.store.least
  refine h.put ?_ ⟨hw.id ▸ hrest.begun, hw.id ▸ hrest.apart, fun heq => ?_, hw.callbacks⟩
    fun hu hid => h.distinct ht hu (hid.trans hw.id)
  · rw [hw.id]
    exact hw.store
  · cases hw.state.1 heq

theorem not_begun (h : s.Tallied others least) (ht : s.transactions.find? key = some t)
    (name : String) : t.id ≠ (s.store.begin name).txn.id := by
  intro hid
  have hbegun := (h.held ht).begun.2
  rw [hid] at hbegun
  exact Nat.not_succ_le_self _ hbegun

theorem begin (h : s.Tallied others least) (key name : String) :
    (s.begin key name).Tallied others least := by
  have hbegins := h.store.begins name
  have hrest : (s.store.begin name).txn.AtRest others (s.store.begun + 1) :=
    ⟨⟨Nat.succ_pos _, Nat.le_refl _⟩,
      fun hother => Nat.not_succ_le_self _ (h.store.begun (.inl hother)),
      by simp [Store.begin, Transaction.new], fun _ hc => absurd hc List.not_mem_nil⟩
  have hkey {other u} (hu : s.transactions.find? other = some u)
      (hid : u.id = (s.store.begin name).txn.id) : other = key :=
    absurd hid (h.not_begun hu name)
  have hopen : (s.store.begin name).txn.state.isFinished = false := rfl
  rw [Session.begin]
  cases hold : s.transactions.find? key with
  | none =>
    refine h.put ?_ hrest hkey
    exact { hbegins with
      least := Nat.le_succ _
      live := fun id => by rw [hbegins.live, open_erase hold, and_iff_left hopen] }
  | some old =>
    -- the one that was held is let go of when the new one has begun
    have hwork : Work.Tallied s.store.begun
        (fun id => (others id ∨ Open (s.transactions.erase key) id) ∨
          id = (s.store.begin name).txn.id) old.id false ⟨(s.store.begin name).store, old⟩ := by
      refine ⟨rfl, ?_, (h.work hold).state, ?_, (h.held hold).callbacks⟩
      · exact not_or.2 ⟨(h.work hold).apart, h.not_begun hold name⟩
      · exact { hbegins with
          least := Nat.le_succ _
          live := fun id => by rw [hbegins.live, open_iff hold, ← or_assoc, or_right_comm] }
    have hdropped := hwork.drop.congr fun id => or_congr_right (and_iff_left hopen).symm
    have hbegun : (Work.drop ⟨(s.store.begin name).store, old⟩).begun = s.store.begun + 1 := by
      rw [Work.drop]
      split <;> rfl
    exact h.put hdropped (hbegun ▸ hrest) hkey

theorem drop (h : s.Tallied others least) (key : String) : (s.drop key).2.Tallied others least := by
  rw [Session.drop]
  cases ht : s.transactions.find? key with
  | none => exact h
  | some t => exact h.without (h.work ht).drop

theorem listen (h : s.Tallied others least) {s' : Session}
    (htransactions : s'.transactions = s.transactions)
    (hstore : s.store.SameTally s'.store) : s'.Tallied others least := by
  refine ⟨?_, ?_, ?_⟩
  · rw [htransactions]
    exact h.store.same hstore
  · rw [htransactions, hstore.begun]
    exact h.held
  · rw [htransactions]
    exact h.distinct

section Moves

variable {hooks : Hooks} (hhooks : hooks.Ask (Operation.Registers Callback.Balanced))
include hhooks

theorem keeps (least : Nat) (others : TransactionId → Prop) (mine : TransactionId) (level : Nat) :
    Work.Keeps (hooks.runner level)
      fun committing w => w.Tallied least others mine committing :=
  (Work.tallied_invariant least others mine).runner
    (fun _ _ hook e w _ => (hhooks hook e).obeys (fun _ _ hop => hop) w) level

theorem perform (h : s.Tallied others least) (level : Nat) (key : String) {op : Operation}
    (hop : op.Registers Callback.Balanced) :
    (s.perform (hooks.runner level) key op).Tallied others least := by
  rw [Session.perform]
  cases ht : s.transactions.find? key with
  | none => exact h
  | some t =>
    exact h.holds ht
      ((Work.tallied_invariant _ _ _).perform (keeps hhooks _ _ _ level) hop (h.work ht))

theorem within (h : s.Tallied others least) (level : Nat) (name : String)
    {p : Program (Result Unit)} (hp : p.Asks (Operation.Registers Callback.Balanced)) :
    (s.within (hooks.runner level) name p).2.Tallied others least := by
  have hinvariant := Work.tallied_invariant s.store.begun
    (fun id => others id ∨ Open s.transactions id) (s.store.begin name).txn.id
  have hkeeps := keeps hhooks s.store.begun (fun id => others id ∨ Open s.transactions id)
    (s.store.begin name).txn.id level
  have hran := hinvariant.program hkeeps (hp.obeys (fun _ _ hop => hop) _)
    (beginning h.store name)
  have hstore : (s.within (hooks.runner level) name p).2.store.Tallied s.store.begun
      fun id => others id ∨ Open s.transactions id := by
    rw [store_within]
    rcases s.store.within_store (hooks.runner level) name (p.run (hooks.runner level)) with
      heq | heq <;> rw [heq]
    · exact (hinvariant.rollback hran).drop
    · exact (hinvariant.commit hkeeps hran).drop
  exact ⟨hstore.mono h.store.least, fun ht => (h.held ht).mono hstore.least, h.distinct⟩

theorem move (h : s.Tallied others least) (level : Nat) {m : Move}
    (hm : m.Asks (Operation.Registers Callback.Balanced)) :
    (s.move (hooks.runner level) m).Tallied others least := by
  cases m with
  | begin key name => exact h.begin key name
  | drop key => exact h.drop key
  | perform key op => exact h.perform hhooks level key hm
  | within name p => exact h.within hhooks level name hm
  | subscribe _ | unsubscribe _ | drain _ => exact h.listen rfl ⟨rfl, rfl, rfl, rfl, rfl, rfl⟩

theorem moves (h : s.Tallied others least) (level : Nat) {ms : List Move}
    (hms : ∀ m ∈ ms, m.Asks (Operation.Registers Callback.Balanced)) :
    (s.moves (hooks.runner level) ms).Tallied others least := by
  induction ms generalizing s with
  | nil => exact h
  | cons m rest ih =>
    exact ih (h.move hhooks level (hms m List.mem_cons_self))
      fun m hm => hms m (List.mem_cons_of_mem _ hm)

end Moves

/-! ## Letting go -/

theorem nodup_ids (h : s.Tallied others least) : (s.transactions.values.map (·.id)).Nodup := by
  rw [OrderedMap.values, List.map_map]
  refine List.pairwise_map.2 (s.transactions.sorted.imp_of_mem fun {a b} ha hb hlt hid => ?_)
  have heq := h.distinct (OrderedMap.mem_entries_iff.1 ha) (OrderedMap.mem_entries_iff.1 hb)
    hid.symm
  rw [heq] at hlt
  exact String.lt_irrefl _ hlt

/-- When a session lets go of all that it holds, only what others hold is live. -/
theorem close (h : s.Tallied others least) : s.close.Tallied least others := by
  have hheld : ∀ t ∈ s.transactions.values, t.AtRest others s.store.begun := by
    intro t ht
    obtain ⟨⟨key, t⟩, hentry, rfl⟩ := List.mem_map.1 ht
    exact h.held (OrderedMap.mem_entries_iff.1 hentry)
  have hstore := h.store.congr fun id => or_congr_right open_iff_values
  have hdistinct := h.nodup_ids
  rw [Session.close]
  generalize s.transactions.values = ts at hheld hstore hdistinct
  generalize s.store = store at hheld hstore
  -- one after the other, the first of those that are left is let go of
  induction ts generalizing store with
  | nil => exact hstore.congr fun id => by simp
  | cons t rest ih =>
    have hrest := (List.nodup_cons.1 hdistinct)
    have hwork : Work.Tallied least
        (fun id => others id ∨ ∃ u ∈ rest, id = u.id ∧ u.state.isFinished = false) t.id false
        ⟨store, t⟩ := by
      have ht := hheld t List.mem_cons_self
      refine ⟨rfl, ?_, ⟨fun heq => absurd heq ht.state, nofun⟩, ?_, ht.callbacks⟩
      · rintro (hother | ⟨u, hu, hid, -⟩)
        · exact ht.apart hother
        · exact hrest.1 (List.mem_map.2 ⟨u, hu, hid.symm⟩)
      · refine hstore.congr fun id => ?_
        rw [List.exists_mem_cons_iff, or_comm (a := id = t.id ∧ _), or_assoc]
    have hbegun : (Work.drop ⟨store, t⟩).begun = store.begun := by
      rw [Work.drop]
      split <;> rfl
    refine ih hrest.2 _ (fun u hu => ?_) hwork.drop
    rw [hbegun]
    exact hheld u (List.mem_cons_of_mem _ hu)

end Tallied

end Session

theorem Callback.Transacts.balanced {c : Callback} (h : c.Transacts) : c.Balanced := by
  refine h Callback.Balanced fun tag hooks level plan notes hhooks hplan least live s hs => ?_
  rw [Callback.run]
  have hnoted := hs.same (.note s (.callback tag s.backend.size s.statistics.entitiesWritten))
  have hclosed := (Session.Tallied.moves hhooks (.start hnoted) level (hplan (s.note
    (.callback tag s.backend.size s.statistics.entitiesWritten)))).close
  exact List.foldlRecOn _ _ hclosed fun s hs entry _ => hs.same (.note s entry)

/-! ## Runs -/

namespace Session

/-- The transactions that are held and have not ended. -/
def unfinished (s : Session) : List Transaction :=
  s.transactions.values.filter fun t => !t.state.isFinished

/-- All transactions that have begun are accounted for. -/
structure Accounted (s : Session) : Prop where
  begun : s.store.statistics.transactionsStarted = s.store.begun
  counted : s.store.statistics.transactionsStarted =
    s.store.statistics.transactionsCommitted + s.store.statistics.transactionsRolledBack +
      s.unfinished.length
  active : s.store.backend.memory.active.Perm (s.unfinished.map (·.id))
  /-- No transaction is reported to have ended twice. -/
  once : s.store.backend.memory.finished.Nodup
  /-- All but those that are held and have not ended are reported. -/
  reported : ∀ id, id ∈ s.store.backend.memory.finished ↔
    (0 < id.number ∧ id.number ≤ s.store.begun) ∧ id ∉ s.unfinished.map (·.id)
  /-- Of those that are held, the ones that have ended are reported. -/
  held : ∀ {key t}, s.transactions.find? key = some t →
    (t.id ∈ s.store.backend.memory.finished ↔ t.state.isFinished = true)

theorem Tallied.accounted {s : Session} (h : s.Tallied (fun _ => False) 0) : s.Accounted := by
  obtain ⟨hfinished, hactive, hreported⟩ := h.store.nodup
  have hopen (id : TransactionId) : id ∈ s.unfinished.map (·.id) ↔ Open s.transactions id := by
    rw [open_iff_values, unfinished, List.mem_map]
    simp only [List.mem_filter, Bool.not_eq_true', and_assoc, eq_comm (a := id)]
    exact exists_congr fun t => and_congr_right fun _ => and_comm
  have hnodup : (s.unfinished.map (·.id)).Nodup :=
    h.nodup_ids.sublist (List.filter_sublist.map _)
  have hperm : s.store.backend.memory.active.Perm (s.unfinished.map (·.id)) := by
    refine (List.perm_ext_iff_of_nodup hactive hnodup).2 fun id => ?_
    rw [h.store.live, hopen, false_or]
  have htotal := h.store.told.length_eq
  rw [List.length_append, ← h.store.ended, Store.begunIds, List.length_map, List.length_range,
    ← h.store.started, hperm.length_eq, List.length_map] at htotal
  refine ⟨h.store.started, htotal.symm, hperm, hfinished, fun id => ?_, fun {key t} ht => ?_⟩
  · rw [hreported, hopen, false_or]
  · rw [hreported, false_or, open_iff ht, and_iff_right (h.held ht).begun]
    have hother := (h.work ht).apart
    rw [false_or] at hother
    simp [hother]

/-- Whatever clients, hooks and callbacks do with transactions, and whatever the backend makes of
their batches, every transaction that has begun is accounted for between operations. -/
theorem transactions_are_accounted_for {hooks : Hooks} {level : Nat}
    (hhooks : hooks.Ask (Operation.Registers Callback.Transacts)) (config : Config)
    {backend : Backend} (hlog : backend.memory.log = []) (hactive : backend.memory.active = [])
    {s : Session}
    (hreach : Reach (hooks.runner level)
      (fun _ m => m.Asks (Operation.Registers Callback.Transacts))
      (start (Store.new config backend)) s) : s.Accounted := by
  have hless (op : Operation) (hop : op.Registers Callback.Transacts) :
      op.Registers Callback.Balanced := fun c heq => (hop c heq).balanced
  have hbalanced : hooks.Ask (Operation.Registers Callback.Balanced) :=
    fun hook e => (hhooks hook e).mono hless
  have htallied : s.Tallied (fun _ => False) 0 :=
    hreach.invariant (.start (Store.tallied_new config hlog hactive))
      fun u m hu hm => hu.move hbalanced level (Move.Asks.mono hm hless)
  exact htallied.accounted

theorem audit_transacts : audit.Transacts := by
  refine Callback.transacts_acting _ _ _ (fun _ _ => trivial) fun _ => ?_
  rw [List.forall_mem_cons, List.forall_mem_cons, List.forall_mem_singleton]
  exact ⟨trivial, nofun, Operation.registers_commit _⟩

/-- The first batch is rejected. Then a transaction commits, and has another begun and committed by
its callback; one is rolled back by a check while it writes at once; one is dropped under its key
for one that stays open. -/
def traffic : List Move :=
  [.begin "a" "a", .begin "b" "b", .begin "c" "c",
    .perform "a" (.persist ⟨"ada", .customer "Ada"⟩), .perform "a" (.afterCommit audit),
    .perform "a" .commit, .perform "a" .commit, .perform "b" (.setAutoCommit true),
    .perform "b" (.persist ⟨"probe", .probe .empty⟩), .begin "c" "d"]

theorem traffic_is_accounted_for :
    let s := (start (Store.new .standard (.failing 1 []))).moves
      ((Script.hooks .builtIn quitting).runner 2) traffic
    s.Accounted ∧ s.store.statistics.transactionsStarted = 5 ∧
      s.store.statistics.transactionsCommitted = 2 ∧
      s.store.statistics.transactionsRolledBack = 2 ∧ s.store.statistics.commitFailures = 1 ∧
      s.store.backend.memory.active = [⟨5⟩] ∧
      s.store.backend.memory.finished = [⟨4⟩, ⟨1⟩, ⟨2⟩, ⟨3⟩] := by
  intro s
  have hhooks : (Script.hooks .builtIn quitting).Ask (Operation.Registers Callback.Transacts) :=
    fun hook e => (Script.hooks_ask .builtIn quitting hook e).mono fun _ hop => hop.registers _
  have hpersist (e : Entity) : (Operation.persist e).Registers Callback.Transacts := nofun
  have hcommit := Operation.registers_commit Callback.Transacts
  have haudit : (Operation.afterCommit audit).Registers Callback.Transacts := by
    rintro c ⟨⟩
    exact audit_transacts
  have hreach : Reach ((Script.hooks .builtIn quitting).runner 2)
      (fun _ m => m.Asks (Operation.Registers Callback.Transacts))
      (start (Store.new .standard (.failing 1 []))) s :=
    reach_moves ⟨trivial, trivial, trivial, hpersist _, haudit, hcommit, hcommit, nofun,
      hpersist _, trivial, trivial⟩
  refine ⟨transactions_are_accounted_for hhooks _ rfl rfl hreach, ?_⟩
  decide +kernel

end Session

end EntityStore
