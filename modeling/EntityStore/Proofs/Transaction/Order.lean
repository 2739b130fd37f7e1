import EntityStore.Proofs.Transaction.Adjustments

/-!
# The order of events

What a backend logs about a transaction should come before the end of that transaction. Only one
thing can upset this order: a check that ends a transaction which writes at once. The write goes on
all the same, and hands over a batch of a transaction that has ended. Main statement: once that has
happened the log is out of order (`Store.not_orderly_of_overran`).
-/

namespace EntityStore

/-! ## Logs -/

/-- Nothing about a transaction follows its end. -/
def Orderly (log : List LogEntry) : Prop := log.Pairwise fun a b => a ≠ .finished b.transaction

instance (log : List LogEntry) : Decidable (Orderly log) :=
  inferInstanceAs (Decidable (log.Pairwise fun a b => a ≠ .finished b.transaction))

theorem Orderly.of_prefix {log log' : List LogEntry} (h : Orderly log') (hle : log <+: log') :
    Orderly log :=
  h.sublist hle.sublist

theorem orderly_append_singleton {log : List LogEntry} {entry : LogEntry} :
    Orderly (log ++ [entry]) ↔ Orderly log ∧ .finished entry.transaction ∉ log := by
  rw [Orderly, List.pairwise_append]
  constructor
  · rintro ⟨h, -, hopen⟩
    exact ⟨h, fun hmem => hopen _ hmem entry List.mem_cons_self rfl⟩
  · rintro ⟨h, hopen⟩
    refine ⟨h, List.pairwise_singleton _ _, fun a ha b hb hend => ?_⟩
    rw [List.mem_singleton.1 hb] at hend
    rw [← hend] at hopen
    exact hopen ha

/-- The events in which a batch is handed over. -/
def LogEntry.Offers (b : Batch) (entry : LogEntry) : Prop :=
  entry = .applied b ∨ entry = .rejected b

theorem LogEntry.Offers.transaction {b : Batch} {entry : LogEntry} (h : entry.Offers b) :
    entry.transaction = b.transaction := by
  rcases h with rfl | rfl <;> rfl

/-- Publishes change sets in order. -/
def Feed.emitAll (f : Feed) (changes : List ChangeSet) : Feed :=
  changes.foldl (fun f c => (f.emit c).2) f

theorem Feed.emitAll_append (f : Feed) (cs ds : List ChangeSet) :
    f.emitAll (cs ++ ds) = (f.emitAll cs).emitAll ds :=
  List.foldl_append ..

/-! ## Writes that overrun an end -/

/-- The repair before a write at once has succeeded and yet ended the transaction, as the backend
has been told. The write goes on. -/
structure Work.Overruns (runs : HookRunner → Prop) (w : Work) : Prop where
  ended : w.txn.state.isFinished = true
  told : .finished w.txn.id ∈ w.store.backend.memory.log
  repaired : ∃ run u, runs run ∧ u.writesThrough = true ∧ u.txn.ensureIntegrity = true ∧
    ensureIntegrity run u = (.ok (), w)

namespace Store

/-- Between two stores a write at once has overrun the end of its transaction and handed its batch
over. -/
def Overran (runs : HookRunner → Prop) (s s' : Store) : Prop :=
  ∃ (w : Work) (entry : LogEntry), w.Overruns runs ∧ entry.Offers w.txn.batch ∧
    s.backend.memory.log <+: w.store.backend.memory.log ∧
    w.store.backend.memory.log ++ [entry] <+: s'.backend.memory.log

variable {runs : HookRunner → Prop} {s t u : Store} {mine mine' : TransactionId → Prop}

theorem Overran.extend (h : t.Overran runs u) {s v : Store}
    (hs : s.backend.memory.log <+: t.backend.memory.log)
    (hv : u.backend.memory.log <+: v.backend.memory.log) : s.Overran runs v := by
  obtain ⟨w, entry, hw, hentry, hbefore, hafter⟩ := h
  exact ⟨w, entry, hw, hentry, hs.trans hbefore, hafter.trans hv⟩

/-- A write that overruns upsets the order of events for good. -/
theorem not_orderly_of_overran (h : s.Overran runs t) : ¬ Orderly t.backend.memory.log := by
  obtain ⟨w, entry, hw, hentry, -, hafter⟩ := h
  intro horderly
  have hopen := (orderly_append_singleton.1 (horderly.of_prefix hafter)).2
  rw [hentry.transaction] at hopen
  exact hopen hw.told

/-! ## Stores at work -/

/-- The log of a store tells of no transaction that has not begun. -/
def Known (s : Store) : Prop := ∀ entry ∈ s.backend.memory.log, entry.transaction.number ≤ s.begun

/-- Two stores between which some transactions were at work, besides those that have begun since:
each batch that was applied was published. -/
structure Grows (s : Store) (mine : TransactionId → Prop) (s' : Store) : Prop where
  begun : s.begun ≤ s'.begun
  events : ∃ more changes, s'.backend.memory.log = s.backend.memory.log ++ more ∧
    s'.feed = s.feed.emitAll changes ∧
    changes.map (·.transaction) = (more.filterMap LogEntry.applied?).map (·.transaction) ∧
    ∀ entry ∈ more, entry.transaction.number ≤ s'.begun ∧
      (mine entry.transaction ∨ s.begun < entry.transaction.number)

namespace Grows

theorem ofSame (hlog : t.backend.memory.log = s.backend.memory.log) (hfeed : t.feed = s.feed)
    (hbegun : t.begun = s.begun) : s.Grows mine t :=
  ⟨Nat.le_of_eq hbegun.symm, [], [], by rw [hlog, List.append_nil], hfeed, rfl, by simp⟩

theorem trans (h : s.Grows mine t) (h' : t.Grows mine u) : s.Grows mine u := by
  obtain ⟨hbegun, more, changes, hlog, hfeed, hmatch, hnew⟩ := h
  obtain ⟨hbegun', more', changes', hlog', hfeed', hmatch', hnew'⟩ := h'
  refine ⟨Nat.le_trans hbegun hbegun', more ++ more', changes ++ changes', ?_, ?_, ?_, ?_⟩
  · rw [hlog', hlog, List.append_assoc]
  · rw [hfeed', hfeed, Feed.emitAll_append]
  · rw [List.map_append, hmatch, hmatch', List.filterMap_append, List.map_append]
  · intro entry hentry
    rcases List.mem_append.1 hentry with hentry | hentry
    · exact (hnew entry hentry).imp_left (Nat.le_trans · hbegun')
    · exact (hnew' entry hentry).imp_right (Or.imp_right (Nat.lt_of_le_of_lt hbegun))

theorem mono (h : s.Grows mine t) (hle : ∀ id, mine id → mine' id ∨ s.begun < id.number) :
    s.Grows mine' t := by
  obtain ⟨hbegun, more, changes, hlog, hfeed, hmatch, hnew⟩ := h
  refine ⟨hbegun, more, changes, hlog, hfeed, hmatch, fun entry he => ?_⟩
  obtain ⟨hbound, hmine | hlater⟩ := hnew entry he
  · exact ⟨hbound, hle _ hmine⟩
  · exact ⟨hbound, .inr hlater⟩

theorem log (h : s.Grows mine t) : s.backend.memory.log <+: t.backend.memory.log := by
  obtain ⟨-, more, changes, hlog, -⟩ := h
  exact ⟨more, hlog.symm⟩

theorem known (h : s.Grows mine t) (hs : s.Known) : t.Known := by
  obtain ⟨hbegun, more, changes, hlog, -, -, hnew⟩ := h
  intro entry hentry
  rw [hlog] at hentry
  rcases List.mem_append.1 hentry with hentry | hentry
  · exact Nat.le_trans (hs entry hentry) hbegun
  · exact (hnew entry hentry).1

/-- While others are at work, a transaction that has begun already does not end. -/
theorem finished_iff (h : s.Grows mine t) {id : TransactionId} (hid : id.number ≤ s.begun)
    (hother : ¬ mine id) :
    .finished id ∈ t.backend.memory.log ↔ .finished id ∈ s.backend.memory.log := by
  refine ⟨fun hmem => ?_, fun hmem => h.log.subset hmem⟩
  obtain ⟨-, more, changes, hlog, -, -, hnew⟩ := h
  rw [hlog] at hmem
  rcases List.mem_append.1 hmem with hmem | hmem
  · exact hmem
  · rcases (hnew _ hmem).2 with hmine | hlater
    · exact absurd hmine hother
    · exact absurd hid (Nat.not_le_of_lt hlater)

end Grows

/-- Two stores between which the order of events was kept, unless a write overran an end. -/
structure Passes (runs : HookRunner → Prop) (s : Store) (mine : TransactionId → Prop)
    (s' : Store) : Prop where
  grows : s.Grows mine s'
  order : Orderly s.backend.memory.log → Orderly s'.backend.memory.log ∨ s.Overran runs s'

namespace Passes

theorem ofSame (hlog : t.backend.memory.log = s.backend.memory.log) (hfeed : t.feed = s.feed)
    (hbegun : t.begun = s.begun) : s.Passes runs mine t :=
  ⟨.ofSame hlog hfeed hbegun, fun h => .inl (by rw [hlog]; exact h)⟩

theorem refl (s : Store) : s.Passes runs mine s := ofSame rfl rfl rfl

theorem ofQuiet (h : s.Quiet t) : s.Passes runs mine t := ofSame h.log h.feed h.begun

theorem trans (h : s.Passes runs mine t) (h' : t.Passes runs mine u) : s.Passes runs mine u := by
  refine ⟨h.grows.trans h'.grows, fun hs => ?_⟩
  rcases h.order hs with ht | hover
  · exact (h'.order ht).imp_right fun hover => hover.extend h.grows.log (List.prefix_refl _)
  · exact .inr (hover.extend (List.prefix_refl _) h'.grows.log)

theorem mono (h : s.Passes runs mine t) (hle : ∀ id, mine id → mine' id ∨ s.begun < id.number) :
    s.Passes runs mine' t :=
  ⟨h.grows.mono hle, h.order⟩

/-- One more event about a transaction, which has not ended unless a write overran its end. -/
theorem event (entry : LogEntry) (changes : List ChangeSet)
    (hlog : t.backend.memory.log = s.backend.memory.log ++ [entry])
    (hfeed : t.feed = s.feed.emitAll changes)
    (hmatch : changes.map (·.transaction) = (entry.applied?.toList).map (·.transaction))
    (hbegun : t.begun = s.begun) (hknown : entry.transaction.number ≤ s.begun)
    (hmine : mine entry.transaction)
    (hopen : .finished entry.transaction ∉ s.backend.memory.log ∨ s.Overran runs t) :
    s.Passes runs mine t := by
  refine ⟨⟨Nat.le_of_eq hbegun.symm, [entry], changes, hlog, hfeed, ?_, fun e he => ?_⟩, ?_⟩
  · rw [hmatch]
    cases entry <;> rfl
  · rw [List.mem_singleton.1 he, hbegun]
    exact ⟨hknown, .inl hmine⟩
  · intro hs
    rw [hlog]
    exact hopen.imp_left fun hopen => orderly_append_singleton.2 ⟨hs, hopen⟩

end Passes

end Store

/-! ## Callbacks -/

/-- A callback that works on the store through transactions of its own. -/
def Callback.Tame (runs : HookRunner → Prop) (c : Callback) : Prop :=
  ∀ s : Store, s.Known → s.Passes runs (fun _ => False) (c.action s)

variable {runs : HookRunner → Prop}

theorem Callback.silent_tame (tag : String) : (Callback.silent tag).Tame runs :=
  fun s _ => .refl s

theorem Callback.run_tame {c : Callback} (hc : c.Tame runs) {s : Store} (hs : s.Known) :
    s.Passes runs (fun _ => False) (c.run s) := by
  let noted := s.note (.callback c.tag s.backend.size s.statistics.entitiesWritten)
  have hnoted : s.Passes runs (fun _ => False) noted := .ofSame rfl rfl rfl
  exact hnoted.trans (hc noted hs)

theorem Callback.runAll_tame {callbacks : List Callback} (h : ∀ c ∈ callbacks, c.Tame runs)
    {s : Store} (hs : s.Known) : s.Passes runs (fun _ => False) (Callback.runAll callbacks s) := by
  induction callbacks generalizing s with
  | nil => exact .refl s
  | cons c rest ih =>
    have hfirst := Callback.run_tame (h c List.mem_cons_self) hs
    exact hfirst.trans (ih (fun c hc => h c (List.mem_cons_of_mem _ hc)) (hfirst.grows.known hs))

end EntityStore
