import EntityStore.Proofs.Session.Replica
import EntityStore.Proofs.Transaction.Recounting
import Mathlib.Algebra.GroupWithZero.Nat
import Mathlib.Data.List.Forall2

/-!
# The chronicle of a store

A chronicle has the names of the transactions that have begun, in order, and the change sets that
were published, in order. It recounts a store if there is exactly one change set for every batch
that was applied, and each tells of its batch: it has the number and the name of the transaction, an
update for every entity put, under its type and its id, and the ids taken away. The counters of what
was written fall behind while callbacks run, for a batch is published before and counted after. How
much is owed is kept in a ledger, which may be opened anew for every batch that callbacks write in
the meantime (`Ledger.applied`).
-/

namespace EntityStore

/-! ## What a change set tells of a batch -/

/-- A change set tells of a batch: whose it was, what it put and what it took away. -/
structure ChangeSet.Tells (c : ChangeSet) (b : Batch) : Prop where
  transaction : c.transaction = b.transaction
  deleted : c.deleted = b.deleted
  keys : ∀ id, c.updates.contains id = true ↔ ∃ e ∈ b.modified, e.id = id
  /-- Nothing is put twice. -/
  size : c.updates.size = b.modified.length
  labelled : ∀ e ∈ b.modified, ∃ p, c.updates.find? e.id = some p ∧
    p.typeTag? = some e.tag ∧ p.id? = some e.id

theorem OrderedMap.size_eq_of_keys {α : Type} {m : OrderedMap α} {keys : List String}
    (hkeys : keys.Nodup) (h : ∀ key, m.contains key = true ↔ key ∈ keys) :
    m.size = keys.length := by
  have hperm : m.keys.Perm keys :=
    (List.perm_ext_iff_of_nodup m.nodup_keys hkeys).2 fun key => mem_keys_iff.trans (h key)
  rw [← hperm.length_eq, size, OrderedMap.keys, List.length_map]

namespace Transaction

theorem update_labelled (t : Transaction) (e : Entity) :
    (t.update e).typeTag? = some e.tag ∧ (t.update e).id? = some e.id := by
  have hne : Properties.idKey ≠ Properties.typeKey := by decide
  constructor
  · simp [update, Properties.typeTag?, Properties.text?, Properties.withId, Properties.withType,
      hne]
  · simp [update, Properties.id?, Properties.text?, Properties.withId]

/-- What is published tells of the batch, under whatever number. -/
theorem changeSet_tells (t : Transaction) (number : SequenceNumber) :
    ChangeSet.Tells { t.changeSet with sequence := number } t.batch := by
  have hkeys (id : EntityId) : t.changeSet.updates.contains id = true ↔
      id ∈ t.modified.toList.map (·.id) := by
    rw [OrderedMap.contains, find?_changeSet, Option.isSome_map, Index.mem_map_id_toList_iff,
      Index.contains_eq_isSome]
  refine ⟨rfl, rfl, fun id => (hkeys id).trans List.mem_map, ?_, fun e he => ?_⟩
  · rw [Transaction.batch, ← List.length_map (f := (·.id))]
    refine OrderedMap.size_eq_of_keys ?_ hkeys
    rw [Index.map_id_toList]
    exact Index.nodup_ids _
  · refine ⟨t.update e, ?_, t.update_labelled e⟩
    rw [find?_changeSet, Index.mem_toList_iff.1 he]
    rfl

end Transaction

/-! ## What a feed has emitted -/

/-- One feed comes from another as change sets are emitted, each under the next number, while
clients come, listen and go. -/
inductive Feed.Emits (f : Feed) : List ChangeSet → Feed → Prop
  | refl : Emits f [] f
  | emit {changes : List ChangeSet} {g : Feed} (c : ChangeSet) : Emits f changes g →
      Emits f (changes ++ [{ c with sequence := g.latest.next }]) (g.emit c).2
  | listen {changes : List ChangeSet} {g g' : Feed} : Emits f changes g → g.Listens g' →
      Emits f changes g'

theorem Feed.Emits.published {f g : Feed} {changes : List ChangeSet} (h : f.Emits changes g)
    (hf : f.Published []) : g.Published changes := by
  induction h with
  | refl => exact hf
  | emit c _ ih =>
    have hemitted := ih.emit c
    rw [ih.latest]
    exact hemitted
  | listen _ hlistens ih =>
    obtain ⟨hnumbers, hlatest, hhistory⟩ := ih
    cases hlistens <;> exact ⟨hnumbers, hlatest, hhistory⟩

/-! ## Chronicles -/

structure Chronicle where
  /-- The names of the transactions that have begun, in order. -/
  names : List String
  /-- The change sets that were published, in order. -/
  changes : List ChangeSet

namespace Chronicle

/-- A transaction has begun under a number and a name. -/
def Named (g : Chronicle) (number : TransactionId) (name : String) : Prop :=
  ∃ i, number = ⟨i + 1⟩ ∧ g.names[i]? = some name

/-- Chronicles are added to, and never rewritten. -/
structure Extends (g g' : Chronicle) : Prop where
  names : g.names <+: g'.names
  changes : g.changes <+: g'.changes

theorem Extends.trans {g g' g'' : Chronicle} (h : g.Extends g') (h' : g'.Extends g'') :
    g.Extends g'' :=
  ⟨h.names.trans h'.names, h.changes.trans h'.changes⟩

theorem Named.extend {g g' : Chronicle} {number : TransactionId} {name : String}
    (h : g.Named number name) (hle : g.Extends g') : g'.Named number name := by
  obtain ⟨i, hnumber, hname⟩ := h
  obtain ⟨later, hnames⟩ := hle.names
  have hi : i < g.names.length := (List.getElem?_eq_some_iff.1 hname).1
  exact ⟨i, hnumber, by rwa [← hnames, List.getElem?_append_left hi]⟩

/-- The chronicle recounts a store: what has begun, and one change set for every batch applied. -/
structure Recounts (g : Chronicle) (s : Store) : Prop where
  begun : s.begun = g.names.length
  emitted : (Feed.new s.config.historySize).Emits g.changes s.feed
  tells : List.Forall₂ ChangeSet.Tells g.changes s.backend.memory.applied
  named : ∀ c ∈ g.changes, g.Named c.transaction c.name

variable {g : Chronicle} {s s' : Store}

theorem Recounts.stirs (h : g.Recounts s) (hstirs : s.Stirs s') : g.Recounts s' where
  begun := hstirs.begun.trans h.begun
  emitted := by
    rw [hstirs.config, hstirs.feed]
    exact h.emitted
  tells := by
    rw [Memory.applied_eq_offers, hstirs.offers, ← Memory.applied_eq_offers]
    exact h.tells
  named := h.named

theorem Recounts.rejected (h : g.Recounts s) {batch : Batch} {err : StoreError} {b : Backend}
    (hupdate : s.backend.update batch = (.error err, b)) :
    g.Recounts (s.onBackend fun _ => b) where
  begun := h.begun
  emitted := h.emitted
  tells := by
    rw [Store.onBackend, Backend.update_error hupdate, Memory.applied_note_rejected]
    exact h.tells
  named := h.named

/-- A batch is applied and published. -/
theorem Recounts.applied (h : g.Recounts s) {t : Transaction} (hname : g.Named t.id t.name)
    {b : Backend} (hupdate : s.backend.update t.batch = (.ok (), b)) :
    Recounts ⟨g.names, g.changes ++ [{ t.changeSet with sequence := s.feed.latest.next }]⟩
      ((s.onBackend fun _ => b).publish t.changeSet) where
  begun := h.begun
  emitted := .emit _ h.emitted
  tells := by
    rw [Store.publish, Store.onBackend, Backend.update_ok hupdate, Memory.applied_apply]
    exact List.rel_append h.tells (.cons (t.changeSet_tells _) .nil)
  named c hc := by
    rcases List.mem_append.1 hc with hold | hnew
    · exact (h.named c hold).extend ⟨List.prefix_rfl, List.prefix_append _ _⟩
    · rw [List.mem_singleton.1 hnew]
      exact hname

theorem Recounts.begins (h : g.Recounts s) (name : String) :
    Recounts ⟨g.names ++ [name], g.changes⟩ (s.begin name).store where
  begun := by
    rw [List.length_append, List.length_singleton, ← h.begun]
    rfl
  emitted := h.emitted
  tells := by
    simp only [Store.begin, Store.count, Store.onBackend, Backend.noteStarted, Backend.onMemory,
      Memory.applied_note_started]
    exact h.tells
  named c hc := (h.named c hc).extend ⟨List.prefix_append _ _, List.prefix_rfl⟩

theorem Recounts.named_begin (h : g.Recounts s) (name : String) :
    Named ⟨g.names ++ [name], g.changes⟩ (s.begin name).txn.id name := by
  refine ⟨s.begun, rfl, ?_⟩
  rw [h.begun, List.getElem?_append_right (Nat.le_refl _), Nat.sub_self]
  rfl

end Chronicle

/-! ## Ledgers -/

/-- A chronicle, and how much of what it tells of has not been counted yet. -/
structure Ledger extends Chronicle where
  owedWritten : Nat
  owedDeleted : Nat

namespace Ledger

/-- A ledger goes on if what is owed in it stays as it is. -/
instance : Preorder Ledger where
  le l l' := l.toChronicle.Extends l'.toChronicle ∧ l'.owedWritten = l.owedWritten ∧
    l'.owedDeleted = l.owedDeleted
  le_refl _ := ⟨⟨List.prefix_rfl, List.prefix_rfl⟩, rfl, rfl⟩
  le_trans _ _ _ h h' := ⟨h.1.trans h'.1, h'.2.1.trans h.2.1, h'.2.2.trans h.2.2⟩

/-- What the change sets tell of has been counted, but for what is owed. -/
structure Balances (l : Ledger) (s : Store) : Prop where
  recounts : l.toChronicle.Recounts s
  written : s.statistics.entitiesWritten + l.owedWritten =
    (l.changes.map fun c => c.updates.size).sum
  deleted : s.statistics.entitiesDeleted + l.owedDeleted =
    (l.changes.map fun c => c.deleted.size).sum

variable {l : Ledger} {s : Store}

/-- A batch is published before the callbacks run and counted after. In between its size is owed. -/
theorem Balances.applied (h : l.Balances s) {t : Transaction}
    (hname : l.toChronicle.Named t.id t.name) {b : Backend}
    (hupdate : s.backend.update t.batch = (.ok (), b)) :
    ∃ l₁ : Ledger, l₁.Balances ((s.onBackend fun _ => b).publish t.changeSet) ∧
      ∀ l₂ s₂, l₁ ≤ l₂ → l₂.Balances s₂ → ∃ l₃, l ≤ l₃ ∧
        l₃.Balances (s₂.count (·.countBatch t.batch.modified.length t.batch.deleted.size)) := by
  have hsize : t.changeSet.updates.size = t.batch.modified.length :=
    (t.changeSet_tells ⟨0⟩).size
  refine ⟨⟨⟨l.names, l.changes ++ [{ t.changeSet with sequence := s.feed.latest.next }]⟩,
    l.owedWritten + t.batch.modified.length, l.owedDeleted + t.batch.deleted.size⟩,
    ⟨h.recounts.applied hname hupdate, ?_, ?_⟩, ?_⟩
  · simp only [List.map_append, List.map_singleton, List.sum_append, List.sum_singleton, hsize,
      ← h.written, Store.publish, Store.onBackend]
    omega
  · simp only [List.map_append, List.map_singleton, List.sum_append, List.sum_singleton,
      ← h.deleted, Store.publish, Store.onBackend]
    exact (Nat.add_assoc _ _ _).symm
  · rintro l₂ s₂ ⟨hextends, hwritten, hdeleted⟩ hl₂
    have hgrown : l.toChronicle.Extends l₂.toChronicle :=
      ⟨hextends.names, (List.prefix_append _ _).trans hextends.changes⟩
    obtain ⟨hbegun, hemitted, htells, hnamed⟩ := hl₂.recounts
    refine ⟨⟨l₂.toChronicle, l.owedWritten, l.owedDeleted⟩, ⟨hgrown, rfl, rfl⟩,
      ⟨hbegun, hemitted, htells, hnamed⟩, ?_, ?_⟩
    · have howed : l₂.owedWritten = l.owedWritten + t.batch.modified.length := hwritten
      show s₂.statistics.entitiesWritten + t.batch.modified.length + l.owedWritten = _
      rw [← hl₂.written]
      omega
    · have howed : l₂.owedDeleted = l.owedDeleted + t.batch.deleted.size := hdeleted
      show s₂.statistics.entitiesDeleted + t.batch.deleted.size + l.owedDeleted = _
      rw [← hl₂.deleted]
      omega

end Ledger

end EntityStore
