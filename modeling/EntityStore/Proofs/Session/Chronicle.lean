import EntityStore.Proofs.Session.Courses
import EntityStore.Proofs.Transaction.Chronicle

/-!
# One change set for every batch

Whatever clients, hooks and callbacks do, and whichever way batches are written, whenever no
operation is under way there is exactly one published change set for every batch that was applied,
and the counters of what was written are the sums over all change sets.

Main statement: `Session.one_change_set_per_batch`.
-/

namespace EntityStore

theorem ledger_recounts {may : Transaction → Operation → Prop}
    (hregisters : ∀ {t c}, may t (.afterCommit c) → c.Keeps Ledger.Balances) :
    Narrates may (fun _ => True) Ledger.Balances
      (fun (_ : Unit) (l : Ledger) t => l.toChronicle.Named t.id t.name) () where
  txn := Transaction.maintained_of_name may fun (l : Ledger) => l.toChronicle.Named
  grows h hle := h.extend hle.1
  registers := hregisters
  stirs h hstirs := ⟨h.recounts.stirs hstirs, by rw [hstirs.written]; exact h.written,
    by rw [hstirs.deleted]; exact h.deleted⟩
  rejected _ h _ hupdate := ⟨h.recounts.rejected hupdate, h.written, h.deleted⟩
  applied _ h hname hupdate := h.applied hname hupdate
  begins {l s} name h := by
    refine ⟨{ l with names := l.names ++ [name] }, ⟨⟨List.prefix_append _ _, List.prefix_rfl⟩, rfl,
      rfl⟩, ⟨h.recounts.begins name, h.written, h.deleted⟩, h.recounts.named_begin name⟩
  listens h hlistens := by
    obtain ⟨⟨hbegun, hemitted, htells, hnamed⟩, hwritten, hdeleted⟩ := h
    exact ⟨⟨hbegun, hemitted.listen hlistens, htells, hnamed⟩, hwritten, hdeleted⟩

namespace Session

/-- A chronicle of a session between operations: the store's own, with the numbers that the feed
gave, the counters, and the names of the transactions that are held. The change sets are those of
the feed as long as none has had to make room there. From then on the feed has the last of them
only, and it is by the course of the session, which only adds to a chronicle, that the others are
known. -/
structure Chronicled (g : Chronicle) (s : Session) : Prop where
  recounts : g.Recounts s.store
  numbers : g.changes.map (·.sequence.number) = List.range' 1 g.changes.length
  latest : s.store.feed.latest.number = s.store.backend.memory.batchesApplied
  written : s.store.statistics.entitiesWritten = (g.changes.map fun c => c.updates.size).sum
  deleted : s.store.statistics.entitiesDeleted = (g.changes.map fun c => c.deleted.size).sum
  held : ∀ key t, s.transactions.find? key = some t → g.Named t.id t.name

variable {hooks : Hooks} {level : Nat} {may : Session → Move → Prop} {config : Config}
  {backend : Backend} {g : Chronicle} {s s' : Session}

theorem Told.chronicled {l : Ledger}
    (h : s.Told Ledger.Balances (fun l t => l.toChronicle.Named t.id t.name) l)
    (hwritten : l.owedWritten = 0) (hdeleted : l.owedDeleted = 0) : s.Chronicled l.toChronicle := by
  obtain ⟨hrecounts, hcounted, htaken⟩ := h.store
  rw [hwritten] at hcounted
  rw [hdeleted] at htaken
  have hpublished := hrecounts.emitted.published (Feed.published_new _)
  refine ⟨hrecounts, hpublished.numbers, ?_, hcounted, htaken, fun key t ht => (h.held ht).1⟩
  rw [hpublished.latest, Memory.batchesApplied, ← hrecounts.tells.length_eq]

theorem Chronicled.told (h : s.Chronicled g)
    (hcallbacks : ∀ {key t}, s.transactions.find? key = some t →
      ∀ c ∈ t.callbacks, c.Keeps Ledger.Balances) :
    s.Told Ledger.Balances (fun l t => l.toChronicle.Named t.id t.name) ⟨g, 0, 0⟩ where
  store := ⟨h.recounts, h.written, h.deleted⟩
  held ht := ⟨h.held _ _ ht, hcallbacks ht⟩

/-- Nothing has begun in a new store, and nothing is told of it. -/
theorem chronicled_new (hlog : backend.memory.log = []) :
    (start (Store.new config backend)).Chronicled ⟨[], []⟩ := by
  have happlied : backend.memory.applied = [] := by
    rw [Memory.applied, hlog]
    rfl
  refine ⟨⟨rfl, .refl, ?_, fun c hc => absurd hc List.not_mem_nil⟩, rfl, ?_, rfl, rfl, ?_⟩
  · show List.Forall₂ _ [] backend.memory.applied
    rw [happlied]
    exact .nil
  · show 0 = backend.memory.applied.length
    rw [happlied]
    rfl
  · intro key t ht
    cases ht

/-- Whenever no operation is under way there is one published change set for every batch that was
applied, which tells of it under the number and name of its transaction, and the counters are the
sums over all change sets. Every chronicle of this kind is only added to as the session goes on, and
has the name of a transaction from when it begins. -/
theorem one_change_set_per_batch (hhooks : hooks.Ask (Operation.Registers Callback.Transacts))
    (hmay : ∀ u m, may u m → m.Asks (Operation.Registers Callback.Transacts))
    (hlog : backend.memory.log = [])
    (hcourse : (start (Store.new config backend)).Course (hooks.runner level) may s) :
    (∃ g, s.Chronicled g) ∧
    (∀ g, s.Chronicled g → ∀ u, s.Course (hooks.runner level) may u →
      ∃ g', g.Extends g' ∧ u.Chronicled g') ∧
    ∀ g, s.Chronicled g → ∀ m name, may s m → m.begins? = some name →
      ∃ g', g.Extends g' ∧ (s.move (hooks.runner level) m).Chronicled g' ∧
        g'.names[s.store.begun]? = some name := by
  have hkeeps {c : Callback} (hc : c.Transacts) : c.Keeps Ledger.Balances :=
    (ledger_recounts fun hop => hop _ rfl).transacts hc
  have hnarrates : Narrates (fun _ op => op.Registers Callback.Transacts) _ _ _ _ :=
    ledger_recounts fun hop => hkeeps (hop _ rfl)
  have hheed := hhooks.heed (fun _ _ hop => hop)
    fun t => ∃ (_ : Unit) (l : Ledger), l.toChronicle.Named t.id t.name
  obtain ⟨l, ⟨-, hwritten, hdeleted⟩, htold⟩ := hnarrates.course hheed
    ((chronicled_new hlog).told nofun) (hcourse.mono fun u m hm => (hmay u m hm).registers)
  have hcallbacks {key : String} {t : Transaction} (ht : s.transactions.find? key = some t) :=
    (htold.held ht).2
  refine ⟨⟨_, htold.chronicled hwritten hdeleted⟩, fun g hg u hu => ?_,
    fun g hg m name hm hname => ?_⟩
  · obtain ⟨l, ⟨hextends, hwritten, hdeleted⟩, htold⟩ :=
      hnarrates.course hheed (hg.told hcallbacks) (hu.mono fun u m hm => (hmay u m hm).registers)
    exact ⟨_, hextends, htold.chronicled hwritten hdeleted⟩
  · obtain ⟨l, ⟨hextends, hwritten, hdeleted⟩, htold, hbegun⟩ :=
      hnarrates.move hheed (hg.told hcallbacks) (hmay s m hm).registers
    obtain ⟨i, hi, hnamed⟩ := hbegun name hname
    have hnumber : i = s.store.begun := Nat.succ.inj (congrArg TransactionId.number hi.symm)
    exact ⟨_, hextends, htold.chronicled hwritten hdeleted, hnumber ▸ hnamed⟩

/-- The entities of a client have no hooks of their own. -/
def hookless : Hooks := fun _ e => .done ⟨e.body, .ok ()⟩

/-- Puts a note of a batch in a transaction of its own, and commits it. -/
def audit : Callback :=
  .acting "audit" hookless 1
    (fun _ => [.begin "b" "audit", .perform "b" (.persist ⟨"entry", .customer "Entry"⟩),
      .perform "b" .commit]) fun _ => []

/-- While the first batch is published and not yet counted, the callback has a second one
written. -/
theorem audit_is_chronicled :
    let run := hookless.runner 1
    let s := (start (Store.new .standard (.plain []))).moves run
      [.begin "a" "order", .perform "a" (.persist ⟨"ada", .customer "Ada"⟩),
        .perform "a" (.afterCommit audit), .perform "a" .commit]
    s.store.backend.memory.batchesApplied = 2 ∧ s.store.statistics.entitiesWritten = 2 ∧
      (∃ g, s.Chronicled g) ∧ ∀ g, s.Chronicled g →
        ∃ g', g.Extends g' ∧ (s.move run (.begin "c" "next")).Chronicled g' ∧
          g'.names[2]? = some "next" := by
  intro run s
  have hhooks (calls : Callback → Prop) : hookless.Ask (Operation.Registers calls) :=
    fun _ _ => trivial
  have hpersist (calls : Callback → Prop) (e : Entity) : (Operation.persist e).Registers calls :=
    nofun
  have haudit : audit.Transacts := by
    refine Callback.transacts_acting _ _ _ (hhooks _) fun _ => ?_
    rw [List.forall_mem_cons, List.forall_mem_cons, List.forall_mem_singleton]
    exact ⟨trivial, hpersist _ _, Operation.registers_commit _⟩
  have hreach : Reach run (fun _ m => m.Asks (Operation.Registers Callback.Transacts))
      (start (Store.new .standard (.plain []))) s := by
    refine reach_moves ⟨trivial, hpersist _ _, ?_, Operation.registers_commit _, trivial⟩
    intro c heq
    cases heq
    exact haudit
  obtain ⟨hchronicled, -, hbegins⟩ := one_change_set_per_batch (hhooks _) (fun _ _ hm => hm) rfl
    hreach.course
  have hbegun : s.store.begun = 2 := by decide +kernel
  refine ⟨by decide +kernel, by decide +kernel, hchronicled, fun g hg => ?_⟩
  rw [← hbegun]
  exact hbegins g hg (.begin "c" "next") "next" trivial rfl

end Session

end EntityStore
