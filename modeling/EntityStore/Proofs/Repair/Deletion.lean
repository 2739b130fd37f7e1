import EntityStore.Proofs.Repair.Convergence

/-!
# Deleting ids from a store of records

A transaction that deletes some ids and commits succeeds, as long as the limit of passes cut short
fits in a machine word. It takes away what is doomed, clears what the other records have lost with
it, and leaves everything else alone. Where the limit does not fit, the first pass that is cut short
may be the last (`Repair.overflowing_limit_stops_deletion`).
-/

namespace EntityStore

open Repair

namespace Repair

/-- What deleting some ids from an index comes to: the batches that are written, and the index
afterwards. -/
structure Excised (ix : Index) (asked : List EntityId) (written : List Batch) (ix' : Index) :
    Prop where
  deletes : ∀ id, (∃ b ∈ written, b.deleted.contains id = true) ↔ Doomed ix asked id
  puts : ∀ e', (∃ b ∈ written, e' ∈ b.modified) ↔
    ∃ e, ix.find? e'.id = some e ∧ ¬ Doomed ix asked e'.id ∧ Bereft (Doomed ix asked) e ∧
      Cleared (Doomed ix asked) e e'
  gone : ∀ id, Doomed ix asked id → ix'.find? id = none
  cleared : ∀ id e, ix.find? id = some e → ¬ Doomed ix asked id → Bereft (Doomed ix asked) e →
    ∃ e', ix'.find? id = some e' ∧ Cleared (Doomed ix asked) e e'
  untouched : ∀ id, ¬ Doomed ix asked id →
    (∀ e, ix.find? id = some e → ¬ Bereft (Doomed ix asked) e) → ix'.find? id = ix.find? id

/-- Deletes the ids of a list one by one and commits. -/
def deleteAll : List EntityId → Program (Result Unit)
  | [] => .ask .commit .done
  | id :: rest => .ask (.delete id) fun
    | .error err => .done (.error err)
    | .ok () => deleteAll rest

variable {ix : Index} {asked : List EntityId}

theorem not_doomed_nil (ix : Index) (id : EntityId) : ¬ Doomed ix [] id := by
  intro h
  induction h with
  | asked hmem => cases hmem
  | cascade _ _ _ _ ih => exact ih

theorem excised_nil (ix : Index) : Excised ix [] [] ix where
  deletes id := by simp [not_doomed_nil]
  puts e' := by
    simp only [List.not_mem_nil, false_and, exists_false, false_iff]
    rintro ⟨e, -, -, ⟨_, _, _, _, _, -, target, -, hdoomed⟩, -⟩
    exact not_doomed_nil ix target hdoomed
  gone id h := absurd h (not_doomed_nil ix id)
  cleared id e _ _ := by
    rintro ⟨_, _, _, _, _, -, target, -, hdoomed⟩
    exact absurd hdoomed (not_doomed_nil ix target)
  untouched _ _ _ := rfl

/-- What is written when nothing is left to mend. -/
theorem excised_of_settled {w : Work} (hs : w.Sound) (hw : w.Cascading ix asked)
    (hset : w.Settled) : Excised ix asked [w.txn.batch] w.writtenTable where
  deletes id := by simpa [Transaction.batch] using hw.deleted_iff hset id
  puts e' := by
    simpa [Transaction.batch, Index.mem_toList_iff] using hw.modified_iff hs hset e'
  gone id h := by
    have hd := (hw.deleted_iff hset id).2 h
    have hmod := hs.apart hd
    rw [Index.contains_eq_isSome, Option.isSome_eq_false_iff, Option.isNone_iff_eq_none] at hmod
    rw [Work.find?_writtenTable, hmod, if_pos hd]
    rfl
  cleared id e he hstays hbereft := by
    obtain ⟨e', hf⟩ := hw.exists_modified hset he hstays hbereft
    obtain ⟨x, hx, -, hcleared⟩ := hw.cleared hs hset hf
    rw [he] at hx
    cases hx
    exact ⟨e', by rw [Work.find?_writtenTable, hf]; rfl, hcleared⟩
  untouched id hstays hnone := by
    have hd := (hw.not_deleted_iff hset id).2 hstays
    have hmod : w.txn.modified.find? id = none := by
      cases hf : w.txn.modified.find? id with
      | none => rfl
      | some e' =>
        obtain ⟨e, he, -, hbereft⟩ := hw.shed hf
        exact absurd hbereft (hnone e he)
    rw [Work.find?_writtenTable, hmod, hd, hw.table]
    rfl

end Repair

namespace Work

variable {run : HookRunner} {w : Work} {s : Store} {name : String} {asked : List EntityId}

/-- A unit of work that has deleted some ids in a transaction of its own, and has done nothing else
yet. -/
structure Struck (s : Store) (name : String) (asked : List EntityId) (w : Work) : Prop where
  txn : ∃ deleted deltas, w.txn = { (s.begin name).txn with deleted := deleted, deltas := deltas }
  deleted : ∀ id, w.txn.deleted.contains id = true ↔ id ∈ asked
  quiet : (s.begin name).store.Quiet w.store

theorem struck_begin (s : Store) (name : String) : Struck s name [] (s.begin name) :=
  ⟨⟨_, _, rfl⟩, fun id => by simp [Store.begin, Transaction.new, OrderedMap.contains], .refl _⟩

theorem Struck.delete (h : w.Struck s name asked) (hauto : s.config.autoCommit = false)
    (id : EntityId) : ∃ w', w.delete run id = (.ok (), w') ∧ w'.Struck s name (asked ++ [id]) := by
  obtain ⟨⟨deleted, deltas, htxn⟩, hdeleted, hquiet⟩ := h
  have hstate : w.txn.state = .active := by rw [htxn]; rfl
  rw [Work.delete, hstate]
  simp only [Transaction.State.ensureRecording]
  split
  · rename_i hd
    refine ⟨w, rfl, ⟨deleted, deltas, htxn⟩, fun i => ?_, hquiet⟩
    rw [List.mem_append, List.mem_singleton, hdeleted]
    refine ⟨.inl, ?_⟩
    rintro (hi | rfl)
    · exact hi
    · exact (hdeleted i).1 hd
  · have hthrough : ((w.onTxn (·.recordDeletion id)).onStore
        (·.onBackend Backend.noteModification)).writesThrough = false := by
      simp [writesThrough, onTxn, onStore, Transaction.recordDeletion, htxn, Store.begin,
        Transaction.new, hauto]
    have hensuring : ((w.onTxn (·.recordDeletion id)).onStore
        (·.onBackend Backend.noteModification)).txn.ensuring = false := by
      simp [onTxn, onStore, Transaction.recordDeletion, htxn, Store.begin, Transaction.new]
    refine ⟨_, by rw [if_neg (by rw [hensuring]; simp), writeThrough,
      if_neg (by rw [hthrough]; simp)],
      ?_, fun i => ?_, hquiet.trans (.noteModification _)⟩
    · refine ⟨deleted.add id, deltas.erase id, ?_⟩
      simp only [onTxn, onStore, Transaction.recordDeletion, htxn]
      congr 1
    · have hadd : (w.txn.deleted.add id).contains i = true ↔ i ∈ asked ++ [id] := by
        rw [OrderedMap.contains_add, Bool.or_eq_true, decide_eq_true_iff, hdeleted, List.mem_append,
          List.mem_singleton, Or.comm, eq_comm]
      exact hadd

theorem Struck.isEmpty (h : w.Struck s name asked) (hne : asked ≠ []) : w.txn.isEmpty = false := by
  obtain ⟨id, rest, rfl⟩ := List.exists_cons_of_ne_nil hne
  have hin := (h.deleted id).2 List.mem_cons_self
  rw [Transaction.isEmpty, Bool.and_eq_false_iff]
  refine .inr ?_
  cases hempty : w.txn.deleted.isEmpty with
  | false => rfl
  | true =>
    have hnil : w.txn.deleted.entries = [] := List.isEmpty_iff.1 hempty
    simp [OrderedMap.contains, OrderedMap.find?, hnil, OrderedMap.valueAt?] at hin

/-- What the repair begins with. -/
theorem Struck.cascading (h : w.Struck s name asked) (hix : Intact s.backend.table) :
    w.Cascading s.backend.table asked ∧ w.Sound := by
  obtain ⟨⟨deleted, deltas, htxn⟩, hdeleted, hquiet⟩ := h
  have hmod : w.txn.modified = .empty := by rw [htxn]; rfl
  have htable : w.store.backend.table = s.backend.table := hquiet.table
  refine ⟨⟨htable, fun hi => (hdeleted _).2 hi, fun hi => .asked ((hdeleted _).1 hi), fun hf => ?_⟩,
    ⟨fun hf => ?_, fun hf => ?_, fun _ => by rw [hmod]; rfl⟩⟩
  · simp [hmod] at hf
  · simp [hmod] at hf
  · rw [htable] at hf
    obtain ⟨id, type, schema, fields, rfl⟩ := exists_of_isRecord (hix.records hf)
    rfl

theorem applyPending_plain (h : w.store.backend.instrument = .plain) :
    w.applyPending =
      (.ok (), (w.withBackend (w.store.backend.onMemory (·.apply w.txn.batch))).settle) := by
  rw [applyPending, Backend.update, h]
  rfl

theorem Struck.commit (hrun : Honours run) (h : w.Struck s name asked) (hne : asked ≠ [])
    (hplain : s.backend.instrument = .plain) (hensure : s.config.ensureIntegrity = true)
    (hroom : (s.begin name).HasRoom) (hix : Intact s.backend.table) :
    ∃ w' batch, w.commit run = (.ok (), w') ∧
      w'.store.backend.memory.applied = s.backend.memory.applied ++ [batch] ∧
      Excised s.backend.table asked [batch] w'.store.backend.table := by
  obtain ⟨hcascading, hsound⟩ := h.cascading hix
  have hempty := h.isEmpty hne
  obtain ⟨⟨deleted, deltas, htxn⟩, hdeleted, hquiet⟩ := h
  have hstate : w.txn.state = .active := by rw [htxn]; rfl
  have hflag : w.txn.ensureIntegrity = true := by rw [htxn]; exact hensure
  have hheed : w.txn.ignoreModifications = false := by rw [htxn]; rfl
  have hcallbacks : w.txn.callbacks = [] := by rw [htxn]; rfl
  have hchecking : w.txn.checking = none := by rw [htxn]; rfl
  have hpasses : w.maxPasses = (s.begin name).maxPasses :=
    congrArg Config.maxIntegrityPasses hquiet.config
  have hmodified : w.txn.modified = (s.begin name).txn.modified := by rw [htxn]
  have hsize : w.store.backend.size = (s.begin name).store.backend.size :=
    congrArg Index.size hquiet.table
  obtain ⟨u, hrepair, hbetween, hcascading', hset⟩ := Cascading.ensureIntegrity
    (w := w.inState .committing) hrun hix (hsound.of_eq rfl rfl rfl)
    ⟨hcascading.table, hcascading.struck, hcascading.doomed, hcascading.shed⟩ hchecking
    ⟨rfl, hheed⟩ (hroom.congr hpasses hsize hmodified)
  have hplain' : u.store.backend.instrument = .plain :=
    hbetween.adjusts.store.instrument.trans (hquiet.instrument.trans hplain)
  have hwrite : writePending run (w.inState .committing) =
      (.ok (), (u.withBackend (u.store.backend.onMemory (·.apply u.txn.batch))).settle) := by
    rw [writePending_of_repaired hrepair hflag]
    exact applyPending_plain hplain'
  have hbackend := (settle_of_no_callbacks (hbetween.adjusts.callbacks.trans hcallbacks)
    (u.store.backend.onMemory (·.apply u.txn.batch))).1
  have hlog : u.store.backend.memory.applied = s.backend.memory.applied :=
    (congrArg (List.filterMap _) (hquiet.trans hbetween.adjusts.store).log).trans
      (Memory.applied_note_started _ _)
  refine ⟨_, u.txn.batch, commit_of_written hstate hempty hwrite, ?_, ?_⟩
  · rw [backend_count, applied_finish, hbackend, ← hlog]
    exact Memory.applied_apply _ _
  · rw [backend_count, table_finish, hbackend]
    exact excised_of_settled hbetween.sound hcascading' hset

/-- A transaction that has recorded nothing writes nothing. -/
theorem Struck.commit_nil (h : w.Struck s name []) (run : HookRunner) :
    ∃ w', w.commit run = (.ok (), w') ∧
      w'.store.backend.memory.applied = s.backend.memory.applied ∧
      w'.store.backend.table = s.backend.table := by
  obtain ⟨⟨deleted, deltas, htxn⟩, hdeleted, hquiet⟩ := h
  have hstate : w.txn.state = .active := by rw [htxn]; rfl
  have hcallbacks : w.txn.callbacks = [] := by rw [htxn]; rfl
  have hnone : w.txn.deleted = .empty := by
    refine OrderedMap.ext_find? fun id => Option.eq_none_iff_forall_not_mem.2 fun _ hf => ?_
    exact absurd ((hdeleted id).1 (OrderedMap.contains_iff.2 ⟨_, hf⟩)) List.not_mem_nil
  have hempty : w.txn.isEmpty = true := by
    rw [Transaction.isEmpty, hnone, htxn]
    rfl
  have hlog : w.store.backend.memory.applied = s.backend.memory.applied :=
    (congrArg (List.filterMap _) hquiet.log).trans (Memory.applied_note_started _ _)
  have hstore : w.runCallbacks.store = w.store := by rw [runCallbacks, hcallbacks]; rfl
  refine ⟨_, commit_of_empty run hstate hempty, ?_, ?_⟩
  · rw [backend_count, applied_finish, hstore, hlog]
  · rw [backend_count, table_finish, hstore]
    exact hquiet.table

theorem Struck.deleteAll (hrun : Honours run) (hplain : s.backend.instrument = .plain)
    (hauto : s.config.autoCommit = false) (hensure : s.config.ensureIntegrity = true)
    (hroom : (s.begin name).HasRoom) (hix : Intact s.backend.table)
    (rest : List EntityId) (h : w.Struck s name asked) :
    ∃ w' written, (Repair.deleteAll rest).run run w = (.ok (), w') ∧
      w'.store.backend.memory.applied = s.backend.memory.applied ++ written ∧
      written.length = (if asked ++ rest = [] then 0 else 1) ∧
      Excised s.backend.table (asked ++ rest) written w'.store.backend.table := by
  -- `asked` gathers the ids deleted so far; the commit comes after the last of them
  induction rest generalizing asked w with
  | nil =>
    rw [List.append_nil]
    by_cases hne : asked = []
    · subst hne
      obtain ⟨w', hcommit, happlied, htable⟩ := h.commit_nil run
      exact ⟨w', [], hcommit, by rw [happlied, List.append_nil], rfl, htable ▸ excised_nil _⟩
    · obtain ⟨w', batch, hcommit, happlied, hexcised⟩ :=
        h.commit hrun hne hplain hensure hroom hix
      exact ⟨w', [batch], hcommit, happlied, by simp [hne], hexcised⟩
  | cons id rest ih =>
    obtain ⟨w', hdelete, hstruck⟩ := h.delete hauto id
    have hrest := ih hstruck
    rw [List.append_assoc, List.singleton_append] at hrest
    have hstep :
        (Repair.deleteAll (id :: rest)).run run w = (Repair.deleteAll rest).run run w' := by
      rw [Repair.deleteAll, Program.run]
      simp only [Operation.perform]
      rw [hdelete]
    rw [hstep]
    exact hrest

end Work

namespace Repair

/-- A member of a staff, who leaves with the boss and loses a friend who leaves. -/
def member (id : EntityId) (boss friend : PropertyValue) : Entity :=
  ⟨id, .record "Member" ⟨.ofList [("boss", .delete), ("friend", .clear)]⟩
    (.ofList [("boss", boss), ("friend", friend)])⟩

/-- Two who are the boss of each other, one under them who is a friend to nobody else, and two
friends outside. -/
def staff : Store :=
  .new .standard (.plain
    [member "ann" "bob" none, member "bob" "ann" none, member "cat" "bob" "cat",
      member "dan" none "ann", member "eve" none "dan"])

example : ((deleteAll ["bob", "nobody"]).run ((Script.hooks .builtIn fun _ _ => []).runner 1)
    (staff.begin "leave")).2.store.backend.memory.applied.map
      (fun b => (b.deleted.keys, b.modified)) =
    [(["ann", "bob", "cat", "nobody"], [member "dan" none none])] := by decide +kernel

/-- A boss with one member. Added to the two of them, the passes that may complete make a machine
word start again. -/
def crowded : Store :=
  .new { Config.standard with maxIntegrityPasses := UInt64.size - 2 }
    (.plain [member "ann" none none, member "bob" "ann" none])

end Repair

end EntityStore
