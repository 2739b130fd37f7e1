import EntityStore.Proofs.Repair.Pass
import EntityStore.Proofs.Session.Moves

/-!
# Writes that introduce no dangling reference

A repair that succeeds leaves a working set in order, and writing one that is in order brings no
dangling reference (`Work.dangles_of_writtenTable`). Hence operations on entities that look after
themselves bring none, as long as the transaction repairs references before it writes
(`Work.proceeds_perform`).
-/

namespace EntityStore

open Repair

/-- An entity of an index refers to an id under which the index has none. -/
def Index.Dangles (ix : Index) (id ref : EntityId) : Prop :=
  ∃ e, ix.find? id = some e ∧ ref ∈ e.references ∧ ix.contains ref = false

theorem Index.not_dangles_of_all {ix : Index} {id ref : EntityId}
    (h : ix.toList.all (fun e => e.references.all ix.contains) = true) : ¬ ix.Dangles id ref := by
  rintro ⟨e, he, href, hgone⟩
  rw [List.all_eq_true.1 (Index.all_toList_iff.1 h id e he) ref href] at hgone
  cases hgone

namespace Store

/-- Two stores between which batches were applied that brought no dangling reference: each one there
is now was there before, and its entity was not written. -/
def KeepsReferences (s s' : Store) : Prop :=
  ∃ written, s'.backend.memory.applied = s.backend.memory.applied ++ written ∧
    ∀ id ref, s'.backend.table.Dangles id ref →
      s.backend.table.Dangles id ref ∧ ∀ b ∈ written, id ∉ b.modified.map (·.id)

namespace KeepsReferences

variable {s t u : Store}

theorem ofSame (happlied : t.backend.memory.applied = s.backend.memory.applied)
    (htable : t.backend.table = s.backend.table) : s.KeepsReferences t :=
  ⟨[], by rw [happlied, List.append_nil], fun id ref hd => ⟨htable ▸ hd, by simp⟩⟩

theorem trans (h : s.KeepsReferences t) (h' : t.KeepsReferences u) : s.KeepsReferences u := by
  obtain ⟨first, hfirst, hkeeps⟩ := h
  obtain ⟨second, hsecond, hkeeps'⟩ := h'
  refine ⟨first ++ second, by rw [hsecond, hfirst, List.append_assoc], fun id ref hd => ?_⟩
  obtain ⟨hbefore, hnot⟩ := hkeeps' id ref hd
  obtain ⟨hstart, hnot'⟩ := hkeeps id ref hbefore
  refine ⟨hstart, fun b hb => ?_⟩
  rcases List.mem_append.1 hb with hb | hb
  · exact hnot' b hb
  · exact hnot b hb

end KeepsReferences

end Store

namespace Work

variable {run : HookRunner} {w w' : Work}

/-- The committed entities once the working set is written. -/
def writtenTable (w : Work) : Index :=
  (w.store.backend.table.removeAll w.txn.deleted.keys).addAll w.txn.modified.toList

theorem find?_writtenTable (w : Work) (id : EntityId) :
    w.writtenTable.find? id = (w.txn.modified.find? id).or
      (if w.txn.deleted.contains id then none else w.store.backend.table.find? id) := by
  rw [writtenTable, Index.find?_removeAll_addAll]
  simp [OrderedMap.mem_keys_iff]

theorem holds_of_writtenTable {P : Entity → Prop} {id : EntityId} {e : Entity}
    (hpending : ∀ i x, w.txn.modified.find? i = some x → P x)
    (hcommitted : ∀ i x, w.store.backend.table.find? i = some x → P x)
    (h : w.writtenTable.find? id = some e) : P e := by
  rw [find?_writtenTable] at h
  rcases Option.or_eq_some_iff.1 h with hput | ⟨-, hkept⟩
  · exact hpending id e hput
  · split at hkept
    · cases hkept
    · exact hcommitted id e hkept

theorem contains_writtenTable (hs : w.Sound) (id : EntityId) :
    w.writtenTable.contains id = w.visible id := by
  rw [Index.contains_eq_isSome, find?_writtenTable, visible, Index.contains_eq_isSome,
    Backend.contains, Index.contains_eq_isSome]
  cases hm : w.txn.modified.find? id with
  | some e => simp [hs.alive (Index.contains_iff_find?.2 ⟨e, hm⟩)]
  | none => cases w.txn.deleted.contains id <;> simp

/-- A clean working set brings no dangling reference. -/
theorem dangles_of_writtenTable (hs : w.Sound) (hc : w.Clean) {id ref : EntityId}
    (h : w.writtenTable.Dangles id ref) :
    w.store.backend.table.Dangles id ref ∧ w.txn.modified.contains id = false := by
  obtain ⟨e, he, href, hgone⟩ := h
  rw [contains_writtenTable hs] at hgone
  rw [find?_writtenTable] at he
  rcases Option.or_eq_some_iff.1 he with hput | ⟨hnone, hkept⟩
  · rw [hc.pending hput ref href] at hgone
    cases hgone
  · have hmod : w.txn.modified.contains id = false := by
      rw [Index.contains_eq_isSome, hnone, Option.isSome_none]
    split at hkept
    · cases hkept
    · rename_i hd
      rw [Bool.not_eq_true] at hd
      have halive := hc.affected hkept hd hmod ref href
      simp only [visible, halive, Bool.not_false, Bool.true_and, Bool.or_eq_false_iff] at hgone
      exact ⟨⟨e, hkept, href, hgone.2⟩, hmod⟩

/-- What operations on entities that look after themselves do to a unit of work without callbacks:
the committed entities change only by batches. -/
structure Advances (w w' : Work) : Prop where
  sound : w'.Sound
  callbacks : w'.txn.callbacks = []
  writes : ∃ written, w'.store.backend.memory.applied =
    w.store.backend.memory.applied ++ written ∧
      (written = [] → w'.store.backend.table = w.store.backend.table)

/-- What such operations do that leave the settings alone: a transaction that repairs references and
drops no modification brings no dangling one. -/
structure Proceeds (w w' : Work) : Prop extends Advances w w' where
  settings : w.SameSettings w'
  keeps : w.txn.ensureIntegrity = true → w.txn.ignoreModifications = false →
    w.store.KeepsReferences w'.store

variable {u : Work}

theorem Advances.trans (h : u.Advances w) (h' : w.Advances w') : u.Advances w' where
  sound := h'.sound
  callbacks := h'.callbacks
  writes := by
    obtain ⟨first, hfirst, htable⟩ := h.writes
    obtain ⟨second, hsecond, htable'⟩ := h'.writes
    refine ⟨first ++ second, by rw [hsecond, hfirst, List.append_assoc], fun hnil => ?_⟩
    obtain ⟨rfl, rfl⟩ := List.append_eq_nil_iff.1 hnil
    rw [htable' rfl, htable rfl]

theorem Advances.ofSame (hs : w'.Sound) (hc : w'.txn.callbacks = [])
    (happlied : w'.store.backend.memory.applied = w.store.backend.memory.applied)
    (htable : w'.store.backend.table = w.store.backend.table) : w.Advances w' :=
  ⟨hs, hc, [], by rw [happlied, List.append_nil], fun _ => htable⟩

namespace Proceeds

theorem ofSame (hs : w'.Sound) (hc : w'.txn.callbacks = []) (hset : w.SameSettings w')
    (happlied : w'.store.backend.memory.applied = w.store.backend.memory.applied)
    (htable : w'.store.backend.table = w.store.backend.table) : w.Proceeds w' :=
  ⟨.ofSame hs hc happlied htable, hset, fun _ _ => .ofSame happlied htable⟩

theorem refl (hs : w.Sound) (hc : w.txn.callbacks = []) : w.Proceeds w :=
  .ofSame hs hc ⟨rfl, rfl⟩ rfl rfl

theorem trans (h : u.Proceeds w) (h' : w.Proceeds w') : u.Proceeds w' :=
  ⟨h.toAdvances.trans h'.toAdvances, h.settings.trans h'.settings, fun hensure hheed =>
    (h.keeps hensure hheed).trans
      (h'.keeps (h.settings.repairing.trans hensure) (h.settings.ignoring.trans hheed))⟩

end Proceeds

/-! ## Writes -/

theorem store_settle (w : Work) (b : Backend) :
    (w.withBackend b).settle.store =
      (Callback.runAll w.txn.callbacks ((w.withBackend b).store.publish w.txn.changeSet)).count
        (·.countBatch w.txn.batch.modified.length w.txn.batch.deleted.size) := rfl

theorem settle_of_no_callbacks (hc : w.txn.callbacks = []) (b : Backend) :
    (w.withBackend b).settle.store.backend = b ∧
      (w.withBackend b).settle.txn = { w.txn.clearPending with callbacks := [] } := by
  refine ⟨?_, rfl⟩
  rw [store_settle, hc]
  rfl

theorem proceeds_applyPending (hs : w.Sound) (hc : w.txn.callbacks = [])
    (hclean : w.txn.ensureIntegrity = true → w.txn.ignoreModifications = false → w.Clean) :
    w.Proceeds w.applyPending.2 := by
  rcases w.applyPending_cases with ⟨err, b, hb, heq⟩ | ⟨b, hb, heq⟩
  · rw [heq]
    have htable : b.table = w.store.backend.table := by rw [Backend.table, hb]; rfl
    refine .ofSame (hs.of_eq rfl rfl htable) hc ⟨rfl, rfl⟩ ?_ htable
    change b.memory.applied = _
    rw [hb, Memory.applied_note_rejected]
  · rw [heq]
    obtain ⟨hbackend, htxn⟩ := settle_of_no_callbacks hc b
    have htable : b.table = w.writtenTable := by rw [Backend.table, hb]; rfl
    have happlied : b.memory.applied = w.store.backend.memory.applied ++ [w.txn.batch] := by
      rw [hb, Memory.applied_apply]
    refine ⟨⟨⟨fun h => ?_, fun {i e} h => ?_, fun h => ?_⟩, by rw [htxn], ?_⟩, ⟨rfl, rfl⟩,
      fun hensure hheed => ?_⟩
    · rw [htxn] at h
      simp [Transaction.clearPending] at h
    · rw [hbackend, htable] at h
      exact holds_of_writtenTable (fun _ _ hx => hs.pending hx) (fun _ _ hx => hs.committed hx) h
    · rw [htxn]
      rfl
    · exact ⟨[w.txn.batch], by rw [hbackend, happlied], by simp⟩
    · refine ⟨[w.txn.batch], by rw [hbackend, happlied], fun id ref hd => ?_⟩
      rw [hbackend, htable] at hd
      obtain ⟨hbefore, hnot⟩ := dangles_of_writtenTable hs (hclean hensure hheed) hd
      refine ⟨hbefore, fun batch hmem => ?_⟩
      obtain rfl := List.mem_singleton.1 hmem
      change id ∉ w.txn.modified.toList.map (·.id)
      rw [Index.mem_map_id_toList_iff, hnot]
      simp

theorem proceeds_writePending (hrun : Honours run) (hs : w.Sound) (hc : w.txn.callbacks = [])
    (hrec : w.txn.state.ensureRecording = .ok ()) : w.Proceeds (w.writePending run).2 := by
  have hrepair := between_ensureIntegrity hrun hs
  have hmiddle : w.Proceeds (ensureIntegrity run w).2 :=
    .ofSame hrepair.sound (hrepair.adjusts.callbacks.trans hc) hrepair.settings
      (congrArg (List.filterMap _) hrepair.adjusts.store.log) hrepair.adjusts.store.table
  rcases w.writePending_cases run with ⟨-, err, u, hu, heq⟩ | ⟨-, u, hu, heq⟩ | ⟨hflag, heq⟩
  · rw [hu] at hmiddle
    rw [heq]
    exact hmiddle
  · rw [hu] at hrepair hmiddle
    rw [heq]
    refine hmiddle.trans (proceeds_applyPending hrepair.sound hmiddle.callbacks fun _ hheed => ?_)
    exact clean_of_ensureIntegrity hrun hs ⟨hrec, hrepair.settings.ignoring.symm.trans hheed⟩ hu
  · rw [heq]
    exact proceeds_applyPending hs hc fun h => by simp [hflag] at h

/-! ## Operations -/

theorem ensureRecording_of_isActive (h : w.txn.isActive = true) :
    w.txn.state.ensureRecording = .ok () := by
  rw [of_decide_eq_true h]
  rfl

theorem proceeds_writeThrough (hrun : Honours run) (hs : w.Sound) (hc : w.txn.callbacks = []) :
    w.Proceeds (w.writeThrough run).2 := by
  rw [writeThrough]
  split
  · rename_i h
    simp only [writesThrough, Bool.and_eq_true] at h
    exact proceeds_writePending hrun hs hc (ensureRecording_of_isActive h.2)
  · exact .refl hs hc

theorem proceeds_delete (hrun : Honours run) (hs : w.Sound) (hc : w.txn.callbacks = [])
    (id : EntityId) : w.Proceeds (w.delete run id).2 := by
  have hs' := hs.recordDeletion id
  have hrecorded : w.Proceeds ((w.onTxn (·.recordDeletion id)).onStore
      (·.onBackend Backend.noteModification)) := .ofSame hs' hc ⟨rfl, rfl⟩ rfl rfl
  rcases w.delete_cases run id with ⟨result, heq⟩ | ⟨-, -, ⟨-, heq⟩ | ⟨-, heq⟩⟩ <;> rw [heq]
  · exact .refl hs hc
  · exact hrecorded
  · exact hrecorded.trans (proceeds_writeThrough hrun hs' hc)

theorem proceeds_commit (hrun : Honours run) (hs : w.Sound) (hc : w.txn.callbacks = []) :
    w.Proceeds (w.commit run).2 := by
  have finish : ∀ {u : Work}, w.Proceeds u → w.Proceeds
      ((u.finish .committed).count Statistics.countCommit) := by
    intro u hu
    refine hu.trans (.ofSame (hu.sound.of_eq rfl rfl rfl) hu.callbacks ⟨rfl, rfl⟩ ?_ rfl)
    exact Memory.applied_note_finished _ _
  rcases w.commit_cases run with ⟨-, err, heq⟩ | ⟨-, -, heq⟩ | ⟨-, -, u, hwrite, heq⟩ |
    ⟨-, -, err, u, hwrite, heq⟩
  · rw [heq]
    exact .refl hs hc
  · rw [heq]
    refine finish (.ofSame (hs.of_eq rfl rfl ?_) rfl ⟨rfl, rfl⟩ ?_ ?_)
    all_goals simp [runCallbacks, hc, Callback.runAll]
  all_goals
    have hstart : w.Proceeds (w.inState .committing) :=
      .ofSame (hs.of_eq rfl rfl rfl) hc ⟨rfl, rfl⟩ rfl rfl
    have hu := hstart.trans (proceeds_writePending hrun hstart.sound hc rfl)
    rw [hwrite] at hu
    rw [heq]
  · exact finish hu
  · exact hu.trans (.ofSame (hu.sound.of_eq rfl rfl rfl) hu.callbacks ⟨rfl, rfl⟩ rfl rfl)

theorem proceeds_rollback (hs : w.Sound) (hc : w.txn.callbacks = []) :
    w.Proceeds w.rollback.2 := by
  rcases w.rollback_cases with ⟨-, err, heq⟩ | ⟨-, heq⟩
  · rw [heq]
    exact .refl hs hc
  · rw [heq]
    refine .ofSame ⟨fun h => ?_, hs.committed, fun _ => rfl⟩ rfl ⟨rfl, rfl⟩ ?_ rfl
    · simp [Transaction.clearPending, finish, onTxn, onStore, count] at h
    · exact Memory.applied_note_finished _ _

end Work

namespace Operation

/-- Operations that bring in no entity but those that look after themselves, and no callback. -/
def Tame : Operation → Prop
  | .persist e | .modified e _ _ | .deleteEntity e => tendsItself e = true
  | .afterCommit _ => False
  | _ => True

/-- Operations that change how a transaction writes. -/
def ChangesSettings : Operation → Prop
  | .setIgnoreModifications _ | .setEnsureIntegrity _ => True
  | _ => False

end Operation

namespace Work

variable {run : HookRunner} {w : Work}

theorem proceeds_perform (hrun : Honours run) {op : Operation} (hop : op.Tame)
    (hset : ¬ op.ChangesSettings) (hs : w.Sound) (hc : w.txn.callbacks = []) :
    w.Proceeds (op.perform run w).2 := by
  cases op with
  | persist e =>
    rcases w.persist_cases run e with ⟨result, heq⟩ | ⟨-, hd, heq⟩ <;> rw [Operation.perform, heq]
    · exact .refl hs hc
    · have hs' := hs.recordSnapshot hop hd
      have hrecorded : w.Proceeds (w.onTxn (·.recordSnapshot e)) :=
        .ofSame hs' hc ⟨rfl, rfl⟩ rfl rfl
      exact hrecorded.trans (proceeds_writeThrough hrun hs' hc)
  | modified e field value =>
    rcases w.modified_cases run e field value with ⟨result, heq⟩ | ⟨-, -, hsees, heq⟩ <;>
      rw [Operation.perform, heq]
    · exact .refl hs hc
    · have hs' := hs.takeDown hop (not_deleted_of_contains hsees) field value
      have hrecorded : w.Proceeds (w.takeDown e field value) :=
        .ofSame hs' hc ⟨rfl, rfl⟩ rfl rfl
      exact hrecorded.trans (proceeds_writeThrough hrun hs' hc)
  | delete id => exact proceeds_delete hrun hs hc id
  | deleteEntity e =>
    simp only [Operation.perform, deleteEntity, hrun.delete e w hop]
    exact proceeds_delete hrun hs hc e.id
  | commit => exact proceeds_commit hrun hs hc
  | rollback => exact proceeds_rollback hs hc
  | afterCommit c => exact hop.elim
  | setAutoCommit value => exact .ofSame (hs.of_eq rfl rfl rfl) hc ⟨rfl, rfl⟩ rfl rfl
  | setIgnoreModifications value => exact absurd trivial hset
  | setEnsureIntegrity value => exact absurd trivial hset
  | findAll q => exact .ofSame (hs.of_eq rfl rfl rfl) hc ⟨rfl, rfl⟩ rfl rfl
  | findFirst q => exact .ofSame (hs.of_eq rfl rfl rfl) hc ⟨rfl, rfl⟩ rfl rfl
  | remark r => exact .ofSame (hs.of_eq rfl rfl rfl) hc ⟨rfl, rfl⟩ rfl rfl
  | contains _ | get _ | inspect => exact .refl hs hc

theorem advances_perform (hrun : Honours run) {op : Operation} (hop : op.Tame) (hs : w.Sound)
    (hc : w.txn.callbacks = []) : w.Advances (op.perform run w).2 := by
  by_cases hset : op.ChangesSettings
  · cases op with
    | setIgnoreModifications value => exact .ofSame (hs.of_eq rfl rfl rfl) hc rfl rfl
    | setEnsureIntegrity value => exact .ofSame (hs.of_eq rfl rfl rfl) hc rfl rfl
    | _ => exact hset.elim
  · exact (proceeds_perform hrun hop hset hs hc).toAdvances

variable {α : Type} {p : Program α}

theorem advances_run (hrun : Honours run) (hp : p.Asks Operation.Tame) (hs : w.Sound)
    (hc : w.txn.callbacks = []) : w.Advances (p.run run w).2 :=
  hp.run_preserves (I := w.Advances)
    (fun _ hop _ hv => hv.trans (advances_perform hrun hop hv.sound hv.callbacks))
    (.ofSame hs hc rfl rfl)

theorem proceeds_run (hrun : Honours run)
    (hp : p.Asks fun op => op.Tame ∧ ¬ op.ChangesSettings) (hs : w.Sound)
    (hc : w.txn.callbacks = []) : w.Proceeds (p.run run w).2 :=
  hp.run_preserves (I := w.Proceeds)
    (fun _ hop _ hv => hv.trans (proceeds_perform hrun hop.1 hop.2 hv.sound hv.callbacks))
    (.refl hs hc)

theorem proceeds_drop (hs : w.Sound) (hc : w.txn.callbacks = []) :
    w.Proceeds ⟨w.drop, w.txn⟩ := by
  rw [drop]
  split
  · exact .refl hs hc
  · exact .ofSame (hs.of_eq rfl rfl rfl) hc ⟨rfl, rfl⟩ (Memory.applied_note_finished _ _) rfl

end Work

end EntityStore
