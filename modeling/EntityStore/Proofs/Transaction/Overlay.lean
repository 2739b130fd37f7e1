import EntityStore.Proofs.Transaction.Upholding

/-!
# Reading through a working set

A transaction sees one map: the committed entities without those that it takes away, behind those
that it puts. All its readings are readings of this map, and a write makes it the committed table
(`Work.overlays`). This rests on nothing being put and taken away at once, whatever the hooks do
(`Hooks.coherent_perform`).
-/

namespace EntityStore

namespace Transaction

/-- Nothing is both put and taken away, and no entity is being checked but perhaps one. -/
structure Coherent (checked : Option EntityId) (t : Transaction) : Prop where
  apart : t.Apart
  checking : t.checking = none ∨ t.checking = checked

theorem find?_changeSet (t : Transaction) (id : EntityId) :
    t.changeSet.updates.find? id = (t.modified.find? id).map t.update :=
  Index.find?_ofList_toList t.modified t.update id

end Transaction

namespace Work

variable {run : HookRunner} {w w' : Work} {id : EntityId} {e : Entity}

/-! ## Coherence -/

/-- A check keeps a transaction coherent if the hooks do, and no entity is being checked after. -/
theorem coherent_checkEntity
    (hook : ∀ checked hook e w, w.txn.Coherent checked → (run hook e w).2.txn.Coherent checked)
    {checked : Option EntityId} (hw : w.txn.Coherent checked) (id : EntityId) :
    (w.checkEntity run id).2.txn.Coherent checked := by
  rw [checkEntity]
  split
  · exact hw
  · rename_i e _
    have hout : (w.checkOut id).txn.Coherent (some id) :=
      ⟨hw.apart.unput id rfl fun _ => .inr, .inr rfl⟩
    have hafter := hook (some id) .check e (w.checkOut id) hout
    simp only [checkIn, onTxn]
    split
    · rename_i hjoins
      rw [Bool.and_eq_true, Bool.not_eq_true'] at hjoins
      exact ⟨hafter.apart.put hjoins.1 rfl rfl, .inl rfl⟩
    · exact ⟨hafter.apart, .inl rfl⟩

theorem coherent_repairRelation
    (hook : ∀ checked hook e w, w.txn.Coherent checked → (run hook e w).2.txn.Coherent checked)
    (checked : Option EntityId) :
    RepairRelation run fun w w' => w.txn.Coherent checked → w'.txn.Coherent checked where
  refl _ h := h
  trans h h' hw := h' (h hw)
  check id _ _ hw := coherent_checkEntity hook hw id
  query _ h := h
  beginPass _ h := ⟨h.apart, h.checking⟩
  endPass _ h := ⟨h.apart, h.checking⟩
  restart _ h := h

theorem coherent_applyPending {checked : Option EntityId} (hw : w.txn.Coherent checked) :
    w.applyPending.2.txn.Coherent checked := by
  rcases w.applyPending_cases with ⟨err, b, -, heq⟩ | ⟨b, -, heq⟩ <;> rw [heq]
  · exact hw
  · exact ⟨.of_empty rfl, hw.checking⟩

theorem coherent_writePending
    (hook : ∀ checked hook e w, w.txn.Coherent checked → (run hook e w).2.txn.Coherent checked)
    {checked : Option EntityId} (hw : w.txn.Coherent checked) :
    (w.writePending run).2.txn.Coherent checked := by
  have hrepair := (coherent_repairRelation hook checked).ensureIntegrity w hw
  rcases w.writePending_cases run with ⟨-, err, u, hu, heq⟩ | ⟨-, u, hu, heq⟩ | ⟨-, heq⟩
  all_goals rw [heq]
  · rw [hu] at hrepair
    exact hrepair
  · rw [hu] at hrepair
    exact coherent_applyPending hrepair
  · exact coherent_applyPending hw

theorem coherent_upholds
    (hook : ∀ checked hook e w, w.txn.Coherent checked → (run hook e w).2.txn.Coherent checked)
    (checked : Option EntityId) :
    Upholds run (fun _ _ => True) fun w => w.txn.Coherent checked where
  same hw h :=
    ⟨fun id hid => by rw [h.modified]; exact hw.apart id (h.deleted ▸ hid),
      h.checking ▸ hw.checking⟩
  snapshot hw _ hd := ⟨hw.apart.put hd rfl rfl, hw.checking⟩
  field hw _ _ hsees := ⟨hw.apart.put (not_deleted_of_contains hsees) rfl rfl, hw.checking⟩
  deletion id hw := ⟨hw.apart.recordDeletion id, hw.checking⟩
  hook hw _ := ⟨hook checked _ _ _ hw, trivial⟩
  write _ _ _ _ hu := coherent_writePending hook hu
  clear hw := ⟨.of_empty rfl, hw.checking⟩
  runCallbacks hw := ⟨hw.apart, hw.checking⟩
  afterCommit {w c} hw _ := by
    rw [Work.afterCommit]
    split
    · exact hw
    · exact ⟨hw.apart, hw.checking⟩

end Work

namespace Hooks

variable (hooks : Hooks) (level : Nat)

theorem coherent : ∀ checked hook e w, w.txn.Coherent checked →
    (hooks.runner level hook e w).2.txn.Coherent checked :=
  runner_keeps (I := fun checked w => w.txn.Coherent checked)
    (fun _ hook checked _ _ hw => (Work.coherent_upholds hook checked).perform trivial hw) level

theorem coherent_perform {checked : Option EntityId} (op : Operation) {w : Work}
    (hw : w.txn.Coherent checked) : (op.perform (hooks.runner level) w).2.txn.Coherent checked :=
  (Work.coherent_upholds (coherent hooks level) checked).perform trivial hw

theorem coherent_run {α : Type} (p : Program α) {checked : Option EntityId} {w : Work}
    (hw : w.txn.Coherent checked) : (p.run (hooks.runner level) w).2.txn.Coherent checked :=
  (Program.asks_true p).run_preserves (I := fun w => w.txn.Coherent checked)
    (fun op _ _ hu => coherent_perform hooks level op hu) hw

end Hooks

theorem Store.coherent_begin (s : Store) (name : String) : (s.begin name).txn.Coherent none :=
  ⟨.of_empty rfl, .inl rfl⟩

/-! ## The map that a transaction sees -/

namespace Work

variable {run : HookRunner} {w w' : Work} {id : EntityId} {e : Entity}

/-- The committed entities without those taken away, behind those put. -/
def overlay (w : Work) (id : EntityId) : Option Entity :=
  match w.txn.modified.find? id with
  | some e => some e
  | none => if w.txn.deleted.contains id then none else w.store.backend.table.find? id

theorem overlay_of_deleted (hw : w.txn.Apart) (hd : w.txn.deleted.contains id = true) :
    w.overlay id = none := by
  have hmodified := hw id hd
  rw [Index.contains_eq_isSome, Option.isSome_eq_false_iff, Option.isNone_iff_eq_none]
    at hmodified
  simp only [overlay, hmodified, hd, if_true]

theorem contains_eq_overlay (hw : w.txn.Coherent none) (id : EntityId) :
    w.contains id = (w.overlay id).isSome := by
  have hchecking : (w.txn.checking == some id) = false := by
    rw [hw.checking.elim (fun h => h) fun h => h]
    rfl
  cases hd : w.txn.deleted.contains id with
  | true => simp [contains, hd, overlay_of_deleted hw.apart hd]
  | false =>
    simp only [contains, hd, hchecking, Index.contains_eq_isSome, Backend.contains, overlay,
      Bool.not_false, Bool.true_and, Bool.false_or]
    cases w.txn.modified.find? id <;> simp

theorem get_eq_overlay (hw : w.txn.Apart) (id : EntityId) :
    w.get id = match w.overlay id with
      | some e => .ok e
      | none => .error (.entityDoesNotExist id) := by
  cases hd : w.txn.deleted.contains id with
  | true => simp [get, hd, overlay_of_deleted hw hd]
  | false =>
    simp only [get, hd, overlay, Backend.get, Index.get, Bool.false_eq_true, if_false]
    cases w.txn.modified.find? id <;> rfl

theorem mem_matching_iff (hw : w.txn.Apart) {q : Query} :
    e ∈ w.matching q ↔ w.overlay e.id = some e ∧ q.picks e = true := by
  simp only [matching, List.mem_append, Backend.findAll, Index.mem_findAll_iff, ownQuery,
    committedQuery, Query.without, Query.picks, Bool.false_eq_true, false_or, Bool.and_eq_true,
    Bool.not_eq_true', Bool.or_eq_false_iff, Index.contains_eq_isSome]
  cases hd : w.txn.deleted.contains e.id with
  | true => simp [overlay_of_deleted hw hd]
  | false =>
    simp only [overlay, hd, Bool.false_eq_true, if_false]
    cases w.txn.modified.find? e.id <;> simp

theorem nodup_matching (w : Work) (q : Query) : (w.matching q).Nodup := by
  rw [matching, Backend.findAll, Index.findAll_eq_filter, Index.findAll_eq_filter]
  refine List.nodup_append.2 ⟨(Index.nodup_toList _).filter _, (Index.nodup_toList _).filter _, ?_⟩
  rintro e hput _ hcommitted rfl
  have hmodified := Index.mem_toList_iff.1 (List.mem_filter.1 hput).1
  have hnot := (List.mem_filter.1 hcommitted).2
  simp [Index.takes, committedQuery, Query.without, Index.contains_eq_isSome, hmodified] at hnot

theorem firstMatching?_eq_head? (w : Work) (q : Query) :
    w.firstMatching? q = (w.matching q).head? := by
  rw [firstMatching?, Backend.findFirst?, Index.findFirst?_eq_head?, Index.findFirst?_eq_head?,
    matching, List.head?_append]
  rfl

theorem find?_of_delivers {s : Store} {c : ChangeSet} (h : w.store.Delivers w.txn.batch c s)
    (id : EntityId) : s.backend.table.find? id = w.overlay id := by
  rw [h.table]
  change ((w.store.backend.table.removeAll w.txn.deleted.keys).addAll
    w.txn.modified.toList).find? id = _
  rw [Index.find?_removeAll_addAll, overlay]
  cases w.txn.modified.find? id with
  | some e => rfl
  | none => simp [OrderedMap.mem_keys_iff]

theorem overlay_of_isEmpty (h : w.txn.isEmpty = true) (id : EntityId) :
    w.overlay id = w.store.backend.table.find? id := by
  rw [Transaction.isEmpty, Bool.and_eq_true] at h
  have hdeleted : w.txn.deleted.contains id = false := by
    simp [OrderedMap.contains, OrderedMap.find?, List.isEmpty_iff.1 h.2, OrderedMap.valueAt?]
  simp [overlay, Index.isEmpty_iff.1 h.1 id, hdeleted]

/-- A write that has succeeded: what the repair has left, if there was one, is handed to the backend
in one batch, then the callbacks run, and nothing is pending any more. -/
structure HandsOver (run : HookRunner) (w repaired : Work) (mid : Store) (w' : Work) : Prop where
  repair : w.txn.ensureIntegrity = true → ensureIntegrity run w = (.ok (), repaired)
  unrepaired : w.txn.ensureIntegrity = false → repaired = w
  delivers : repaired.store.Delivers repaired.txn.batch repaired.txn.changeSet mid
  called : (Callback.runAll repaired.txn.callbacks mid).Unmoved w'.store
  txn : w'.txn = { repaired.txn.clearPending with callbacks := [] }

theorem handsOver_of_applyPending (h : w.applyPending = (.ok (), w')) :
    ∃ mid, w.store.Delivers w.txn.batch w.txn.changeSet mid ∧
      (Callback.runAll w.txn.callbacks mid).Unmoved w'.store ∧
      w'.txn = { w.txn.clearPending with callbacks := [] } := by
  rcases w.applyPending_cases with ⟨err, b, -, heq⟩ | ⟨b, hb, heq⟩
  · rw [heq] at h
    cases h
  · rw [heq] at h
    cases h
    exact ⟨_, delivers_applied hb, ⟨rfl, rfl, rfl, rfl⟩, rfl⟩

theorem handsOver_of_writePending (h : w.writePending run = (.ok (), w')) :
    ∃ repaired mid, HandsOver run w repaired mid w' := by
  rcases w.writePending_cases run with ⟨-, err, u, -, heq⟩ | ⟨hflag, u, hu, heq⟩ | ⟨hflag, heq⟩
  · rw [heq] at h
    cases h
  · rw [heq] at h
    obtain ⟨mid, hdelivers, hcalled, htxn⟩ := handsOver_of_applyPending h
    exact ⟨u, mid, fun _ => hu, fun hoff => absurd (hflag.symm.trans hoff) (by simp), hdelivers,
      hcalled, htxn⟩
  · rw [heq] at h
    obtain ⟨mid, hdelivers, hcalled, htxn⟩ := handsOver_of_applyPending h
    exact ⟨w, mid, fun hon => absurd (hflag.symm.trans hon) (by simp), fun _ => rfl, hdelivers,
      hcalled, htxn⟩

/-- A commit that succeeds has written, if there was something to write. -/
theorem handsOver_of_commit (hpending : w.txn.isEmpty = false) (h : w.commit run = (.ok (), w')) :
    ∃ repaired mid u, HandsOver run (w.inState .committing) repaired mid u ∧
      u.store.Unmoved w'.store := by
  rcases w.commit_cases run with ⟨-, err, heq⟩ | ⟨-, hempty, -⟩ | ⟨-, -, u, hwrite, heq⟩ |
    ⟨-, -, err, u, -, heq⟩
  · rw [heq] at h
    cases h
  · exact absurd (hpending.symm.trans hempty) (by simp)
  · rw [heq] at h
    cases h
    obtain ⟨repaired, mid, hhands⟩ := handsOver_of_writePending hwrite
    exact ⟨repaired, mid, u, hhands, (unmoved_finish u .committed).trans (unmoved_count _ _)⟩
  · rw [heq] at h
    cases h

/-- The store in which the callbacks of a commit begin to run: what the transaction sees has become
the committed table, in one batch, or there was nothing to write. -/
structure Written (w : Work) (s : Store) : Prop where
  table : ∀ id, s.backend.table.find? id = w.overlay id
  batch : w.txn.isEmpty = true ∧ w.store.Unmoved s ∨
    w.txn.isEmpty = false ∧ w.store.Delivers w.txn.batch w.txn.changeSet s

/-- A commit without repair that succeeds writes what the transaction sees, and then runs its
callbacks. -/
theorem written_of_commit (hflag : w.txn.ensureIntegrity = false)
    (h : w.commit run = (.ok (), w')) :
    ∃ mid, w.Written mid ∧ (Callback.runAll w.txn.callbacks mid).Unmoved w'.store := by
  cases hempty : w.txn.isEmpty with
  | true =>
    rcases w.commit_cases run with ⟨-, err, heq⟩ | ⟨-, -, heq⟩ | ⟨-, hpending, -⟩ |
      ⟨-, hpending, -⟩
    · rw [heq] at h
      cases h
    · rw [heq] at h
      cases h
      exact ⟨w.store, ⟨fun id => (overlay_of_isEmpty hempty id).symm, .inl ⟨hempty, .refl _⟩⟩,
        (unmoved_finish w.runCallbacks .committed).trans (unmoved_count _ _)⟩
    all_goals exact absurd (hpending.symm.trans hempty) (by simp)
  | false =>
    obtain ⟨repaired, mid, u, hhands, hended⟩ := handsOver_of_commit hempty h
    obtain rfl := hhands.unrepaired hflag
    have hdelivers : w.store.Delivers w.txn.batch w.txn.changeSet mid := hhands.delivers
    exact ⟨mid, ⟨find?_of_delivers hdelivers, .inr ⟨hempty, hdelivers⟩⟩, hhands.called.trans hended⟩

/-- A transaction reads and writes one map. -/
structure Overlays (run : HookRunner) (w : Work) : Prop where
  contains : ∀ id, w.contains id = (w.overlay id).isSome
  get : ∀ id, w.get id = match w.overlay id with
    | some e => .ok e
    | none => .error (.entityDoesNotExist id)
  findAll : ∀ q, (w.findAll q).1.Nodup ∧
    ∀ e, e ∈ (w.findAll q).1 ↔ w.overlay e.id = some e ∧ q.picks e = true
  findFirst : ∀ q, (w.findFirst q).1 = (w.findAll q).1.head?
  commit : ∀ w', w.txn.ensureIntegrity = false → w.commit run = (.ok (), w') →
    ∃ mid, w.Written mid ∧ (Callback.runAll w.txn.callbacks mid).Unmoved w'.store

theorem overlays (hw : w.txn.Coherent none) (run : HookRunner) : w.Overlays run where
  contains := contains_eq_overlay hw
  get := get_eq_overlay hw.apart
  findAll q := ⟨nodup_matching w q, fun _ => mem_matching_iff hw.apart⟩
  findFirst := firstMatching?_eq_head? w
  commit _ hflag h := written_of_commit hflag h

end Work

end EntityStore
