import EntityStore.Proofs.Repair.Check
import EntityStore.Proofs.Transaction.Referrers

/-!
# What a completed pass establishes

A pass over entities that look after themselves either is cut short or changes nothing about what is
visible. Hence a reference that a check has found in order stays in order until the pass is over,
and at the end of a completed pass every entity that is to be put, and every committed one that
referred to a deleted id, is in order (`Work.clean_of_ensureIntegrity`).
-/

namespace EntityStore

open Repair

/-! ## Working sets -/

namespace Transaction

/-- Nothing is both put and taken away. -/
def Apart (t : Transaction) : Prop :=
  ∀ id, t.deleted.contains id = true → t.modified.contains id = false

variable {t t' : Transaction} {e : Entity} {id : EntityId}

theorem Apart.of_empty (hmodified : t.modified = .empty) : t.Apart := by
  intro id _
  rw [hmodified]
  rfl

theorem Apart.alive (h : t.Apart) (hput : t.modified.contains id = true) :
    t.deleted.contains id = false := by
  cases hd : t.deleted.contains id with
  | false => rfl
  | true => exact absurd ((h id hd).symm.trans hput) (by simp)

theorem Apart.put (h : t.Apart) (hd : t.deleted.contains e.id = false)
    (hmodified : t'.modified = t.modified.add e) (hdeleted : t'.deleted = t.deleted) :
    t'.Apart := by
  intro id hid
  rw [hdeleted] at hid
  have hne : e.id ≠ id := by
    rintro rfl
    exact absurd (hd.symm.trans hid) (by simp)
  simp [hmodified, Index.contains_add, hne, h id hid]

theorem Apart.unput (h : t.Apart) (id : EntityId)
    (hmodified : t'.modified = t.modified.remove id)
    (hdeleted : ∀ other, t'.deleted.contains other = true →
      other = id ∨ t.deleted.contains other = true) : t'.Apart := by
  intro other hother
  rw [hmodified, Index.contains_remove]
  rcases hdeleted other hother with rfl | hd
  · simp
  · simp [h other hd]

theorem Apart.recordDeletion (h : t.Apart) (id : EntityId) : (t.recordDeletion id).Apart := by
  refine h.unput id rfl fun other hother => ?_
  simp only [Transaction.recordDeletion, OrderedMap.contains_add, Bool.or_eq_true,
    decide_eq_true_iff] at hother
  exact hother.imp_left Eq.symm

theorem isEmpty_iff : t.isEmpty = true ↔
    (∀ id, t.modified.contains id = false) ∧ ∀ id, t.deleted.contains id = false := by
  rw [isEmpty, Bool.and_eq_true, Index.isEmpty_iff, OrderedMap.isEmpty_iff]
  simp [Index.contains_eq_isSome]

theorem isEmpty_of_put (h : t.modified.contains id = true) : t.isEmpty = false :=
  Bool.eq_false_iff.2 fun hempty => by simp [(isEmpty_iff.1 hempty).1] at h

theorem isEmpty_of_deleted (h : t.deleted.contains id = true) : t.isEmpty = false :=
  Bool.eq_false_iff.2 fun hempty => by simp [(isEmpty_iff.1 hempty).2] at h

end Transaction

namespace Work

/-- All entities look after themselves, and nothing is both put and taken away. -/
structure Sound (w : Work) : Prop where
  pending : ∀ {id e}, w.txn.modified.find? id = some e → tendsItself e = true
  committed : ∀ {id e}, w.store.backend.table.find? id = some e → tendsItself e = true
  apart : ∀ {id}, w.txn.deleted.contains id = true → w.txn.modified.contains id = false

/-- Every reference of an entity that is to be put stands for something, and none of the other
entities that stay refers to a deleted id. -/
structure Clean (w : Work) : Prop where
  pending : ∀ {id e}, w.txn.modified.find? id = some e → ∀ ref ∈ e.references, w.visible ref = true
  affected : ∀ {id e}, w.store.backend.table.find? id = some e → w.txn.deleted.contains id = false →
    w.txn.modified.contains id = false → ∀ ref ∈ e.references, w.txn.deleted.contains ref = false

variable {run : HookRunner} {w w' : Work} {id : EntityId} {e : Entity} {result : Result Unit}

theorem Sound.of_eq (hw : w.Sound) (hmod : w'.txn.modified = w.txn.modified)
    (hdel : w'.txn.deleted = w.txn.deleted)
    (htable : w'.store.backend.table = w.store.backend.table) : w'.Sound :=
  ⟨fun h => hw.pending (hmod ▸ h), fun h => hw.committed (htable ▸ h),
    fun h => hmod ▸ hw.apart (hdel ▸ h)⟩

theorem Sound.candidate (hw : w.Sound) (h : w.candidate? id = some e) : tendsItself e = true := by
  rcases Option.or_eq_some_iff.1 h with h | ⟨-, h⟩
  · exact hw.pending h
  · exact hw.committed h

theorem Sound.txn_apart (hw : w.Sound) : w.txn.Apart := fun _ hd => hw.apart hd

theorem Sound.alive (hw : w.Sound) (h : w.txn.modified.contains id = true) :
    w.txn.deleted.contains id = false :=
  hw.txn_apart.alive h

theorem Sound.put (hw : w.Sound) (he : tendsItself e = true)
    (hd : w.txn.deleted.contains e.id = false) (hmod : w'.txn.modified = w.txn.modified.add e)
    (hdel : w'.txn.deleted = w.txn.deleted)
    (htable : w'.store.backend.table = w.store.backend.table) : w'.Sound := by
  refine ⟨fun {i x} h => ?_, fun h => hw.committed (htable ▸ h),
    fun {i} h => hw.txn_apart.put hd hmod hdel i h⟩
  rw [hmod, Index.find?_add] at h
  split at h
  · cases h
    exact he
  · exact hw.pending h

theorem Sound.unput (hw : w.Sound) (id : EntityId)
    (hmod : w'.txn.modified = w.txn.modified.remove id)
    (hdel : ∀ other, w'.txn.deleted.contains other = true →
      other = id ∨ w.txn.deleted.contains other = true)
    (htable : w'.store.backend.table = w.store.backend.table) : w'.Sound := by
  refine ⟨fun {i x} h => ?_, fun h => hw.committed (htable ▸ h),
    fun {i} h => hw.txn_apart.unput id hmod hdel i h⟩
  rw [hmod, Index.find?_remove] at h
  split at h
  · cases h
  · exact hw.pending h

theorem Sound.recordSnapshot (hw : w.Sound) (he : tendsItself e = true)
    (hd : w.txn.deleted.contains e.id = false) : (w.onTxn (·.recordSnapshot e)).Sound :=
  hw.put he hd rfl rfl rfl

theorem Sound.takeDown (hw : w.Sound) (he : tendsItself e = true)
    (hd : w.txn.deleted.contains e.id = false) (field : String) (value : PropertyValue) :
    (w.takeDown e field value).Sound :=
  hw.put he hd rfl rfl rfl

theorem Sound.recordDeletion (hw : w.Sound) (id : EntityId) :
    ((w.onTxn (·.recordDeletion id)).onStore (·.onBackend Backend.noteModification)).Sound := by
  refine hw.unput id rfl (fun other h => ?_) rfl
  have h' : (w.txn.deleted.add id).contains other = true := h
  rw [OrderedMap.contains_add, Bool.or_eq_true, decide_eq_true_iff] at h'
  exact h'.imp_left Eq.symm

theorem not_deleted_of_contains (h : w.contains id = true) :
    w.txn.deleted.contains id = false := by
  simp only [contains, Bool.and_eq_true, Bool.not_eq_true'] at h
  exact h.1

/-! ## Checks keep to the transaction -/

/-- A transaction with the settings of another. -/
structure SameSettings (w w' : Work) : Prop where
  repairing : w'.txn.ensureIntegrity = w.txn.ensureIntegrity
  ignoring : w'.txn.ignoreModifications = w.txn.ignoreModifications

theorem SameSettings.trans {u : Work} (h : u.SameSettings w) (h' : w.SameSettings w') :
    u.SameSettings w' :=
  ⟨h'.repairing.trans h.repairing, h'.ignoring.trans h.ignoring⟩

/-- A unit of work during a pass that began with another. -/
structure Underway (u w : Work) : Prop where
  sound : w.Sound
  ensuring : w.txn.ensuring = true
  settings : u.SameSettings w
  adjusts : u.Adjusts w

variable {u : Work}

theorem Underway.next (h : u.Underway w) (h' : w.Adjusts w') (hs : w'.Sound)
    (hensuring : w'.txn.ensuring = w.txn.ensuring)
    (hsettings : w.SameSettings w') : u.Underway w' :=
  ⟨hs, hensuring.trans h.ensuring, h.settings.trans hsettings, h.adjusts.trans h'⟩

/-- During a pass nothing is written through, so a hook's changes of its own entity only count as
recorded. -/
theorem Underway.perform (h : u.Underway w) {op : Operation} (hop : TendsOnly id op)
    (run : HookRunner) : u.Underway (op.perform run w).2 := by
  have through {v : Work} (hv : u.Underway v) : v.writeThrough run = (.ok (), v) :=
    writeThrough_withheld (writesThrough_of_ensuring hv.ensuring) run
  cases op with
  | modified x field value =>
    rcases w.modified_cases run x field value with ⟨result, heq⟩ | ⟨-, -, hsees, heq⟩ <;>
      rw [Operation.perform, heq]
    · exact h
    · have hrecorded : u.Underway (w.takeDown x field value) :=
        h.next (.takeDown w x field value)
          (h.sound.takeDown hop.2 (not_deleted_of_contains hsees) _ _) rfl ⟨rfl, rfl⟩
      rw [through hrecorded]
      exact hrecorded
  | delete i =>
    have hrecorded := h.next (.recordDeletion w i) (h.sound.recordDeletion i) rfl ⟨rfl, rfl⟩
    rcases w.delete_cases run i with ⟨result, heq⟩ | ⟨-, -, ⟨-, heq⟩ | ⟨-, heq⟩⟩ <;>
      rw [Operation.perform, heq]
    · exact h
    · exact hrecorded
    · rw [through hrecorded]
      exact hrecorded
  | contains i => exact h
  | get i => exact h
  | _ => exact hop.elim

theorem Underway.checkOut (h : u.Underway w) (id : EntityId) : u.Underway (w.checkOut id) :=
  h.next (.checkOut w id) (h.sound.unput id rfl (fun _ => .inr) rfl) rfl ⟨rfl, rfl⟩

/-- A check adds nothing to the working set but its own entity. -/
theorem Underway.checkEntity (h : u.Underway w) (hrun : Honours run) (id : EntityId) :
    u.Underway (w.checkEntity run id).2 := by
  rw [Work.checkEntity]
  cases hcand : w.candidate? id with
  | none => exact h
  | some e =>
    have he := h.sound.candidate hcand
    obtain rfl := id_of_candidate? hcand
    obtain ⟨lower, hlower⟩ := hrun.check e (w.checkOut e.id) he
    simp only [hlower]
    have hafter : u.Underway ((check e).run lower (w.checkOut e.id)).2 :=
      (check_tends he).1.run_preserves (fun op hop v hv => hv.perform hop lower) (h.checkOut e.id)
    have hbody := (check_tends he).2.run lower (w.checkOut e.id)
    refine hafter.next (.checkIn _ _ _) ?_ ?_ ?_
    · unfold checkIn
      simp only [onTxn]
      split
      · rename_i hjoins
        rw [Bool.and_eq_true, Bool.not_eq_true'] at hjoins
        exact hafter.sound.put hbody hjoins.1 rfl rfl rfl
      · exact hafter.sound.of_eq rfl rfl rfl
    · simp only [checkIn, onTxn]
      split <;> rfl
    · simp only [checkIn, onTxn]
      split <;> exact ⟨rfl, rfl⟩

theorem Underway.passRelation (u : Work) (hrun : Honours run) :
    PassRelation run fun w w' => u.Underway w → u.Underway w' where
  refl _ h := h
  trans h h' hu := h' (h hu)
  check id _ _ hw := hw.checkEntity hrun id
  query w hw := hw.next (.count w _) (hw.sound.of_eq rfl rfl rfl) rfl ⟨rfl, rfl⟩

/-- Changes are recorded, and those of fields are not dropped. -/
structure Heeds (w : Work) : Prop where
  recording : w.txn.state.ensureRecording = .ok ()
  heeding : w.txn.ignoreModifications = false

/-! ## Completed passes -/

/-- The references of the entity under an id stand for something. -/
def InOrder (w : Work) (id : EntityId) : Prop :=
  ∀ e, w.candidate? id = some e → ∀ ref ∈ e.references, w.visible ref = true

/-- Two units of work between which nothing is deleted, and nothing appears or disappears. -/
structure Steady (w w' : Work) : Prop where
  underway : w.Underway w'
  deleted : w'.txn.deleted = w.txn.deleted
  visible : w'.visible = w.visible

theorem visible_eq_of_candidate? (h : w'.candidate? id = w.candidate? id)
    (hd : w'.txn.deleted.contains id = w.txn.deleted.contains id) :
    w'.visible id = w.visible id := by
  have hsome : ∀ u : Work, u.visible id =
      (!u.txn.deleted.contains id && (u.candidate? id).isSome) := by
    intro u
    simp only [visible, candidate?, Index.contains_eq_isSome, Backend.contains, Backend.table]
    cases u.txn.modified.find? id <;> simp
  rw [hsome, hsome, h, hd]

/-- Where an entity takes the place of one that was to be checked, it is all that changes. -/
theorem candidate?_of_replaced {body : Body} (hcand : w.candidate? id = some e)
    (hd : w.txn.deleted.contains id = false)
    (hmodified : w'.txn.modified = w.txn.modified.add ⟨id, body⟩)
    (hdeleted : w'.txn.deleted = w.txn.deleted)
    (htable : w'.store.backend.table = w.store.backend.table) :
    w'.candidate? id = some ⟨id, body⟩ ∧ w'.visible = w.visible ∧
      ∀ other, id ≠ other → w'.candidate? other = w.candidate? other ∧
        w'.txn.modified.contains other = w.txn.modified.contains other := by
  have hother : ∀ other, id ≠ other → w'.candidate? other = w.candidate? other ∧
      w'.txn.modified.contains other = w.txn.modified.contains other := by
    intro other hne
    simp [candidate?, hmodified, htable, Index.contains_eq_isSome, hne]
  have hself : w'.candidate? id = some ⟨id, body⟩ := by simp [candidate?, hmodified]
  refine ⟨hself, funext fun other => ?_, hother⟩
  by_cases hne : id = other
  · subst hne
    rw [visible_of_candidate? hcand hd, visible_of_candidate? hself (by rw [hdeleted, hd])]
  · exact visible_eq_of_candidate? (hother other hne).1 (by rw [hdeleted])

theorem Underway.inPass (h : u.Underway w) (hu : u.Heeds) : w.InPass :=
  ⟨by rw [h.adjusts.state]; exact hu.recording, h.ensuring,
    h.settings.ignoring.trans hu.heeding⟩

theorem Underway.trans (h : u.Underway w) (h' : w.Underway w') : u.Underway w' :=
  ⟨h'.sound, h'.ensuring, h.settings.trans h'.settings, h.adjusts.trans h'.adjusts⟩

theorem Steady.trans (h : u.Steady w) (h' : w.Steady w') : u.Steady w' :=
  ⟨h.underway.trans h'.underway, h'.deleted.trans h.deleted, h'.visible.trans h.visible⟩

theorem Steady.table (h : u.Steady w) : w.store.backend.table = u.store.backend.table :=
  h.underway.adjusts.store.table

theorem Underway.refl (hs : w.Sound) (hp : w.InPass) : w.Underway w :=
  ⟨hs, hp.ensuring, ⟨rfl, rfl⟩, .ofStore w (.refl _)⟩

theorem Steady.refl (hs : w.Sound) (hp : w.InPass) : w.Steady w := ⟨.refl hs hp, rfl, rfl⟩

theorem InPass.heeds (h : w.InPass) : w.Heeds := ⟨h.recording, h.heeding⟩

theorem Steady.inPass (h : u.Steady w) (hp : u.InPass) : w.InPass := h.underway.inPass hp.heeds

/-- Between two units of work nothing is deleted, and at most the entity under an id changes, which
is in order afterwards. -/
def Tends (w : Work) (id : EntityId) (w' : Work) : Prop :=
  w.Steady w' ∧ w'.InOrder id ∧
    ∀ other, id ≠ other → w'.candidate? other = w.candidate? other ∧
      w'.txn.modified.contains other = w.txn.modified.contains other

theorem tends_of_kept (hunderway : w.Underway w') (he : tendsItself e = true)
    (hcand : w.candidate? e.id = some e) (hv : verdict w.visible (w.found e.id) e = .keep)
    (htxn : w'.txn = { w.txn with checking := none })
    (htable : w'.store.backend.memory.table = w.store.backend.memory.table) :
    w.Tends e.id w' := by
  have hcandidate : w'.candidate? = w.candidate? := candidate?_congr (by rw [htxn]) htable
  have hvisible : w'.visible = w.visible := visible_congr (by rw [htxn]) (by rw [htxn]) htable
  refine ⟨⟨hunderway, by rw [htxn], hvisible⟩, ?_, fun other _ => ?_⟩
  · intro x hx
    rw [hcandidate, hcand] at hx
    cases hx
    rw [hvisible]
    exact sees_of_keep he (fun _ => visible_of_found) hv
  · exact ⟨by rw [hcandidate], by rw [htxn]⟩

theorem tends_of_mended {body : Body} {fields : Properties} (hunderway : w.Underway w')
    (hcand : w.candidate? e.id = some e) (hd : w.txn.deleted.contains e.id = false)
    (hv : verdict w.visible (w.found e.id) e = .mend body)
    (htxn : w'.txn =
      { w.txn with
        modified := w.txn.modified.add ⟨e.id, body⟩
        deltas := w.txn.deltas.insert e.id fields
        checking := none })
    (htable : w'.store.backend.memory.table = w.store.backend.memory.table) :
    w.Tends e.id w' := by
  have hdeleted : w'.txn.deleted = w.txn.deleted := by rw [htxn]
  obtain ⟨hself, hvisible, hother⟩ :=
    candidate?_of_replaced hcand hd (by rw [htxn]) hdeleted htable
  refine ⟨⟨hunderway, hdeleted, hvisible⟩, ?_, hother⟩
  intro x hx
  rw [hself] at hx
  cases hx
  rw [hvisible]
  exact (sees_of_mend hv).2

/-- A check that succeeds changes at most the entity that is checked, and leaves it in order. -/
theorem checkEntity_ok (hrun : Honours run) (hs : w.Sound) (hp : w.InPass)
    (hd : w.txn.deleted.contains id = false) (h : w.checkEntity run id = (.ok (), w')) :
    w.Tends id w' := by
  cases hcand : w.candidate? id with
  | none =>
    simp only [checkEntity, hcand, Prod.mk.injEq, true_and] at h
    subst h
    exact ⟨.refl hs hp, fun e he => by simp [hcand] at he, fun _ _ => ⟨rfl, rfl⟩⟩
  | some e =>
    have hresult := checkEntity_result hrun hp (hs.candidate hcand) hcand hd
    have hid := id_of_candidate? hcand
    rw [h] at hresult
    have hunderway := (Underway.refl hs hp).checkEntity hrun id
    rw [h] at hunderway
    subst hid
    cases hresult with
    | kept hv htxn hquiet =>
      exact tends_of_kept hunderway (hs.candidate hcand) hcand hv htxn hquiet.table
    | mended fields hv htxn hquiet =>
      exact tends_of_mended hunderway hcand hd hv htxn hquiet.table

/-- Checks that succeed leave their entities in order, and these stay in order. -/
theorem steady_settles (hrun : Honours run) (hp : w.InPass) :
    Settles run w.Steady InOrder where
  alive hu hput := hu.underway.sound.alive hput
  check {id u u'} hu hd heq := by
    obtain ⟨hsteady, hself, hother⟩ :=
      checkEntity_ok hrun hu.underway.sound (hu.inPass hp) hd heq
    refine ⟨hu.trans hsteady, hsteady.deleted, hself,
      fun other hne => ⟨fun h x hx => ?_, fun h => ?_⟩⟩
    · rw [(hother other hne).1] at hx
      rw [hsteady.visible]
      exact h x hx
    · rwa [(hother other hne).2] at h
  query {u} hu :=
    ⟨⟨hu.underway.next (.count u _) (hu.underway.sound.of_eq rfl rfl rfl) rfl ⟨rfl, rfl⟩,
      hu.deleted, hu.visible⟩, fun _ h => h⟩

theorem affected_congr (hmodified : w'.txn.modified = w.txn.modified)
    (hdeleted : w'.txn.deleted = w.txn.deleted)
    (htable : w'.store.backend.table = w.store.backend.table) : w'.affected = w.affected := by
  have hreferences : w'.committedReferences = w.committedReferences := by
    funext id
    rw [committedReferences, committedReferences, htable]
  simp only [affected, affectedBy, matching, referrerQuery, ownQuery, committedQuery,
    Backend.findAll, hmodified, hdeleted, htable, hreferences]

/-- A deletion affects what the deleted entity referred to and what is visible and refers to it. -/
theorem mem_affected_iff :
    id ∈ w.affected ↔ ∃ d, w.txn.deleted.contains d = true ∧ d ≠ id ∧
      (id ∈ w.committedReferences d ∨
        ∃ e ∈ w.matching w.referrerQuery, d ∈ e.references ∧ e.id = id) := by
  have htargets : ∀ d,
      id ∈ (((OrderedMap.setOf (w.committedReferences d)).addAll
          (((w.matching w.referrerQuery).filter fun e => e.references.contains d).map
            (·.id))).erase d).keys ↔
        d ≠ id ∧ (id ∈ w.committedReferences d ∨
          ∃ e ∈ w.matching w.referrerQuery, d ∈ e.references ∧ e.id = id) := by
    intro d
    rw [OrderedMap.mem_keys_iff, OrderedMap.contains_erase, Bool.and_eq_true,
      OrderedMap.contains_addAll, OrderedMap.contains_setOf]
    simp [and_assoc]
  simp only [affected, affectedBy_eq, List.mem_flatMap, OrderedMap.mem_values_mapEntries_iff]
  constructor
  · rintro ⟨_, ⟨d, _, hd, rfl⟩, hid⟩
    exact ⟨d, OrderedMap.contains_iff.2 ⟨_, hd⟩, (htargets d).1 hid⟩
  · rintro ⟨d, hd, hid⟩
    obtain ⟨_, hd⟩ := OrderedMap.contains_iff.1 hd
    exact ⟨_, ⟨d, _, hd, rfl⟩, (htargets d).2 hid⟩

/-- The deletion of an id affects the entities that stay and refer to it. -/
theorem mem_affected {r d : EntityId} (hr : w.store.backend.table.find? r = some e)
    (hput : w.txn.modified.contains r = false) (hd : w.txn.deleted.contains r = false)
    (href : d ∈ e.references) (hdeleted : w.txn.deleted.contains d = true) :
    r ∈ w.affected := by
  obtain rfl := Index.id_of_find? hr
  have hfound : e ∈ w.matching w.referrerQuery := by
    refine List.mem_append_right _ (Index.mem_findAll_iff.2 ⟨hr, rfl, .inr ?_⟩)
    simp only [committedQuery, Query.without, referrerQuery, Query.passing, hput, hd,
      Bool.or_false, Bool.not_false, Bool.true_and, List.any_eq_true]
    exact ⟨d, href, hdeleted⟩
  refine mem_affected_iff.2 ⟨d, hdeleted, ?_, .inr ⟨e, hfound, href, rfl⟩⟩
  rintro rfl
  rw [hd] at hdeleted
  cases hdeleted

/-- A pass that completes leaves everything clean. -/
theorem integrityPass_ok (hrun : Honours run) (hs : w.Sound) (hp : w.InPass)
    {checked : OrderedSet} (h : w.integrityPass run = (.ok checked, w')) :
    w.Steady w' ∧ w'.Clean := by
  obtain ⟨hsteady, -, hpending, u, hu, hdeleted, hfirst, hall⟩ :=
    (steady_settles hrun hp).integrityPass (.refl hs hp) h
  refine ⟨hsteady, fun {i e} hi => ?_, fun {i e} hi hd hput ref href => ?_⟩
  · exact hpending i (Index.contains_iff_find?.2 ⟨e, hi⟩) e (by simp [candidate?, hi])
  · cases hgone : w'.txn.deleted.contains ref with
    | false => rfl
    | true =>
      -- the entity was affected when the deletions were looked at, so it has been checked
      rw [hsteady.deleted] at hd hgone
      have horder : w'.InOrder i := by
        cases hput' : u.txn.modified.contains i with
        | true => exact hfirst i hput'
        | false =>
          refine hall i (mem_affected (d := ref) ?_ hput' ?_ href ?_) hd
          · rw [← hi, hu.table, hsteady.table]
          · rw [hdeleted, hd]
          · rw [hdeleted, hgone]
      have hcand : w'.candidate? i = some e := by
        rw [Index.contains_eq_isSome, Option.isSome_eq_false_iff,
          Option.isNone_iff_eq_none] at hput
        simp only [candidate?, hput, Option.none_or]
        exact hi
      have hvisible := horder e hcand ref href
      simp [visible, hsteady.deleted, hgone] at hvisible

/-! ## Repairs -/

/-- A unit of work between the passes of a repair that began with another. -/
structure Between (u w : Work) : Prop where
  sound : w.Sound
  settings : u.SameSettings w
  adjusts : u.Adjusts w

theorem Between.beginPass (h : u.Between w) : u.Underway w.beginPass :=
  ⟨h.sound.of_eq rfl rfl rfl, rfl, ⟨h.settings.repairing, h.settings.ignoring⟩,
    h.adjusts.trans (.beginPass w)⟩

theorem Underway.endPass (h : u.Underway w) : u.Between w.endPass :=
  ⟨h.sound.of_eq rfl rfl rfl, ⟨h.settings.repairing, h.settings.ignoring⟩,
    h.adjusts.trans (.endPass w)⟩

theorem Between.count (h : u.Between w) (counter : Statistics → Statistics) :
    u.Between (w.count counter) :=
  ⟨h.sound.of_eq rfl rfl rfl, ⟨h.settings.repairing, h.settings.ignoring⟩,
    h.adjusts.trans (.count w _)⟩

theorem Between.markedPass (h : u.Between w) (hrun : Honours run) :
    u.Between (integrityPass run w.beginPass).2.endPass :=
  ((Underway.passRelation u hrun).integrityPass w.beginPass h.beginPass).endPass

theorem between_ensureIntegrity (hrun : Honours run) (hs : w.Sound) :
    w.Between (ensureIntegrity run w).2 :=
  repeatPasses_preserves (fun _ h => h.markedPass hrun) (fun _ h => h.count _)
    ⟨hs, ⟨rfl, rfl⟩, .ofStore w (.refl _)⟩

/-- A repair that succeeds leaves everything clean. -/
theorem clean_of_ensureIntegrity (hrun : Honours run) (hs : w.Sound) (hh : w.Heeds)
    (h : ensureIntegrity run w = (.ok (), w')) : w'.Clean := by
  obtain ⟨before, checked, after, hbefore, hpass, -, rfl⟩ :=
    ensureIntegrity_ok (I := w.Between) (fun _ h => h.markedPass hrun) (fun _ h => h.count _)
      ⟨hs, ⟨rfl, rfl⟩, .ofStore w (.refl _)⟩ h
  have hstart := hbefore.beginPass
  obtain ⟨-, hclean⟩ := integrityPass_ok hrun hstart.sound (hstart.inPass hh) hpass
  exact ⟨hclean.pending, hclean.affected⟩

end Work

end EntityStore
